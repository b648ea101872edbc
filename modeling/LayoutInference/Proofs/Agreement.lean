import Mathlib
import LayoutInference.Proofs.FittingRuns
import LayoutInference.Proofs.Questions

/-!
# Apparent types and layouts agree

There are two ways to evaluate an expression. Its apparent type follows from its parts by fixed rules;
its layout is found by the evidence of a run. On self-contained expressions the two never contradict
each other: `infer_agrees_with_apparent`.

Accesses, methods and sums have a rule in either account. A layout that fits goes over into one that
fits under each pair of rules, so current layouts fit by induction over the expression
(`View.current_yields`), and what fits and says something names the same scalar.
-/

namespace LayoutInference

/-! ## Rules -/

namespace Apparent.Fits

variable {r : Registry} {t t' : Apparent} {receiver l left right : Layout} {name : String}

/-- What fits and says something is a scalar exactly if the type is one. -/
theorem scalar_iff (h : t.Fits r l) (hl : l.isFallback = false) :
    (t = .string ↔ l = .string) ∧ (t = .number ↔ l = .integer) ∧ (t = .boolean ↔ l = .boolean) := by
  cases h with
  | fallback h =>
    rw [h] at hl
    cases hl
  | string | number | boolean | fixed | dynamic | record => simp

/-- Only strings fit the layout of strings. -/
theorem eq_string (h : t.Fits r .string) : t = .string := (h.scalar_iff rfl).1.mpr rfl

/-- Only numbers fit the layout of integers. -/
theorem eq_number (h : t.Fits r .integer) : t = .number := (h.scalar_iff rfl).2.1.mpr rfl

/-- Arrays fit array types only, and their elements fit. -/
theorem exists_array (h : t.Fits r l) (harray : l.isArray = true) :
    ∃ e : Apparent, t = .array e ∧ e.Fits r l.elem := by
  cases h with
  | fallback h => cases l <;> simp_all [Layout.isFallback, Layout.isArray]
  | fixed he _ => exact ⟨_, rfl, he⟩
  | dynamic he => exact ⟨_, rfl, he⟩
  | string | number | boolean | record => cases harray

/-- Records fit object types only, and their fields fit. -/
theorem exists_object {id : RecordId} (h : t.Fits r (.record id)) : ∃ ms, t = .object ms
    ∧ ∀ name, (((Apparent.object ms).member? name).getD .any).Fits r
      (((r.record? id).bind (·.field? name)).getD .missing) := by
  cases h with
  | fallback h => cases h
  | record _ hfields =>
    refine ⟨_, rfl, fun name => ?_⟩
    cases hl : (r.record? id).bind (·.field? name) with
    | none => exact .fallback rfl
    | some l => exact hfields name l hl

/-- The layout of a property fits its type. -/
theorem property (h : t.Fits r receiver) (hl : View.propertyLayout? r receiver name = some l) :
    (t.property name).Fits r l := by
  unfold View.propertyLayout? at hl
  split at hl
  · next hlength =>
    simp only [Bool.and_eq_true, Bool.or_eq_true, decide_eq_true_eq] at hlength
    obtain ⟨rfl, hreceiver⟩ := hlength
    cases hl
    rcases hreceiver with rfl | harray
    · rw [h.eq_string]
      exact .number
    · obtain ⟨e, rfl, -⟩ := h.exists_array harray
      exact .number
  · cases receiver <;> cases hl
    obtain ⟨ms, rfl, hfields⟩ := h.exists_object
    exact hfields name

/-- The layout of an element fits its type. -/
theorem elementAt (h : t.Fits r receiver) {key : Option Node}
    (hl : View.elementLayout? r receiver key = some l) : (t.elementAt key).Fits r l := by
  cases receiver with
  | missing => cases hl
  | scalar kind =>
    simp only [View.elementLayout?, Option.some.injEq] at hl
    split at hl <;> subst hl
    · next hstring =>
      rw [hstring] at h
      rw [h.eq_string]
      exact .string
    · exact .fallback rfl
  | fixed | dynamic =>
    cases hl
    obtain ⟨e, rfl, he⟩ := h.exists_array rfl
    exact he
  | dict => exact absurd List.mem_cons_self h.dictless
  | record id =>
    obtain ⟨ms, rfl, hfields⟩ := h.exists_object
    simp only [View.elementLayout?] at hl
    unfold Apparent.elementAt
    cases key with
    | none =>
      cases hl
      exact .fallback rfl
    | some key =>
      simp only at hl ⊢
      split at hl <;> cases hl
      · next hstring =>
        rw [if_pos hstring]
        exact hfields key.value
      · exact .fallback rfl

/-- The layout of what a method returns fits its type. -/
theorem method (h : t.Fits r receiver) (hl : View.methodLayout? receiver name = some l) :
    (t.method name).Fits r l := by
  unfold View.methodLayout? at hl
  split at hl
  · next harray =>
    obtain ⟨e, rfl, he⟩ := h.exists_array harray
    unfold arrayMethodLayout? at hl
    split at hl <;> cases hl
    · exact he
    · exact he
    all_goals exact .number
  · split at hl
    · next hstring =>
      rw [hstring] at h
      rw [h.eq_string]
      unfold stringMethodLayout? at hl
      split at hl <;> cases hl
      · exact .number
      · exact .number
      all_goals exact .string
    · cases hl

/-- The layout of a sum fits its type. -/
theorem sum (hleft : t.Fits r left) (hright : t'.Fits r right) :
    (t.sum t').Fits r (View.sumLayout left right) := by
  unfold View.sumLayout
  split
  · next hstring =>
    simp only [Bool.or_eq_true, decide_eq_true_eq] at hstring
    rcases hstring with rfl | rfl
    · rw [hleft.eq_string]
      exact .string
    · rw [hright.eq_string, Apparent.sum, isString, Bool.or_true]
      exact .string
  · next hstring =>
    split
    · next hinteger =>
      simp only [Bool.and_eq_true, decide_eq_true_eq] at hinteger
      obtain ⟨rfl, rfl⟩ := hinteger
      rw [hleft.eq_number, hright.eq_number]
      exact .number
    · exact .fallback rfl

end Apparent.Fits

/-! ## Current layouts -/

/-- The layout fits the apparent type of a node. -/
abbrev Subject.FitsAt (s : Subject) (id : NodeId) (l : Layout) (r : Registry) : Prop :=
  (s.apparent id).Fits r l

namespace View

variable {v : View} {id : NodeId} {st : Store}

/-- A layout that fits the type of a node is yielded as it is. -/
theorem scalar_yields {t : Apparent} {l : Layout} (hst : v.Fitting st) (ht : v.apparent id = t)
    (hl : t.Fits st.registry l) : v.Yields (v.FitsAt id) (pure l) st := by
  subst ht
  exact .pure hst hl

/-- What a part has fits. -/
theorem part_yields (hst : v.Fitting st)
    (hcurrent : ∀ c, v.program.Inner id c → v.Yields (v.FitsAt c) (v.current c) st)
    (child : Option NodeId) : (∀ c, child = some c → v.program.SelfContained c) →
    v.Yields (fun l r => (v.typeAt child).Fits r l) (match child with
      | none => pure .missing
      | some c => if _h : id < c then v.current c else pure .missing) st := by
  intro hchild
  cases child with
  | none => exact .pure hst (.fallback rfl)
  | some c =>
    simp only
    split
    · next hlt => exact hcurrent c ⟨hchild c rfl, hlt⟩
    · exact .pure hst (.fallback rfl)

variable (hs : v.Ruled) (hnamed : v.Named AllSealed) (h : v.program.SelfContained id)

include hs hnamed h

/-- The layout that a type tells fits it. -/
theorem quiet_yields (hst : v.Fitting st) : v.Yields (v.FitsAt id) (v.quietLayout id) st :=
  (Subject.quietLayout_yields hs hnamed id hst).imp fun _ _ _ hl => hl.fits h

/-- An answer that is there and fits, and the apparent type otherwise. -/
theorem decided_yields (hst : v.Fitting st) (answer : Option Layout) :
    (∀ l, answer = some l → (v.apparent id).Fits st.registry l) →
    v.Yields (v.FitsAt id) (match answer with
      | some l => pure l
      | none => v.quietLayout id) st := by
  intro hanswer
  cases answer with
  | some l => exact .pure hst (hanswer l rfl)
  | none => exact quiet_yields hs hnamed h hst

/-- The layout of a literal fits its type. -/
theorem literal_yields {n : Node} (hn : v.program.node? id = some n)
    (hcollection : n.isCollection = true) (hst : v.Fitting st) :
    v.Yields (v.FitsAt id) (do
      match (← get).literals.lookup id with
      | some known => pure known
      | none => return (← v.determine "" id).getD .missing) st := by
  refine .read ?_
  cases hl : st.literals.lookup id with
  | some known => exact .pure hst (hst.literals id n known hn hcollection h hl)
  | none =>
    refine (Subject.determine_yields hs hnamed "" id hst).bind fun answer st' hst' _ hanswer =>
      .pure hst' ?_
    cases answer with
    | none => exact .fallback rfl
    | some l => exact (hanswer l rfl).fits h

section Receiver

variable {t : Apparent} {receiver : StateM Store Layout}
  (hreceiver : v.Yields (fun l r => t.Fits r l) receiver st)

include hreceiver

/-- The layout of an element fits the type of the element. -/
theorem element_yields {key : Option Node} (htype : v.apparent id = t.elementAt key) :
    v.Yields (v.FitsAt id) (do
      let l ← receiver
      match elementLayout? (← get).registry l key with
      | some l => pure l
      | none => v.quietLayout id) st := by
  refine hreceiver.bind fun l st' hst' _ hl => .read ?_
  refine decided_yields hs hnamed h hst' _ fun l' hl' => ?_
  rw [htype]
  exact hl.elementAt hl'

/-- The layout of a property fits the type of the property. -/
theorem property_yields {name : String} (htype : v.apparent id = t.property name) :
    v.Yields (v.FitsAt id) (do
      let l ← receiver
      match propertyLayout? (← get).registry l name with
      | some l => pure l
      | none => v.quietLayout id) st := by
  refine hreceiver.bind fun l st' hst' _ hl => .read ?_
  refine decided_yields hs hnamed h hst' _ fun l' hl' => ?_
  rw [htype]
  exact hl.property hl'

/-- The layout of a method's result fits the type of the result. -/
theorem method_yields {name : String} (htype : v.apparent id = t.method name) :
    v.Yields (v.FitsAt id) (do
      match methodLayout? (← receiver) name with
      | some l => pure l
      | none => v.quietLayout id) st := by
  refine hreceiver.bind fun l st' hst' _ hl => ?_
  refine decided_yields hs hnamed h hst' _ fun l' hl' => ?_
  rw [htype]
  exact hl.method hl'

/-- The layout of a sum fits the type of the sum. -/
theorem sum_yields {t' : Apparent} {right : StateM Store Layout}
    (hright : ∀ st, v.Fitting st → v.Yields (fun l r => t'.Fits r l) right st)
    (htype : v.apparent id = t.sum t') :
    v.Yields (v.FitsAt id) (do
      let left ← receiver
      let right ← right
      let l := sumLayout left right
      if l = .missing then v.quietLayout id else pure l) st := by
  refine hreceiver.bind fun left st' hst' _ hleft => ?_
  refine (hright st' hst').bind fun right st'' hst'' hle hright => ?_
  simp only
  split
  · exact quiet_yields hs hnamed h hst''
  · refine .pure hst'' ?_
    rw [Subject.FitsAt, htype]
    exact (hleft.mono hle.registry).sum hright

end Receiver

omit h in
/-- The current layout of a self-contained expression fits its apparent type. -/
theorem current_yields (h : v.program.SelfContained id) (hst : v.Fitting st) :
    v.Yields (v.FitsAt id) (v.current id) st := by
  induction h using Program.SelfContained.induction generalizing st with
  | step id h ih =>
    obtain ⟨n, hn⟩ := h.node
    have hquiet := quiet_yields hs hnamed h hst
    -- Parts of the expression come after it, so their current layouts fit already.
    have hpart {st : Store} (hst : v.Fitting st) := part_yields hst fun c hc => ih c hc hst
    have htarget hkind :=
      hpart hst n.target fun c hc => h.child hn (Node.target_mem_children hc hkind)
    have htype := hs.apparent_eq h hn
    rw [View.current]
    split
    · next hnone => rw [hnone] at hn; cases hn
    · next n' hn' =>
      obtain rfl : n = n' := Option.some.inj (hn.symm.trans hn')
      simp only
      cases hk : n.kind with
      | string | template =>
        simp only [Node.apparent, hk] at htype
        exact scalar_yields hst htype .string
      | number =>
        simp only [Node.apparent, hk] at htype
        exact scalar_yields hst htype .number
      | boolean =>
        simp only [Node.apparent, hk] at htype
        exact scalar_yields hst htype .boolean
      | objectLiteral | arrayLiteral =>
        exact literal_yields hs hnamed h hn (by simp [Node.isCollection, hk]) hst
      | elementAccess =>
        exact element_yields hs hnamed h (htarget (by simp [hk])) (hs.apparent_elementAccess h hn hk)
      | propertyAccess =>
        exact property_yields hs hnamed h (htarget (by simp [hk])) (hs.apparent_propertyAccess h hn hk)
      | call =>
        have hcall := hs.apparent_call h hn hk
        cases hcallee : v.program.at? n.target with
        | none => exact .pure hst (.fallback rfl)
        | some callee =>
          obtain ⟨t, ht, hnode⟩ := Option.bind_eq_some_iff.mp hcallee
          have hselfContained := h.child hn (Node.target_mem_children ht (by simp [hk]))
          simp only [hcallee] at hcall ⊢
          split
          · next hmethod =>
            have hreceiver := hpart hst callee.target fun u hu =>
              hselfContained.child hnode (Node.target_mem_children hu (.inl hmethod))
            rw [if_pos hmethod] at hcall
            exact method_yields hs hnamed h hreceiver hcall
          -- No function is declared in the expression, so nothing is known of what is called.
          · rw [hs.numbered.id_eq hnode, hselfContained.functionOf_eq_none]
            exact hquiet
      | binary =>
        have hbinary := hs.apparent_binary h hn hk
        cases hoperator : operatorClass n.value with
        | arithmetic =>
          simp only [hoperator] at hbinary ⊢
          exact scalar_yields hst hbinary .number
        | comparison =>
          simp only [hoperator] at hbinary ⊢
          exact scalar_yields hst hbinary .boolean
        | plus =>
          simp only [hoperator] at hbinary ⊢
          exact sum_yields hs hnamed h (htarget (by simp [hk])) (fun st hst => hpart hst n.expr fun c hc =>
            h.child hn (Node.expr_mem_children hc)) hbinary
        | choice | unknown => exact hquiet
      | null | property | unary | conditional => exact hquiet
      | _ => exact absurd (h.kind hn) (by rw [hk]; decide)

/-- A layout that is known is that of a scalar exactly if the type is one. -/
theorem layoutOf_scalar_iff (hst : v.Fitting st)
    (hl : (v.layoutOf id st).1 ≠ .missing) :
    (v.apparent id = .string ↔ (v.layoutOf id st).1 = .string)
      ∧ (v.apparent id = .number ↔ (v.layoutOf id st).1 = .integer)
      ∧ (v.apparent id = .boolean ↔ (v.layoutOf id st).1 = .boolean) := by
  have hfits := (current_yields hs hnamed h hst).holds
  have heq : (v.layoutOf id st).1
      = if (v.current id st).1.isFallback then .missing else (v.current id st).1 := rfl
  rw [heq] at hl ⊢
  split at hl
  · exact absurd rfl hl
  · next hknown =>
    rw [if_neg hknown]
    exact hfits.scalar_iff (Bool.eq_false_iff.mpr hknown)

end View

/-! ## Finished runs -/

/-- Names without spaces can be told apart in bodies. -/
theorem Program.admits_allSealed {p : Program}
    (hnames : ∀ name ∈ p.propertyNames, ' ' ∉ name.toList) : p.Admits AllSealed where
  nil _ hname := by cases hname
  snoc fields hfields name hname _ := by
    rw [AllSealed, List.forall_mem_append]
    exact ⟨hfields, by simpa using Sealed.of_space_notMem (hnames name hname)⟩
  literal n _ _ name hname := .of_space_notMem (hnames name (p.memberNames_subset n.items hname))

namespace Result

variable {s : Subject} {source : Source} {script : Script}

/-- The store behind a finished run is fitting, whatever was asked for since. -/
theorem fitting_askAll (hscript : Program.ofScript source script = .ok s.program) (hs : s.Ruled)
    (hnamed : s.Named AllSealed) {bound : Nat}
    (hclash : (ofOutcome s (s.resolve bound)).state.registry.clash = none) (earlier : List NodeId) :
    s.Fitting (askAll earlier (ofOutcome s (s.resolve bound))).2.state.toStore := by
  have hasked := (ready_ofOutcome hscript hclash).asked earlier
  have hobeys := finalState_obeys Registry.bodied_law s bound
  have htracks := finalState_named hnamed bound
  have hle : s.collect.toStore ≤ (ofOutcome s (s.resolve bound)).state.toStore :=
    (Subject.resolve_grown hs.numbered bound).trans (le_finalStore s _)
  refine ⟨hasked.ready.wellFormed.store, ?_, ?_,
    Subject.literalsFit_of_grown hs hnamed hscript (hle.trans hasked.grows)⟩
  · rw [askAll_eq]
    exact (Keeps.mapM (fun id (_ : id ∈ earlier) =>
      (View.answers_obeys Registry.bodied_law (hobeys.view s)).layoutOf id) _ hobeys.store).1
  · rw [askAll_eq]
    have hanswers := Subject.Upholds.answers (v := (ofOutcome s (s.resolve bound)).state.view s)
      (Subject.upholds_named hnamed)
    exact (Keeps.mapM (fun id (_ : id ∈ earlier) => hanswers.layoutOf id) _ htracks.store).1

end Result

/-- **The two evaluators never contradict each other.** Let no property name hold a space. After a run,
whatever nodes have been asked for since, a self-contained expression whose layout is known has the
layout of a string, a number or a truth value exactly if that is its apparent type. -/
theorem infer_agrees_with_apparent {source : Source} {script : Script} {p : Program}
    (hp : Program.ofScript source script = .ok p)
    (hnames : ∀ name ∈ p.propertyNames, ' ' ∉ name.toList) {max : Int} {r : Result}
    (hr : infer p max = .ok r) (earlier : List NodeId) {e : NodeId} (he : p.SelfContained e) :
    let t := (Subject.of p).apparent e
    let (l, _) := Result.ask e (Result.askAll earlier r).2
    l ≠ .missing → (t = .string ↔ l = .string) ∧ (t = .number ↔ l = .integer)
      ∧ (t = .boolean ↔ l = .boolean) := by
  intro t
  obtain ⟨hrun, hclash⟩ := infer_eq_ok_iff.mp hr
  obtain ⟨bound, hbound⟩ : ∃ bound, runInference p max
      = Result.ofOutcome (Subject.of p) ((Subject.of p).resolve bound) := ⟨_, rfl⟩
  rw [hbound] at hrun hclash
  subst hrun
  have hs := Subject.ruled_of hp
  have hnamed := Subject.named_of (Program.admits_allSealed hnames)
  have hfitting := Result.fitting_askAll hp hs hnamed hclash earlier
  rw [Result.askAll_eq] at hfitting ⊢
  exact View.layoutOf_scalar_iff (v := View.mk (Subject.of p) _ _) hs hnamed he hfitting

open Script in
/-- `let x = {a: ["u"]}; {a: ["v"]}.a.pop() + [3][0];` -/
def Script.literalSum : Script :=
  ⟨[declares "x" (.object ⟨0, 0⟩ [memberOf "a" (arrayOf [.string ⟨0, 0⟩ "u"])]),
    .expression ⟨0, 0⟩ (.binary ⟨0, 0⟩ "+"
      (.call ⟨0, 0⟩ (.dot ⟨0, 0⟩ (.dot ⟨0, 0⟩ (.object ⟨0, 0⟩
        [memberOf "a" (arrayOf [.string ⟨0, 0⟩ "v"])]) "a") "pop") [])
      (.bracket ⟨0, 0⟩ (arrayOf [numberOf "3"]) (numberOf "0")))]⟩

/-- The second literal shares the record of the first. Its property is an array of strings, so the sum
at node 9 is a string by both accounts, also after the variable and the method were asked for. -/
theorem infer_agrees_with_apparent_literalSum :
    ∃ r, infer Script.literalSum.program 64 = .ok r
      ∧ (∀ name ∈ Script.literalSum.program.propertyNames, ' ' ∉ name.toList)
      ∧ Script.literalSum.program.SelfContained 9
      ∧ (Result.ask 9 (Result.askAll [3, 11] r).2).1 = .string
      ∧ (Subject.of Script.literalSum.program).apparent 9 = .string := by
  have hscript := Script.ofScript_eq_ok Script.literalSum (by decide +kernel)
  have hnames : ∀ name ∈ Script.literalSum.program.propertyNames, ' ' ∉ name.toList := by
    decide +kernel
  have hcontained : Script.literalSum.program.SelfContained 9 :=
    .of_isSelfContained (by decide +kernel : Script.literalSum.program.isSelfContained 8 9 = true)
  obtain ⟨r, hr⟩ : ∃ r, r = runInference Script.literalSum.program 64 := ⟨_, rfl⟩
  have hrun : infer Script.literalSum.program 64 = .ok r :=
    infer_eq_ok_iff.mpr ⟨hr, by decide +kernel⟩
  have hlayout : (Result.ask 9 (Result.askAll [3, 11] r).2).1 = .string := by
    rw [hr]
    cbv
  have hagrees := infer_agrees_with_apparent hscript hnames hrun [3, 11] hcontained
    (hlayout.trans_ne (by simp))
  exact ⟨r, hrun, hnames, hcontained, hlayout, hagrees.1.mpr hlayout⟩

end LayoutInference
