import Mathlib
import LayoutInference.Proofs.LawfulRuns
import LayoutInference.Proofs.Usage

/-!
# What lives on the heap

The mark of a binding that needs allocation is decided together with its layout, whenever winners are
picked. `infer_allocation_exact` says which bindings have it: growing arrays, dictionaries and universal
values, and records whose variable is given an object literal. It also says when a layout is universal.

Three facts carry the proof.

* The candidates that count are those of `Variable.surviving`, told apart by their keys
  (`Variable.survivors_keys`), whatever the registry answers for arrays that turn into growing ones.
* Passes change the evidence about a variable and the verdict on it, and nothing else:
  `Subject.resolve_revises`.
* The walk notes an object literal for a variable exactly where one is given to it:
  `Subject.collect_objectLiteral_iff`. Of several parameters with one name only the first counts.
-/

namespace LayoutInference

/-! ## Candidates that count -/

/-- What an array of fixed length turns into when it grows. -/
def Layout.grown : Layout → Layout
  | .fixed elem _ => .dynamic elem
  | l => l

namespace Variable

/-- Whether a candidate counts: it says something, and it is no record if the variable is a
dictionary. -/
def counts (v : Variable) (c : Layout) : Bool := !(c.isFallback || (v.dictionary && c.isRecord))

/-- What a candidate counts for: an array of fixed length for a growing one if the variable grows. -/
def taken (v : Variable) (c : Layout) : Layout := if v.growing then c.grown else c

/-- The layouts that count for a variable. -/
def surviving (v : Variable) : List Layout := (v.candidates.filter v.counts).map v.taken

/-- A candidate that counts says something. -/
theorem isFallback_of_counts {v : Variable} {c : Layout} (hc : v.counts c = true) :
    c.isFallback = false := by
  rw [counts, Bool.not_eq_true', Bool.or_eq_false_iff] at hc
  exact hc.1

/-- A layout that says something is there. -/
theorem ne_missing_of_not_isFallback {l : Layout} (h : l.isFallback = false) : l ≠ .missing := by
  rintro rfl
  cases h

/-- Layouts are told apart by their keys. -/
theorem keys_appendDistinct {kept : List Layout} (hkept : ∀ k ∈ kept, k.isFallback = false)
    {l : Layout} (hl : l.isFallback = false) :
    (appendDistinct kept l).map (·.key)
      = if l.key ∈ kept.map (·.key) then kept.map (·.key) else kept.map (·.key) ++ [l.key] := by
  have hsame : hasSame kept l = true ↔ l.key ∈ kept.map (·.key) := by
    rw [hasSame, List.any_eq_true, List.mem_map]
    refine exists_congr fun k => and_congr_right fun hk => ?_
    exact Layout.same_iff_key_eq (ne_missing_of_not_isFallback (hkept k hk))
      (ne_missing_of_not_isFallback hl)
  rw [appendDistinct, if_congr hsame rfl rfl]
  split <;> simp

/-- The layouts `kept` are those of `counted`, each once, told apart by their keys. -/
structure Collected (counted kept : List Layout) : Prop where
  decided : ∀ l ∈ kept, l.isFallback = false
  nodup : (kept.map (·.key)).Nodup
  mem : ∀ key, key ∈ kept.map (·.key) ↔ key ∈ counted.map (·.key)

/-- One more layout that counts is kept under its key. -/
theorem Collected.append {counted kept : List Layout} (h : Collected counted kept) {l array : Layout}
    (hl : array.isFallback = false) (hkey : array.key = l.key) :
    Collected (counted ++ [l]) (appendDistinct kept array) := by
  have hkeys := keys_appendDistinct h.decided hl
  rw [hkey] at hkeys
  refine ⟨fun l' hl' => ?_, ?_, fun key => ?_⟩
  · rcases mem_appendDistinct hl' with hl' | rfl
    · exact h.decided l' hl'
    · exact hl
  · rw [hkeys]
    split
    · exact h.nodup
    · next hnew => exact List.nodup_append.mpr ⟨h.nodup, List.nodup_singleton _, by simpa using hnew⟩
  · rw [hkeys, List.map_append, List.mem_append, ← h.mem key]
    split
    · next hold =>
      refine ⟨.inl, fun hk => hk.elim id fun hk => ?_⟩
      rw [List.mem_singleton.mp hk]
      exact hold
    · rw [List.mem_append, List.map_singleton]

/-- A growing array is asked for under its key, and one is answered. -/
theorem dynamicArray_collected {r : Registry} (hr : r.Plain) {counted kept : List Layout}
    (h : Collected counted kept) (elem : Layout) :
    Collected (counted ++ [.dynamic elem]) (appendDistinct kept (r.dynamicArray elem).1) := by
  refine h.append ?_ (hr.key_intern (.dynamic elem))
  have hkind := r.container?_intern (.dynamic elem)
  rw [Registry.dynamicArray]
  generalize (r.intern (.dynamic elem)).1 = array at hkind ⊢
  cases array with
  | dynamic => rfl
  | _ => cases hkind

/-- Going over a candidate keeps it if it counts. -/
theorem keepCandidate_collected (v : Variable) {r : Registry} (hr : r.Plain) {counted kept : List Layout}
    (h : Collected counted kept) (c : Layout) :
    Collected (counted ++ ([c].filter v.counts).map v.taken) (v.keepCandidate (kept, r) c).1 := by
  rw [List.filter_singleton]
  unfold keepCandidate
  by_cases hdrop : (c.isFallback || (v.dictionary && c.isRecord)) = true
  · rw [if_pos hdrop, counts, hdrop]
    simpa using h
  · have hcounts : v.counts c = true := by rw [counts, Bool.eq_false_iff.mpr hdrop]; rfl
    have hplain : Collected (counted ++ [c]) (appendDistinct kept c) :=
      h.append (isFallback_of_counts hcounts) rfl
    rw [if_neg hdrop, hcounts, Bool.cond_true, List.map_singleton, taken]
    cases v.growing with
    | false => exact hplain
    | true =>
      cases c with
      | fixed elem _ => exact dynamicArray_collected hr h elem
      | _ => exact hplain

/-- The candidates that are kept are those that count. -/
theorem survivors_keys {v : Variable} (hv : v.Obeys fun l => l.isPlain = true) {r : Registry}
    (hr : r.Plain) : Collected v.surviving (v.survivors r).1 := by
  -- The candidates are gone through in order, and the registry stays plain meanwhile.
  have hfold (cs counted kept : List Layout) (hcs : ∀ c ∈ cs, c.isPlain = true) {r : Registry}
      (hr : r.Plain) (h : Collected counted kept) :
      Collected (counted ++ (cs.filter v.counts).map v.taken)
        (cs.foldl v.keepCandidate (kept, r)).1 := by
    induction cs generalizing counted kept r with
    | nil => simpa using h
    | cons c cs ih =>
      obtain ⟨hc, hcs⟩ := List.forall_mem_cons.mp hcs
      have hstep := keepCandidate_collected v hr h c
      have hr' := (keepCandidate_obeys Registry.plain_law (v := v) hc kept r hr).1
      have hrest := ih _ _ hcs hr' hstep
      rw [List.append_assoc, ← List.map_append, ← List.filter_append] at hrest
      exact hrest
  exact hfold v.candidates [] [] hv.candidates hr ⟨by simp, by simp, by simp⟩

section Verdict

variable {v : Variable} {r : Registry} (h : Collected v.surviving (v.survivors r).1)

include h

/-- The mark follows from the winner, and for a record from whether an object literal was noted. -/
theorem alloc_verdict_iff : (v.verdict r).1.alloc = true ↔
    (v.verdict r).1.winner.requiresAllocation = true ∨ (v.verdict r).1.winner = .universal
      ∨ (v.verdict r).1.winner.isRecord = true ∧ v.objectLiteral = true := by
  have hdecided := h.decided
  rw [verdict]
  generalize v.survivors r = outcome at hdecided ⊢
  obtain ⟨_ | ⟨l, _ | ⟨l', rest⟩⟩, r'⟩ := outcome
  · simp [judge, Layout.requiresAllocation, Layout.isRecord]
  · have hl := hdecided l (List.mem_singleton_self l)
    cases l with
    | scalar kind =>
      have huniversal : kind ≠ .universal := by
        rintro rfl
        cases hl
      simp [judge, Layout.requiresAllocation, Layout.isRecord, huniversal]
    | _ => simp [judge, Layout.requiresAllocation, Layout.isRecord]
  · cases l <;> simp [judge]

/-- The winner is universal if several layouts count. -/
theorem winner_verdict_eq_universal_iff : (v.verdict r).1.winner = .universal ↔
    ∃ l ∈ v.surviving, ∃ l' ∈ v.surviving, l.key ≠ l'.key := by
  -- Two layouts that count are two that are kept, as far as keys go.
  have hkept : (∃ l ∈ v.surviving, ∃ l' ∈ v.surviving, l.key ≠ l'.key)
      ↔ ∃ key ∈ (v.survivors r).1.map (·.key), ∃ key' ∈ (v.survivors r).1.map (·.key),
        key ≠ key' := by
    simp only [h.mem, List.mem_map, exists_exists_and_eq_and]
  rw [hkept]
  have hdecided := h.decided
  have hnodup := h.nodup
  rw [verdict]
  generalize v.survivors r = outcome at hdecided hnodup ⊢
  obtain ⟨_ | ⟨l, _ | ⟨l', rest⟩⟩, r'⟩ := outcome
  · simp [judge]
  · have hl := hdecided l (List.mem_singleton_self l)
    have hwinner : (v.judge [l] r').1.winner ≠ .universal := by
      cases l with
      | scalar kind =>
        intro huniversal
        have hkind : Layout.scalar kind = .universal := huniversal
        rw [hkind] at hl
        cases hl
      | _ => simp [judge]
    simp [hwinner]
  · have hwinner : (v.judge (l :: l' :: rest) r').1.winner = .universal := by cases l <;> rfl
    have hdiffer : l.key ≠ l'.key := by
      rw [List.map_cons, List.nodup_cons] at hnodup
      exact fun hsame => hnodup.1 (by simp [hsame])
    exact iff_of_true hwinner ⟨l.key, by simp, l'.key, by simp, hdiffer⟩

end Verdict

end Variable

/-! ## Passes -/

namespace Variable

/-- The variable `v'` is `v` with other evidence or another verdict on it. -/
def Revises (v v' : Variable) : Prop :=
  ∃ candidates added promises winner alloc conflicts,
    v' = { v with candidates, added, promises, winner, alloc, conflicts }

/-- A variable is a revision of itself. -/
theorem Revises.refl (v : Variable) : v.Revises v := ⟨_, _, _, _, _, _, rfl⟩

/-- A revision of a revision is one. -/
theorem Revises.trans {v v' v'' : Variable} (h : v.Revises v') (h' : v'.Revises v'') :
    v.Revises v'' := by
  obtain ⟨_, _, _, _, _, _, rfl⟩ := h
  obtain ⟨_, _, _, _, _, _, rfl⟩ := h'
  exact ⟨_, _, _, _, _, _, rfl⟩

/-- A variable with one more candidate is a revision. -/
theorem revises_addCandidate (v : Variable) (l : Layout) : v.Revises (v.addCandidate l) := by
  obtain ⟨more, heq⟩ := v.extends_addCandidate l
  exact ⟨_, _, _, _, _, _, heq⟩

/-- Refining the elements of a variable revises it. -/
theorem revises_refineElements (v : Variable) (l : Layout) (r : Registry) :
    v.Revises (v.refineElements l r).1.1 := by
  unfold refineElements
  split
  · exact .refl v
  · exact ⟨_, _, _, _, _, _, rfl⟩

/-- Noting a pushed element revises a variable. -/
theorem revises_addPushed (v : Variable) (l : Layout) (r : Registry) :
    v.Revises (v.addPushed l r).1 := by
  unfold addPushed
  simp only
  split
  · exact ⟨_, _, _, _, _, _, rfl⟩
  · exact v.revises_addCandidate _

/-- Using a layout for a promise revises a variable. -/
theorem revises_apply (v : Variable) (q : Promise) (l : Layout) (r : Registry) :
    v.Revises (v.apply q l r).1.1 := by
  unfold apply
  split
  · split
    · exact ⟨_, _, _, _, _, _, rfl⟩
    · exact v.revises_addCandidate l
  · split
    · exact .refl v
    · exact v.revises_addCandidate _
  · split
    · exact ⟨_, _, _, _, _, _, rfl⟩
    · exact v.revises_addPushed l r
  · exact v.revises_addCandidate _
  · exact v.revises_refineElements l r

/-- Picking a winner revises a variable. -/
theorem revises_collapse (v : Variable) (r : Registry) : v.Revises (v.collapse r).1.1 := by
  rw [collapse_eq]
  exact ⟨_, _, _, _, _, _, rfl⟩

end Variable

/-- The variables of a state are revisions of `vars`. -/
def State.Revised (vars : List Variable) (st : State) : Prop :=
  ∀ v' ∈ st.vars, ∃ v ∈ vars, v.Revises v'

namespace Subject

/-- Passes revise variables. -/
theorem settles_revises (s : Subject) (vars : List Variable) :
    s.Settles (fun _ => True) (fun _ => True) (fun v' => ∃ v ∈ vars, v.Revises v') fun _ => True := by
  refine settles_of_rel .trans Variable.revises_collapse (fun v done q ps l r => ?_)
    Variable.revises_addCandidate vars
  obtain ⟨_, _, _, _, _, _, heq⟩ := v.revises_apply q l r
  rw [heq]
  exact ⟨_, _, _, _, _, _, rfl⟩

/-- Resolving revises the variables that the walk leaves. -/
theorem resolve_revises (s : Subject) (bound : Nat) :
    (s.resolve bound).state.Revised s.collect.vars :=
  (s.settles_revises s.collect.vars).resolve (.of_vars _) (fun _ _ _ _ => ⟨trivial, trivial⟩)
    (fun v hv => ⟨v, hv, .refl v⟩) bound

end Subject

/-! ## Object literals -/

/-- The node gives a value to the variable declared at `decl`: as its initial value, unless a loop
assigns it, as the default of the parameter that declares it, or by a plain assignment. -/
inductive Node.Gives (p : Program) (decl value : NodeId) (n : Node) : Prop where
  | initial (hkind : n.kind = .variable) (hdecl : p.declaration n.id = some decl)
    (hvalue : n.expr = some value)
    (hloop : ∀ parent, p.at? n.parent = some parent →
      ¬(parent.target = some n.id ∧ (parent.kind = .forOf ∨ parent.kind = .forIn)))
  | default (hkind : n.kind = .parameter) (hdecl : n.id = decl) (hvalue : n.expr = some value)
  | assigned (hkind : n.kind = .assign) (hplain : n.value = "=") {target : Node}
    (htarget : p.at? n.target = some target) (hname : target.kind = .identifier)
    (hdecl : p.declaration target.id = some decl) (hvalue : n.expr = some value)

/-- The variable declared at `decl` is given an object literal. -/
def Program.GivesObject (p : Program) (decl : NodeId) : Prop :=
  ∃ n ∈ p.nodes.toList, ∃ value, n.Gives p decl value
    ∧ ∃ literal, p.node? value = some literal ∧ literal.kind = .objectLiteral

namespace State

/-- The marks for object literals are as `F` says of the declarations. -/
def Flags (F : NodeId → Bool → Prop) (st : State) : Prop := ∀ v ∈ st.vars, F v.decl v.objectLiteral

variable {F : NodeId → Bool → Prop}

/-- The marks for object literals are a part of each variable. -/
theorem flags_parts :
    Parts (Flags F) (fun _ => True) (fun v => F v.decl v.objectLiteral) fun _ => True :=
  .of_vars _

/-- A step of the store leaves the marks alone. -/
theorem withStore_flags {α : Type} (step : StateM Store α) :
    Keeps (Flags F) (fun _ => True) (withStore step) :=
  fun _ hst => ⟨hst, trivial⟩

/-- A change of a function leaves the marks alone. -/
theorem changeRoutine_flags (fn : NodeId) (change : Routine → Routine) :
    Keeps (Flags F) (fun _ => True) (changeRoutine fn change) :=
  fun _ hst => ⟨hst, trivial⟩

/-- A change that leaves the mark of a variable alone leaves all of them alone. -/
theorem changeVariable_flags (d : NodeId) {change : Variable → Variable}
    (hchange : ∀ v : Variable, (change v).decl = v.decl ∧ (change v).objectLiteral = v.objectLiteral) :
    Keeps (Flags F) (fun _ => True) (changeVariable d change) := by
  refine flags_parts.changeVariable d fun v _ hv => ?_
  rw [(hchange v).1, (hchange v).2]
  exact hv

/-- A revision of a variable leaves the marks alone. -/
theorem changeVariable_revises (d : NodeId) {change : Variable → Variable}
    (hchange : ∀ v : Variable, v.Revises (change v)) :
    Keeps (Flags F) (fun _ => True) (changeVariable d change) := by
  refine changeVariable_flags d fun v => ?_
  obtain ⟨_, _, _, _, _, _, heq⟩ := hchange v
  rw [heq]
  exact ⟨rfl, rfl⟩

/-- A revision that may also register layouts leaves the marks alone. -/
theorem changeVariableWith_revises (d : NodeId)
    {change : Variable → Registry → Variable × Registry}
    (hchange : ∀ (v : Variable) r, v.Revises (change v r).1) :
    Keeps (Flags F) (fun _ => True) (changeVariableWith d change) := by
  refine flags_parts.changeVariableWith d fun v hv st _ => ⟨trivial, ?_⟩
  obtain ⟨_, _, _, _, _, _, heq⟩ := hchange v st.registry
  show F (change v st.registry).1.decl (change v st.registry).1.objectLiteral
  rw [heq]
  exact hv

/-- Noting an object literal where it may be noted. -/
theorem changeVariable_object {d : NodeId} (hd : F d true) :
    Keeps (Flags F) (fun _ => True) (changeVariable d fun v => { v with objectLiteral := true }) := by
  refine flags_parts.changeVariable d fun v hdecl _ => ?_
  rw [hdecl]
  exact hd

end State

namespace Subject

variable {s : Subject} {F : NodeId → Bool → Prop}

open State in
/-- The other steps of the walk leave the marks for object literals alone. -/
theorem steps_flags (s : Subject) (F : NodeId → Bool → Prop) :
    s.Steps fun {α : Type} => Keeps (State.Flags F) fun _ : α => True where
  pure _ := .pure trivial
  bind hm hf := hm.bind fun a _ => hf a
  read hf := .read fun st _ => hf st
  note _ _ := withStore_flags _
  derive _ _ := withStore_flags _
  growing d := changeVariable_flags d fun _ => ⟨rfl, rfl⟩
  dictionary d := changeVariable_flags d fun v => by
    rw [Variable.makeDictionary]
    split <;> exact ⟨rfl, rfl⟩
  key d := changeVariable_revises d fun v => v.revises_addCandidate _
  promise d _ _ := changeVariable_flags d fun _ => ⟨rfl, rfl⟩
  value d _ _ := flags_parts.derived_of_true (changeVariable_flags d fun _ => ⟨rfl, rfl⟩)
    fun l => changeVariable_revises d fun v => v.revises_addCandidate l
  keyed d _ := flags_parts.derived_of_true (changeVariable_flags d fun _ => ⟨rfl, rfl⟩)
    fun _ => changeVariableWith_revises d fun v _ => v.revises_addCandidate _
  element d _ := flags_parts.derived_of_true (changeVariable_flags d fun _ => ⟨rfl, rfl⟩)
    fun l => changeVariableWith_revises d fun v r => v.revises_refineElements l r
  pushed d _ := flags_parts.derived_of_true (changeVariable_flags d fun _ => ⟨rfl, rfl⟩)
    fun l => changeVariableWith_revises d fun v r => v.revises_addPushed l r
  self d _ _ := changeVariable_flags d fun _ => ⟨rfl, rfl⟩
  property d _ _ _ := flags_parts.derived_of_true (changeVariable_flags d fun _ => ⟨rfl, rfl⟩)
    fun _ => changeVariable_flags d fun _ => ⟨rfl, rfl⟩
  propertyPushed d _ _ _ := flags_parts.derived_of_true (changeVariable_flags d fun _ => ⟨rfl, rfl⟩)
    fun _ => changeVariableWith_revises d fun _ _ => ⟨_, _, _, _, _, _, rfl⟩
  mark fn _ _ := changeRoutine_flags fn _
  argument fn _ _ _ := flags_parts.derived_of_true (changeRoutine_flags fn _)
    fun _ => changeRoutine_flags fn _
  returned fn id settled _ _ _ := by
    refine flags_parts.derived_of_true (changeRoutine_flags fn _) fun l => ?_
    simp only [Option.getD_some]
    repeat' split
    · exact changeRoutine_flags fn _
    · exact .pure trivial
    · exact changeRoutine_flags fn _

namespace Steps

variable {C : {α : Type} → StateM State α → Prop} (h : s.Steps C)
  (hobject : ∀ d, s.program.GivesObject d →
    C (State.changeVariable d fun v => { v with objectLiteral := true }))

include h

/-- What follows on the variable of a node may rely on where it is declared. -/
theorem variableOf?_bind {α : Type} (id : NodeId) {f : Option Variable → StateM State α}
    (hnone : C (f none))
    (hsome : ∀ v : Variable, s.program.declaration id = some v.decl → C (f (some v))) :
    C (s.variableOf? id >>= f) := by
  refine h.read (f := fun st => f ((st.view s).variableOf? id)) fun st => ?_
  cases hfound : (st.view s).variableOf? id with
  | none => exact hnone
  | some v =>
    obtain ⟨decl, hdecl, hfind⟩ := Option.bind_eq_some_iff.mp hfound
    have hv : v.decl = decl := by simpa using List.find?_some hfind
    exact hsome v (hv ▸ hdecl)

include hobject

/-- A node is collected in steps of a class that may mark those variables that are given object literals.
-/
theorem collectNode_given {n : Node} (hn : n ∈ s.program.nodes.toList) : C (s.collectNode n) := by
  -- A value may be noted for the variable that the node gives it to.
  have hvalue {v : Variable} {value : NodeId} (hgives : n.Gives s.program v.decl value) :
      C (s.addValue v value) :=
    h.addValue v value fun literal hliteral hkind =>
      hobject v.decl ⟨n, hn, value, hgives, literal, hliteral, hkind⟩
  rw [Subject.collectNode]
  split
  · exact h.note _ _
  · split
    · next hkind =>
      refine h.variableOf?_bind n.id (h.pure ()) fun v hdecl => ?_
      cases hparent : s.program.at? n.parent with
      | none =>
        cases hexpr : n.expr with
        | none => exact h.pure ()
        | some value => exact hvalue (.initial hkind hdecl hexpr (by simp [hparent]))
      | some parent =>
        simp only
        split
        · exact h.addLoopValue v parent
        · next hloop =>
          cases hexpr : n.expr with
          | none => exact h.pure ()
          | some value => exact hvalue (.initial hkind hdecl hexpr (by simpa [hparent] using hloop))
    · next hkind =>
      refine h.read fun st => ?_
      cases hfind : st.vars.find? (·.decl = n.id) with
      | none => exact h.pure ()
      | some v =>
        have hv : v.decl = n.id := by simpa using List.find?_some hfind
        cases hexpr : n.expr with
        | none => exact h.pure ()
        | some value => exact hvalue (.default hkind hv.symm hexpr)
    · exact h.collectLoop n
    · exact h.collectLoop n
    · next hkind =>
      refine h.collectAssignment n fun hplain target htarget hname value hexpr => ?_
      refine h.variableOf?_bind target.id (h.pure ()) fun v hdecl => ?_
      exact hvalue (.assigned hkind hplain htarget hname hdecl hexpr)
    · exact h.collectCall n
    · exact h.collectReturn n
    · exact h.bind (h.derive "" n.id) fun _ => h.pure ()
    · exact h.bind (h.derive "" n.id) fun _ => h.pure ()
    · exact h.pure ()

/-- All nodes are collected in steps of such a class. -/
theorem collect_given (ns : List Node) (hns : ∀ n ∈ ns, n ∈ s.program.nodes.toList) :
    C (ns.forM s.collectNode) := by
  induction ns with
  | nil => exact h.pure ()
  | cons n ns ih =>
    obtain ⟨hn, hns⟩ := List.forall_mem_cons.mp hns
    exact h.bind (h.collectNode_given hobject hn) fun _ => ih hns

end Steps

/-- An object literal is noted only for a variable that is given one. -/
theorem givesObject_of_collect {v : Variable} (hv : v ∈ s.collect.vars)
    (hobject : v.objectLiteral = true) : s.program.GivesObject v.decl := by
  have hkeeps := (s.steps_flags fun d flag => flag = true → s.program.GivesObject d).collect_given
    (fun d hd => State.changeVariable_object fun _ => hd) s.program.nodes.toList (fun _ hn => hn)
  refine (hkeeps s.initialState fun v hv => ?_).1 v hv hobject
  obtain ⟨id, -, hid⟩ := List.mem_filterMap.mp hv
  obtain ⟨n, -, rfl⟩ := Option.map_eq_some_iff.mp hid
  exact fun hflag => by cases hflag

/-! ### Given literals are noted -/

section Given

variable {decl value : NodeId} {n literal : Node}

/-- No step of the walk takes the mark back. -/
theorem walks_flagged (s : Subject) (decl : NodeId) : s.Walks fun {α : Type} =>
    Keeps (State.Flags fun d flag => d = decl → flag = true) fun _ : α => True where
  toSteps := s.steps_flags _
  object _ := State.changeVariable_object fun _ => rfl

variable (hliteral : s.program.node? value = some literal) (hkind : literal.kind = .objectLiteral)

include hliteral hkind

/-- A value that is an object literal marks the variable that receives it. -/
theorem addValue_flags {v : Variable} (hv : v.decl = decl) :
    Leads (fun _ => True) (State.Flags fun d flag => d = decl → flag = true) (s.addValue v value) := by
  have hwalks := s.walks_flagged decl
  rw [addValue, hliteral]
  simp only [hkind, if_true]
  refine Leads.bind (R := fun _ => True) ?_ fun _ =>
    (hwalks.promiseMembers v.decl literal.items).bind fun _ _ => hwalks.value v.decl v.name value
  intro st _ v' hv' hdecl
  obtain ⟨u, -, rfl⟩ := List.mem_map.mp hv'
  by_cases hu : u.decl = v.decl
  · rw [if_pos hu]
  · rw [if_neg hu] at hdecl
    exact absurd (hdecl.trans hv.symm) hu

/-- Giving the literal to the variable that a node belongs to. -/
theorem variableOf?_flags {id : NodeId} (hdecl : s.program.declaration id = some decl) :
    Leads (fun _ => True) (State.Flags fun d flag => d = decl → flag = true) (do
      match ← s.variableOf? id with
      | none => Pure.pure ()
      | some v => s.addValue v value) := by
  intro st _
  rw [bind_apply]
  cases hfound : (st.view s).variableOf? id with
  | none =>
    have hnone := variableOf?_eq_none hdecl hfound
    have heq : s.variableOf? id st = (none, st) := Prod.ext hfound rfl
    rw [heq]
    exact fun v hv hsame => absurd hsame (hnone v hv)
  | some v =>
    have heq : s.variableOf? id st = (some v, st) := Prod.ext hfound rfl
    rw [heq]
    exact addValue_flags hliteral hkind (variableOf?_eq_some hdecl hfound) st trivial

/-- A node that gives an object literal to a variable marks it. -/
theorem collectNode_flags (hsupported : n.unsupported = false)
    (hgives : n.Gives s.program decl value) :
    Leads (fun _ => True) (State.Flags fun d flag => d = decl → flag = true) (s.collectNode n) := by
  rw [collectNode, hsupported]
  cases hgives with
  | initial hnode hdecl hvalue hloop =>
    have hgiven := variableOf?_flags hliteral hkind hdecl
    simp only [hnode, Bool.false_eq_true, if_false, collectDeclaration, hvalue]
    cases hparent : s.program.at? n.parent with
    | none => exact hgiven
    | some parent =>
      simp only [if_neg (hloop parent hparent)]
      exact hgiven
  | default hnode hdecl hvalue =>
    simp only [hnode, Bool.false_eq_true, if_false, collectParameter, hvalue]
    intro st _
    rw [get_bind_apply]
    cases hfind : st.vars.find? (·.decl = n.id) with
    | none =>
      intro v hv hsame
      exact absurd (hsame.trans hdecl.symm) (by simpa using List.find?_eq_none.mp hfind v hv)
    | some v =>
      have hv : v.decl = n.id := by simpa using List.find?_some hfind
      exact addValue_flags hliteral hkind (hv.trans hdecl) st trivial
  | assigned hnode hplain htarget hname hdecl hvalue =>
    simp only [hnode, Bool.false_eq_true, if_false, collectAssignment, hplain, ne_eq,
      not_true_eq_false, htarget, hvalue, hname]
    exact variableOf?_flags hliteral hkind hdecl

/-- After the walk a variable that is given an object literal is marked. -/
theorem collect_flagged (hn : n ∈ s.program.nodes.toList) (hsupported : n.unsupported = false)
    (hgives : n.Gives s.program decl value) :
    s.collect.Flags fun d flag => d = decl → flag = true :=
  collect_leads hn (fun _ _ _ => ⟨trivial, trivial⟩)
    (collectNode_flags hliteral hkind hsupported hgives) (s.walks_flagged decl).collectNodes trivial

end Given

/-- Variables are declared by nodes that are looked at. -/
theorem supported_of_decl (hp : s.program.Numbered) {v : Variable} (hv : v ∈ s.collect.vars) {n : Node}
    (hn : n ∈ s.program.nodes.toList) (hdecl : n.id = v.decl) : n.unsupported = false := by
  have hdecls := List.mem_map_of_mem (f := (·.decl)) hv
  rw [(collect_grown hp).decls] at hdecls
  obtain ⟨u, hu, hsame⟩ := List.mem_map.mp hdecls
  obtain ⟨id, hid, hnode⟩ := List.mem_filterMap.mp hu
  obtain ⟨_, -, rfl⟩ := Option.map_eq_some_iff.mp hnode
  obtain ⟨m, hm, rfl⟩ := List.mem_map.mp hid
  obtain ⟨hm, hdeclares⟩ := List.mem_filter.mp hm
  have heq : n = m := List.inj_on_of_nodup_map hp.nodup_map_id hn hm (hdecl.trans hsame.symm)
  simp only [decide_eq_true_eq, Bool.not_eq_true'] at hdeclares
  rw [heq]
  exact hdeclares.2.1

/-- The walk notes an object literal for the variables that are given one. -/
theorem collect_objectLiteral_iff {source : Source} {script : Script}
    (hscript : Program.ofScript source script = .ok s.program) {v : Variable}
    (hv : v ∈ s.collect.vars) : v.objectLiteral = true ↔ s.program.GivesObject v.decl := by
  refine ⟨givesObject_of_collect hv, ?_⟩
  rintro ⟨n, hn, value, hgives, literal, hliteral, hkind⟩
  have hsupported : n.unsupported = false := by
    cases hgives with
    | initial hnode => exact Program.supported_of_kind hscript hn (by simp [hnode])
    | default _ hdecl => exact supported_of_decl (Program.ofScript_numbered hscript) hv hn hdecl
    | assigned hnode => exact Program.supported_of_kind hscript hn (by simp [hnode])
  exact collect_flagged hliteral hkind hn hsupported hgives v hv rfl

end Subject

/-! ## Results -/

/-- The marks of a variable that is settled describe the evidence about it. -/
theorem Variable.Settled.eq_decided {v : Variable} {r : Registry} (h : v.Settled r)
    (hr : r.WellFormed) : v = v.decided (v.verdict r).1 := by
  have hcollapse := h r hr (le_refl r)
  rw [collapse_eq] at hcollapse
  exact (congrArg (·.1.1) hcollapse).symm

/-- The layout of a binding is the winner of its variable, the opaque pointer and missing layouts apart.
-/
theorem Variable.layout_binding_eq_iff {v : Variable} {p : Program} {l : Layout} (hpointer : l ≠ .pointer)
    (hmissing : l ≠ .missing) : (v.binding p).layout = l ↔ v.winner = l := by
  rw [binding]
  split
  · next hwinner =>
    rw [hwinner]
    exact ⟨fun h => absurd h.symm hpointer, fun h => absurd h.symm hmissing⟩
  · rfl

/-- Growing arrays and dictionaries require allocation, and nothing else does. -/
theorem Layout.requiresAllocation_iff {l : Layout} : l.requiresAllocation = true ↔
    (∃ elem, l = .dynamic elem) ∨ ∃ elem, l = .dict elem := by
  cases l <;> simp [requiresAllocation]

/-- A layout is a record if it is made from one. -/
theorem Layout.isRecord_iff {l : Layout} : l.isRecord = true ↔ ∃ id, l = .record id := by
  cases l <;> simp [isRecord]

/-- **Allocation follows from layouts.** In every run, cut off or not, the bindings that need allocation
are the growing arrays, the dictionaries, the universal values, and those records whose variable is
given an object literal; and a layout is universal exactly if two layouts with different keys count for
the variable in the end. -/
theorem infer_allocation_exact {source : Source} {script : Script} {p : Program}
    (hp : Program.ofScript source script = .ok p) {max : Int} {r : Result}
    (hr : infer p max = .ok r) {b : Binding} (hb : b ∈ r.bindings) :
    (b.needsAllocation = true ↔ (∃ elem, b.layout = .dynamic elem) ∨ (∃ elem, b.layout = .dict elem)
        ∨ b.layout = .universal ∨ (∃ id, b.layout = .record id) ∧ p.GivesObject b.decl)
      ∧ ∃ v ∈ r.state.vars, b = v.binding p
        ∧ (b.layout = .universal ↔ ∃ l ∈ v.surviving, ∃ l' ∈ v.surviving, l.key ≠ l'.key) := by
  set s := Subject.of p
  have hnumbered : s.program.Numbered := Program.ofScript_numbered hp
  obtain ⟨bound, rfl⟩ : ∃ bound, r = Result.ofOutcome s (s.resolve bound) :=
    ⟨_, (infer_eq_ok_iff.mp hr).1⟩
  obtain ⟨v, hv, rfl⟩ := List.mem_map.mp hb
  -- The verdict on the variable is that on its evidence, and the layouts in it are plain.
  obtain ⟨hregular, hsettled, -⟩ := Subject.resolve_ends hnumbered bound
  have hdecided := (hsettled v hv).eq_decided hregular.wellFormed.store.registry
  obtain ⟨hstore, hvars, -⟩ := Subject.resolve_obeys (s := s) Registry.plain_law bound
  have hcollected := Variable.survivors_keys (hvars v hv) hstore.registry
  have halloc := Variable.alloc_verdict_iff hcollected
  have huniversal := Variable.winner_verdict_eq_universal_iff hcollected
  have hwinner : (v.verdict (s.resolve bound).state.registry).1.winner = v.winner :=
    (congrArg (·.winner) hdecided).symm
  have hmark : (v.verdict (s.resolve bound).state.registry).1.alloc = v.alloc :=
    (congrArg (·.alloc) hdecided).symm
  rw [hwinner] at huniversal
  rw [hwinner, hmark] at halloc
  -- Passes leave the mark for object literals as the walk has set it.
  have hobject : v.objectLiteral = true ↔ p.GivesObject v.decl := by
    obtain ⟨u, hu, _, _, _, _, _, _, rfl⟩ := s.resolve_revises bound v hv
    exact Subject.collect_objectLiteral_iff hp hu
  rw [Layout.requiresAllocation_iff, Layout.isRecord_iff, hobject, or_assoc] at halloc
  refine ⟨?_, v, hv, rfl, ?_⟩
  · simp only [Variable.layout_binding_eq_iff, ne_eq, reduceCtorEq, not_false_eq_true,
      Layout.scalar.injEq]
    exact halloc
  · rw [Variable.layout_binding_eq_iff (by simp) (by simp)]
    exact huniversal

/-- `let a = []; a.push(1); let x = {q: 1}; let y = x; let z = 1; z = "s";` -/
def Script.mixedValues : Script :=
  ⟨[declares "a" (arrayOf []), pushes "a" (numberOf "1"),
    declares "x" (.object ⟨0, 0⟩ [memberOf "q" (numberOf "1")]), declares "y" (nameOf "x"),
    declares "z" (numberOf "1"), assigns (nameOf "z") (.string ⟨0, 0⟩ "s")]⟩

/-- The records of `x` and `y` are the same, but only `x` is given the object literal. -/
theorem infer_allocation_exact_mixedValues :
    ∃ r, infer Script.mixedValues.program 64 = .ok r
      ∧ (∃ b ∈ r.bindings, b.name = "a" ∧ (∃ elem, b.layout = .dynamic elem)
        ∧ b.needsAllocation = true)
      ∧ (∃ b ∈ r.bindings, b.name = "x" ∧ b.layout = .record 1 ∧ b.needsAllocation = true
        ∧ Script.mixedValues.program.GivesObject b.decl)
      ∧ (∃ b ∈ r.bindings, b.name = "y" ∧ b.layout = .record 1 ∧ b.needsAllocation = false
        ∧ ¬Script.mixedValues.program.GivesObject b.decl)
      ∧ ∃ b ∈ r.bindings, b.name = "z" ∧ b.layout = .universal
        ∧ ∃ v ∈ r.state.vars, ∃ l ∈ v.surviving, ∃ l' ∈ v.surviving, l.key ≠ l'.key := by
  have hscript := Script.ofScript_eq_ok Script.mixedValues (by decide +kernel)
  have hrun : infer Script.mixedValues.program 64 = .ok (runInference Script.mixedValues.program 64) :=
    infer_eq_ok_iff.mpr ⟨rfl, by decide +kernel⟩
  have hexact {b : Binding} (hb : b ∈ (runInference Script.mixedValues.program 64).bindings) :=
    infer_allocation_exact hscript hrun hb
  have ha : ∃ b ∈ (runInference Script.mixedValues.program 64).bindings,
      b.name = "a" ∧ b.layout = .dynamic .integer := by
    decide +kernel
  have hx : ∃ b ∈ (runInference Script.mixedValues.program 64).bindings,
      b.name = "x" ∧ b.layout = .record 1 ∧ b.needsAllocation = true := by
    decide +kernel
  have hy : ∃ b ∈ (runInference Script.mixedValues.program 64).bindings,
      b.name = "y" ∧ b.layout = .record 1 ∧ b.needsAllocation = false := by
    decide +kernel
  have hz : ∃ b ∈ (runInference Script.mixedValues.program 64).bindings,
      b.name = "z" ∧ b.layout = .universal := by
    decide +kernel
  obtain ⟨a, ha, haname, halayout⟩ := ha
  obtain ⟨x, hx, hxname, hxlayout, hxmark⟩ := hx
  obtain ⟨y, hy, hyname, hylayout, hymark⟩ := hy
  obtain ⟨z, hz, hzname, hzlayout⟩ := hz
  refine ⟨_, hrun, ⟨a, ha, haname, ⟨_, halayout⟩, ?_⟩, ⟨x, hx, hxname, hxlayout, hxmark, ?_⟩,
    ⟨y, hy, hyname, hylayout, hymark, fun hgives => ?_⟩, z, hz, hzname, hzlayout, ?_⟩
  · exact (hexact ha).1.mpr (.inl ⟨_, halayout⟩)
  · simpa [hxlayout] using (hexact hx).1.mp hxmark
  · have hmark := (hexact hy).1.mpr (.inr (.inr (.inr ⟨⟨1, hylayout⟩, hgives⟩)))
    rw [hymark] at hmark
    cases hmark
  · obtain ⟨-, v, hv, -, hseveral⟩ := hexact hz
    exact ⟨v, hv, hseveral.mp hzlayout⟩

/-- `function f(a, a = {}) {} let y = {q: 1}; f(y);` -/
def Script.repeatedParameter : Script :=
  ⟨[.function ⟨0, 0⟩ "f" [.mk (.name ⟨0, 0⟩ "a") none,
      .mk (.name ⟨0, 0⟩ "a") (some (.object ⟨0, 0⟩ []))] none (.mk ⟨0, 0⟩ []),
    declares "y" (.object ⟨0, 0⟩ [memberOf "q" (numberOf "1")]),
    .expression ⟨0, 0⟩ (.call ⟨0, 0⟩ (nameOf "f") [nameOf "y"])]⟩

/-- An object literal that is the default of a later parameter of the same name goes unnoticed: the
variable is a record, and the mark is missing. -/
theorem repeatedParameter_unmarked :
    ∃ r, infer Script.repeatedParameter.program 64 = .ok r
      ∧ ∃ b ∈ r.bindings, b.layout.isRecord = true ∧ b.needsAllocation = false
        ∧ ∃ n ∈ Script.repeatedParameter.program.nodes.toList, n.kind = .parameter
          ∧ Script.repeatedParameter.program.declaration n.id = some b.decl
          ∧ ∃ literal ∈ Script.repeatedParameter.program.at? n.expr, literal.kind = .objectLiteral := by
  have hrun : infer Script.repeatedParameter.program 64
      = .ok (runInference Script.repeatedParameter.program 64) :=
    infer_eq_ok_iff.mpr ⟨rfl, by decide +kernel⟩
  exact ⟨_, hrun, by decide +kernel⟩

end LayoutInference
