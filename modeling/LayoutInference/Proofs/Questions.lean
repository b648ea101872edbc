import Mathlib
import LayoutInference.Proofs.FinalNames
import LayoutInference.Proofs.LawfulRuns
import LayoutInference.Proofs.Literals

/-!
# Questions after a run

The layout of any node can be asked for after a run. An answer may take a record or an array of growing
length that no variable has, since only an apparent type mentions it. These are added to the registry
at its end; nothing else happens: `infer_questions_readOnly`.

The layouts of literals are there already (`Subject.collect_literals`), so no literal is derived and no
note added. What an apparent type is converted to has no other containers than arrays of growing
length, whose order its key shows (`Layout.Stacked.unmixed`), so that no request clashes.
-/

namespace LayoutInference

/-! ## Arrays of growing length -/

namespace Layout

/-- No growing array or dictionary stands outside of a fixed array. -/
def Flush (l : Layout) : Prop := l.outline.outer = []

/-- The key of a flush layout tells the order of its containers. -/
theorem Flush.unmixed {l : Layout} (h : l.Flush) : l.Unmixed := .inr h

/-- All containers of the layout are arrays of growing length. -/
def Stacked (l : Layout) : Prop := ∀ w ∈ l.spine, w = .dynamic

namespace Stacked

variable {l : Layout}

/-- A scalar is stacked. -/
theorem scalar (kind : Scalar) : Stacked (.scalar kind) := by simp [Stacked, spine]

/-- A record is stacked. -/
theorem record (id : RecordId) : Stacked (.record id) := by simp [Stacked, spine]

/-- A growing array of a stacked layout is stacked. -/
theorem dynamic (h : l.Stacked) : Stacked (.dynamic l) := List.forall_mem_cons.mpr ⟨rfl, h⟩

/-- A stacked layout is flush. -/
theorem flush (h : l.Stacked) : l.Flush := by
  have hspine : l.spine = (List.replicate l.spine.length Macro.array).map Outline.container := by
    rw [List.map_replicate]
    exact List.eq_replicate_of_mem h
  rw [Flush, outline, hspine, Outline.ofSpine_inner]

/-- The key of a stacked layout tells the order of its containers. -/
theorem unmixed (h : l.Stacked) : l.Unmixed := h.flush.unmixed

/-- The key of such a layout is that of no other containers. -/
theorem spine_eq (h : l.Stacked) {other : Layout} (hkey : other.key = l.key) :
    other.spine = l.spine :=
  (h.unmixed.alike hkey).1

end Stacked

end Layout

/-! ## What questions leave as it is -/

/-- The store `st` after questions that were put to `base`. -/
structure Store.Questioned (base st : Store) : Prop where
  literals : st.literals = base.literals
  diagnostics : st.diagnostics = base.diagnostics
  records : base.registry.records <+: st.registry.records
  clash : st.registry.clash = none
  keyed : ∀ key l, st.registry.containers.lookup key = some l → l.key = key

namespace Store

variable {base : Store}

/-- Registering a record does no more to a store than a question may. -/
theorem register_questioned (hint : String) (fields : List Field) :
    Keeps base.Questioned (fun _ => True) (withRegistry (·.register hint fields)) := by
  refine fun st hst => ⟨?_, trivial⟩
  show base.Questioned { st with registry := (st.registry.register hint fields).2 }
  rcases st.registry.register_cases hint fields with ⟨id, -, heq⟩ | ⟨-, heq⟩
  · rwa [heq]
  · rw [heq]
    exact ⟨hst.literals, hst.diagnostics, hst.records.trans (List.prefix_append _ _), hst.clash,
      hst.keyed⟩

/-- A request for a growing array of stacked elements does no more to a store than a question may. -/
theorem dynamicArray_questioned {elem : Layout} (helem : elem.Stacked) :
    Keeps base.Questioned Layout.Stacked (withRegistry (·.dynamicArray elem)) := by
  intro st hst
  have hstacked := helem.dynamic
  show base.Questioned { st with registry := (st.registry.intern (.dynamic elem)).2 }
    ∧ Layout.Stacked (st.registry.intern (.dynamic elem)).1
  rcases st.registry.intern_cases (.dynamic elem) with
    ⟨-, heq⟩ | ⟨kept, hkept, -, heq⟩ | ⟨⟨kept, hkept, hkind⟩, -⟩
  · rw [heq]
    exact ⟨⟨hst.literals, hst.diagnostics, hst.records, hst.clash, forall_lookup_cons hst.keyed rfl⟩,
      hstacked⟩
  · rw [heq, Layout.Stacked, hstacked.spine_eq (hst.keyed _ _ hkept)]
    exact ⟨hst, hstacked⟩
  · refine absurd ?_ hkind
    rw [Layout.container?_eq, hstacked.spine_eq (hst.keyed _ _ hkept), ← Layout.container?_eq]

end Store

namespace Subject

variable {s : Subject} {base : Store}

/-- The layouts of all literals are kept. -/
def Stocked (s : Subject) (st : Store) : Prop :=
  ∀ id n, s.program.node? id = some n → n.isCollection = true →
    id = n.id ∧ ∃ l, st.literals.lookup n.id = some l

/-- Literals are found where they were kept. -/
theorem Stocked.keepsLiterals (hbase : s.Stocked base) {I : Store → Prop}
    (hI : ∀ st, I st → st.literals = base.literals) :
    s.KeepsLiterals I (fun _ => True) s.deriveAny := by
  intro hint id n hn hcollection st hst
  obtain ⟨-, l, hl⟩ := hbase id n hn hcollection
  rw [deriveAny, deriveLiteral_of_lookup s (hI st hst ▸ hl)]
  exact ⟨hst, trivial⟩

/-- Converting types does no more to a store than a question may. -/
theorem converts_questioned (s : Subject) (base : Store) : s.Converts (fun _ => True) (fun _ => True)
    base.Questioned Layout.Stacked fun _ => True where
  toTyped := s.typed_true
  scalar _ := .scalar _
  record id := .record id
  weaken _ := trivial
  register hint fields _ _ := Store.register_questioned hint fields
  dynamic helem := Store.dynamicArray_questioned helem

end Subject

namespace View

variable {v : View} {base : Store} (hbase : v.Stocked base)

include hbase

/-- Where all literals are kept, none is derived for an answer. -/
theorem answers_stocked {I : Store → Prop} (hI : ∀ st, I st → st.literals = base.literals)
    (hquiet : ∀ id, Keeps I (fun _ => True) (v.quietLayout id)) : v.Answers I fun _ => True := by
  refine answers_true hquiet fun id n hn hcollection => ?_
  obtain ⟨rfl, l, hl⟩ := hbase id n hn hcollection
  refine .read fun st hst => ?_
  rw [hI st hst, hl]
  exact .pure trivial

/-- Questions about current layouts leave what was there as it was. -/
theorem answers_questioned : v.Answers base.Questioned fun _ => True := by
  have hliterals (st : Store) (hst : base.Questioned st) : st.literals = base.literals := hst.literals
  refine answers_stocked hbase hliterals fun id => ?_
  exact ((v.converts_questioned base).convert (hbase.keepsLiterals hliterals) "" _ trivial).imp
    fun _ _ => trivial

end View

/-! ## Written forms -/

/-- A layout is written alike under names that agree on its record. -/
theorem Layout.declarator_congr {l : Layout} {name name' : RecordId → String}
    (h : ∀ id, l.recordId? = some id → name id = name' id) :
    l.declarator name = l.declarator name' := by
  induction l with
  | missing | scalar => rfl
  | record id => rw [declarator, declarator, h id rfl]
  | fixed elem _ ih | dynamic elem ih | dict elem ih => rw [declarator, declarator, ih h]

/-- Records that come after do not change how a layout is written. -/
theorem Registry.text_of_isPrefix {r r' : Registry} (h : r.records <+: r'.records) {l : Layout}
    (hl : r.Knows l) : r'.text l = r.text l := by
  refine congrArg Declarator.text (Layout.declarator_congr fun id hid => ?_)
  obtain ⟨added, hadded⟩ := h
  obtain ⟨record, hrecord, heq⟩ := List.mem_map.mp (hl id hid)
  have hfound : (r.record? id).isSome := List.find?_isSome.mpr ⟨record, hrecord, by simpa using heq⟩
  rw [recordName, recordName, record?, ← hadded, List.find?_append, ← record?,
    Option.or_of_isSome hfound]

/-! ## Series of questions -/

namespace View

variable {v : View} {st : Store}

/-- What the answers to questions are in a store: their records are registered, and the same
questions have the same answers in every later store and leave it as it is. -/
def Stable (v : View) (ids : List NodeId) (answers : List Layout) (st : Store) : Prop :=
  List.Forall₂ (fun id l => st.registry.Knows l
    ∧ ∀ later, later.WellFormed → st ≤ later → v.layoutOf id later = (l, later)) ids answers

/-- Answers that are stable stay so in a later store. -/
theorem Stable.mono {ids : List NodeId} {answers : List Layout} (h : v.Stable ids answers st)
    {later : Store} (hle : st ≤ later) : v.Stable ids answers later :=
  h.imp fun _ _ ⟨hl, hagain⟩ =>
    ⟨hl.mono hle.registry, fun last hlast hle' => hagain last hlast (hle.trans hle')⟩

/-- Questions one after the other have stable answers. -/
theorem mapM_layoutOf_runs (hp : v.program.Numbered) (ids : List NodeId) (hst : st.WellFormed)
    (hv : v.Known st) : Runs True (v.Stable ids) (ids.mapM v.layoutOf) st := by
  induction ids generalizing st with
  | nil =>
    rw [List.mapM_nil]
    exact .pure hst .nil
  | cons id ids ih =>
    rw [List.mapM_cons]
    have hid := layoutOf_runs hp id hst hv
    have hfirst : Runs True (fun l st => v.Stable [id] [l] st) (v.layoutOf id) st :=
      hid.imp fun hl => .cons ⟨hl, hid.repeats trivial⟩ .nil
    refine hfirst.bind fun l st' hst' hle hl => ?_
    refine (ih hst' (hv.mono hle)).bind fun ls st'' hst'' hle' hls => .pure hst'' ?_
    exact .cons (List.forall₂_cons.mp (hl.mono hle')).1 hls

end View

namespace Result

/-- The result with another store behind it. -/
def withStore (r : Result) (store : Store) : Result := { r with state := r.state.withOther store }

/-- Ask for the layout of a node. -/
def ask (id : NodeId) : StateM Result Layout := fun r =>
  let (l, store) := r.layoutOf id r.state.toStore
  (l, r.withStore store)

/-- Ask for the layouts of several nodes, one after the other. -/
def askAll (ids : List NodeId) : StateM Result (List Layout) := ids.mapM ask

/-- A question reads nothing of the result but its store that an earlier one could change. -/
theorem askAll_withStore (ids : List NodeId) (r : Result) (store : Store) :
    askAll ids (r.withStore store)
      = ((ids.mapM r.layoutOf store).1, r.withStore (ids.mapM r.layoutOf store).2) := by
  induction ids generalizing store with
  | nil => rfl
  | cons id ids ih =>
    rw [askAll, List.mapM_cons, List.mapM_cons]
    have hrest := ih (r.layoutOf id store).2
    show (((r.layoutOf id store).1 :: (askAll ids (r.withStore (r.layoutOf id store).2)).1),
      (askAll ids (r.withStore (r.layoutOf id store).2)).2) = _
    rw [hrest]
    rfl

/-- Questions to a result are questions to its store, and leave the rest of it alone. -/
theorem askAll_eq (ids : List NodeId) (r : Result) :
    askAll ids r = ((ids.mapM r.layoutOf r.state.toStore).1,
      r.withStore (ids.mapM r.layoutOf r.state.toStore).2) :=
  askAll_withStore ids r r.state.toStore

variable {r : Result}

/-- All that questions change is the registry. -/
theorem withStore_eq {store : Store} (h : r.state.toStore.Questioned store) :
    r.withStore store = { r with state := { r.state with registry := store.registry } } := by
  obtain ⟨registry, literals, diagnostics⟩ := store
  obtain rfl := h.literals
  obtain rfl := h.diagnostics
  rfl

/-- What a result is like to which questions may be put. -/
structure Ready (r : Result) : Prop where
  numbered : r.subject.program.Numbered
  wellFormed : r.state.WellFormed
  stocked : r.subject.Stocked r.state.toStore
  questioned : r.state.toStore.Questioned r.state.toStore

/-- What questions to a result `r` with these answers lead to: a result that differs in its store
alone, is ready for more questions, and answers the same ones in the same way. -/
structure Asked (r : Result) (ids : List NodeId) (answers : List Layout) (r' : Result) : Prop where
  ready : r'.Ready
  same : r' = r.withStore r'.state.toStore
  grows : r.state.toStore ≤ r'.state.toStore
  questioned : r.state.toStore.Questioned r'.state.toStore
  stable : (r.state.view r.subject).Stable ids answers r'.state.toStore

/-- A result that is ready can be asked any questions. -/
theorem Ready.asked (h : r.Ready) (ids : List NodeId) :
    r.Asked ids (askAll ids r).1 (askAll ids r).2 := by
  rw [askAll_eq]
  have hruns := View.mapM_layoutOf_runs (v := r.state.view r.subject) h.numbered ids
    h.wellFormed.store (Subject.view_known h.wellFormed)
  have hanswers := View.answers_questioned (v := r.state.view r.subject) h.stocked
  have hquestioned := (Keeps.mapM (fun id (_ : id ∈ ids) => hanswers.layoutOf id) r.state.toStore
    h.questioned).1
  refine ⟨⟨h.numbered, ⟨hruns.sound, fun v hv => ?_, fun f hf => ?_⟩, ?_, ?_⟩, rfl, hruns.grows,
    hquestioned, hruns.holds⟩
  · exact (h.wellFormed.vars v hv).mono hruns.grows.registry
  · exact (h.wellFormed.routines f hf).mono hruns.grows.registry
  · intro id n hn hcollection
    obtain ⟨hid, l, hl⟩ := h.stocked id n hn hcollection
    exact ⟨hid, l, hruns.grows.literals _ _ hl⟩
  · exact ⟨rfl, rfl, List.prefix_refl _, hquestioned.clash, hquestioned.keyed⟩

variable {r₁ r₂ : Result} {earlier later : List NodeId} {answers others : List Layout}

/-- The records of the answers are registered. -/
theorem Asked.knows (h : r.Asked earlier answers r₁) {l : Layout} (hl : l ∈ answers) :
    r₁.state.registry.Knows l := by
  obtain ⟨id, -, hknows, -⟩ := exists_of_mem_right h.stable hl
  exact hknows

/-- After two series of questions a result differs in its registry alone. -/
theorem Asked.unchanged (h₁ : r.Asked earlier answers r₁) (h₂ : r₁.Asked later others r₂) :
    ∃ registry, r₂ = { r with state := { r.state with registry } } := by
  have hquestioned : r.state.toStore.Questioned r₂.state.toStore :=
    ⟨h₂.questioned.literals.trans h₁.questioned.literals,
      h₂.questioned.diagnostics.trans h₁.questioned.diagnostics,
      h₁.questioned.records.trans h₂.questioned.records, h₂.questioned.clash, h₂.questioned.keyed⟩
  have hsame : r₂ = r.withStore r₂.state.toStore :=
    calc r₂ = r₁.withStore r₂.state.toStore := h₂.same
      _ = (r.withStore r₁.state.toStore).withStore r₂.state.toStore :=
        congrArg (withStore · r₂.state.toStore) h₁.same
  exact ⟨_, hsame.trans (withStore_eq hquestioned)⟩

/-- Questions that were answered have the same answers after others. -/
theorem Asked.again (h₁ : r.Asked earlier answers r₁) (h₂ : r₁.Asked later others r₂) :
    List.Forall₂ (fun id l => ask id r₂ = (l, r₂)) earlier answers := by
  refine (h₁.stable.mono h₂.grows).imp fun id l ⟨_, hagain⟩ => ?_
  obtain ⟨registry, rfl⟩ := h₁.unchanged h₂
  have hanswer := hagain _ h₂.ready.wellFormed.store (le_refl _)
  exact congrArg (fun answer : Layout × Store =>
    (answer.1, withStore { r with state := { r.state with registry } } answer.2)) hanswer

end Result

/-! ## Finished runs -/

namespace Result

variable {s : Subject}

/-- A finished run without a clash is ready for questions. -/
theorem ready_ofOutcome {source : Source} {script : Script}
    (hscript : Program.ofScript source script = .ok s.program) {bound : Nat}
    (hclash : (ofOutcome s (s.resolve bound)).state.registry.clash = none) :
    (ofOutcome s (s.resolve bound)).Ready := by
  have hp := Program.ofScript_numbered hscript
  have hplain := (finalState_obeys Registry.plain_law s bound).store.registry
  refine ⟨hp, (finalState_regular hp bound).wellFormed, fun id n hn hcollection => ?_, ?_⟩
  · obtain ⟨l, hl⟩ := Subject.collect_literals hscript (Program.mem_nodes hn) hcollection
    exact ⟨(hp.id_eq hn).symm, l, finalStore_literals hp bound hl⟩
  · exact ⟨rfl, rfl, List.prefix_refl _, hclash, fun key l hl => (hplain.containers key l hl).2⟩

/-- The records of what a result mentions are registered. -/
theorem knows_mentioned {outcome : Subject.Outcome} (h : outcome.state.WellFormed) {l : Layout}
    (hl : l ∈ (ofOutcome s outcome).mentioned) :
    (ofOutcome s outcome).state.registry.Knows l :=
  ((within_of_mentioned h hl).knows h.store.registry (knows_roots h)).mono
    (le_finalStore s outcome).registry

end Result

/-- **Asking is reading.** After a run, converged or cut off, let any nodes be asked for, `earlier`
first and `later` afterwards. All that differs is the registry, and it has more records at its end and
no clash. Whatever the result mentions and whatever was answered is written as it was before, and each
of the earlier questions has the same answer again. -/
theorem infer_questions_readOnly {source : Source} {script : Script} {p : Program}
    (hp : Program.ofScript source script = .ok p) {max : Int} {r : Result}
    (hr : infer p max = .ok r) (earlier later : List NodeId) :
    let (answers, r₁) := Result.askAll earlier r
    let (_, r₂) := Result.askAll later r₁
    (∃ registry, r₂ = { r with state := { r.state with registry } })
      ∧ r₁.state.registry.records <+: r₂.state.registry.records
      ∧ r₂.state.registry.clash = none
      ∧ (∀ l ∈ r.mentioned ++ answers, r₂.state.registry.text l = r₁.state.registry.text l)
      ∧ List.Forall₂ (fun id l => Result.ask id r₂ = (l, r₂)) earlier answers := by
  obtain ⟨hrun, hclash⟩ := infer_eq_ok_iff.mp hr
  obtain ⟨bound, hbound⟩ : ∃ bound, runInference p max
      = Result.ofOutcome (Subject.of p) ((Subject.of p).resolve bound) := ⟨_, rfl⟩
  rw [hbound] at hrun hclash
  have hready : r.Ready := hrun ▸ Result.ready_ofOutcome hp hclash
  have hmentioned : ∀ l ∈ r.mentioned, r.state.registry.Knows l := by
    rw [hrun]
    exact fun l => Result.knows_mentioned
      (Subject.resolve_ends (Program.ofScript_numbered hp) bound).1.wellFormed
  have h₁ := hready.asked earlier
  have h₂ := h₁.ready.asked later
  refine ⟨h₁.unchanged h₂, h₂.questioned.records, h₂.questioned.clash, fun l hl => ?_, h₁.again h₂⟩
  refine Registry.text_of_isPrefix h₂.questioned.records ?_
  rcases List.mem_append.mp hl with hl | hl
  -- What the result mentions was known before the questions, and what was answered is known since.
  · exact (hmentioned l hl).mono h₁.grows.registry
  · exact h₁.knows hl

/-- `let x = [1]; true ? {a: x} : {a: x};` -/
def Script.choiceOfRecords : Script :=
  ⟨[declares "x" (arrayOf [numberOf "1"]),
    .expression ⟨0, 0⟩ (.conditional ⟨0, 0⟩ (.boolean ⟨0, 0⟩ true)
      (.object ⟨0, 0⟩ [memberOf "a" (nameOf "x")]) (.object ⟨0, 0⟩ [memberOf "a" (nameOf "x")]))]⟩

/-- The property of the literal at node 9 is not known. Asking for the choice at node 7 makes a record
with an array in it, and the literal keeps its own. -/
theorem infer_questions_readOnly_choiceOfRecords :
    ∃ r, infer Script.choiceOfRecords.program 64 = .ok r
      ∧ (Result.askAll [9] r).1 = [.record 1]
      ∧ (Result.askAll [7, 99] (Result.askAll [9] r).2).1 = [.record 2, .missing]
      ∧ (Result.ask 9 (Result.askAll [7, 99] (Result.askAll [9] r).2).2).1 = .record 1 := by
  have hscript := Script.ofScript_eq_ok Script.choiceOfRecords (by decide +kernel)
  obtain ⟨r, hr⟩ : ∃ r, r = runInference Script.choiceOfRecords.program 64 := ⟨_, rfl⟩
  have hrun : infer Script.choiceOfRecords.program 64 = .ok r :=
    infer_eq_ok_iff.mpr ⟨hr, by decide +kernel⟩
  have hearlier : (Result.askAll [9] r).1 = [.record 1] := by
    rw [hr]
    cbv
  have hlater : (Result.askAll [7, 99] (Result.askAll [9] r).2).1 = [.record 2, .missing] := by
    rw [hr]
    cbv
  have hagain := (infer_questions_readOnly hscript hrun [9] [7, 99]).2.2.2.2
  change List.Forall₂ _ [9] (Result.askAll [9] r).1 at hagain
  rw [hearlier] at hagain
  exact ⟨r, hrun, hearlier, hlater, congrArg Prod.fst (List.forall₂_cons.mp hagain).1⟩

end LayoutInference
