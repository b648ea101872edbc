import Mathlib
import LayoutInference.Inference.Resolution
import LayoutInference.Proofs.Derivation
import LayoutInference.Proofs.Walk

/-!
# What the walk over a program keeps

Evidence speaks of records by number. This module shows that all records it speaks of are registered,
whatever the program, and that the walk which collects evidence neither adds nor drops a variable or a
function: `Subject.collect_wellFormed` and `Subject.collect_grown`.

A state grows when its store does and its variables and functions stay the same ones, so the steps of
the walk are composed by `Runs.bind` like the steps of derivation; `Subject.walks_collects` has one proof
for each kind of step.
-/

namespace LayoutInference

open Store (Known)

/-! ## Evidence about known records -/

namespace Variable

/-- All records that the evidence about a variable speaks of are registered. -/
structure Known (r : Registry) (v : Variable) : Prop where
  candidates : ∀ l ∈ v.candidates, r.Knows l
  added : ∀ a ∈ v.added, r.Knows a.layout
  winner : r.Knows v.winner

namespace Known

variable {r : Registry} {v : Variable}

/-- What is known stays known as records are added. -/
theorem mono (hv : v.Known r) {r' : Registry} (h : r ≤ r') : v.Known r' where
  candidates l hl := (hv.candidates l hl).mono h
  added a ha := (hv.added a ha).mono h
  winner := hv.winner.mono h

/-- A known layout may be put among the candidates. -/
theorem addCandidate (hv : v.Known r) {l : Layout} (hl : r.Knows l) : (v.addCandidate l).Known r := by
  rw [Variable.addCandidate]
  split
  · refine ⟨fun l' hl' => ?_, hv.added, hv.winner⟩
    rcases List.mem_append.mp hl' with hl' | hl'
    · exact hv.candidates l' hl'
    · rwa [List.mem_singleton.mp hl']
  · exact hv

/-- Promises speak of no record. -/
theorem addPromise (hv : v.Known r) (p : Promise) : (v.addPromise p).Known r :=
  ⟨hv.candidates, hv.added, hv.winner⟩

/-- Changing the property of a name, or adding it, keeps what holds of all properties. -/
theorem forall_mem_update {P : Added → Prop} {name : String} {change : Added → Added} {fresh : Added}
    {added : List Added} (h : ∀ a ∈ added, P a) (hchange : ∀ a, P a → P (change a))
    (hfresh : P fresh) : ∀ a ∈ Added.update name change fresh added, P a := by
  induction added with
  | nil => simpa [Added.update] using hfresh
  | cons a as ih =>
    obtain ⟨ha, has⟩ := List.forall_mem_cons.mp h
    rw [Added.update]
    split
    · exact List.forall_mem_cons.mpr ⟨hchange a ha, has⟩
    · exact List.forall_mem_cons.mpr ⟨ha, ih has⟩

/-- A reserved property has no layout yet, so all records stay known. -/
theorem reserve (hv : v.Known r) (name : String) : (v.reserve name).Known r :=
  ⟨hv.candidates, forall_mem_update hv.added (fun _ h => h) (Registry.knows_missing r), hv.winner⟩

/-- Writing the owner to a property marks it or makes it universal, so all records stay known. -/
theorem writeSelf (hv : v.Known r) (name : String) : (v.writeSelf name).Known r := by
  refine ⟨hv.candidates, forall_mem_update hv.added ?_ (Registry.knows_missing r), hv.winner⟩
  intro a ha
  unfold Added.writeSelf
  split
  · exact ha
  · exact Registry.knows_scalar r _

/-- A property may be written with a known layout. -/
theorem write (hv : v.Known r) (name : String) {l : Layout} (hl : r.Knows l) :
    (v.write name l).Known r := by
  refine ⟨hv.candidates, forall_mem_update hv.added ?_ hl, hv.winner⟩
  intro a ha
  have huniversal : r.Knows .universal := Registry.knows_scalar r _
  unfold Added.write
  repeat' split
  all_goals assumption

/-- A dictionary speaks of no records but those it was made from. -/
theorem makeDictionary (hv : v.Known r) : v.makeDictionary.Known r := by
  rw [Variable.makeDictionary]
  split
  · exact hv
  · refine ⟨fun l hl => hv.candidates l (List.mem_of_mem_filter hl), ?_, hv.winner⟩
    exact fun a ha => absurd ha (by simp)

end Known

@[simp] theorem decl_addCandidate (v : Variable) (l : Layout) : (v.addCandidate l).decl = v.decl := by
  rw [addCandidate]
  split <;> rfl

@[simp] theorem decl_makeDictionary (v : Variable) : v.makeDictionary.decl = v.decl := by
  rw [makeDictionary]
  split <;> rfl

/-- The variable `v'` is `v` with other evidence about known records. -/
structure Updates (v v' : Variable) (r : Registry) : Prop where
  decl : v'.decl = v.decl
  known : v'.Known r

/-- Refining a candidate by a known layout gives a known layout. -/
theorem refineCandidate_runs {r : Registry} (hr : r.WellFormed) {l c : Layout} (hl : r.Knows l)
    (hc : r.Knows c) (again : Prop) :
    Runs again (fun a r' => r'.Knows a.1) (fun r => refineCandidate l r c) r := by
  cases c with
  | fixed elem capacity =>
    by_cases helem : elem.isFallback = true
    · by_cases hcapacity : capacity = 0
      · simp only [refineCandidate, helem, hcapacity, if_true]
        exact (Registry.dynamicArray_runs hr hl again).map (·, true) fun _ _ h => h
      · simp only [refineCandidate, helem, hcapacity, if_true, if_false]
        exact (Registry.fixedArray_runs hr hl capacity again).map (·, true) fun _ _ h => h
    · simp only [refineCandidate, if_neg helem]
      exact .pure hr hc
  | dynamic elem =>
    by_cases helem : elem.isFallback = true
    · simp only [refineCandidate, helem, if_true]
      exact (Registry.dynamicArray_runs hr hl again).map (·, true) fun _ _ h => h
    · simp only [refineCandidate, if_neg helem]
      exact .pure hr hc
  | missing | scalar | dict | record => exact .pure hr hc

/-- Refining the candidates by a known layout gives known layouts. -/
theorem refineCandidates_runs {r : Registry} (hr : r.WellFormed) {l : Layout} (hl : r.Knows l)
    {cs : List Layout} (hcs : ∀ c ∈ cs, r.Knows c) (again : Prop) :
    Runs again (fun a r' => ∀ c ∈ a.1, r'.Knows c) (fun r => refineCandidates l r cs) r := by
  induction cs generalizing r with
  | nil => exact .pure hr (by simp)
  | cons c cs ih =>
    obtain ⟨hc, hcs⟩ := List.forall_mem_cons.mp hcs
    refine (refineCandidate_runs hr hl hc again).bind (f := fun first r =>
      (((first.1 :: (refineCandidates l r cs).1.1, first.2 || (refineCandidates l r cs).1.2)),
        (refineCandidates l r cs).2)) ?_
    intro first r' hr' hle hfirst
    refine ((ih hr' (hl.mono hle) fun c hc => (hcs c hc).mono hle).bind
      (f := fun rest => pure (first.1 :: rest.1, first.2 || rest.2)) ?_)
    intro rest r'' hr'' hle' hrest
    exact .pure hr'' (List.forall_mem_cons.mpr ⟨hfirst.mono hle', hrest⟩)

/-- Refining the elements of a variable updates its evidence. -/
theorem refineElements_runs {r : Registry} (hr : r.WellFormed) {v : Variable} (hv : v.Known r)
    {l : Layout} (hl : r.Knows l) (again : Prop) :
    Runs again (fun a r' => v.Updates a.1 r') (v.refineElements l) r := by
  unfold refineElements
  split
  · exact .pure hr ⟨rfl, hv⟩
  · refine (refineCandidates_runs hr hl hv.candidates again).bind
      (f := fun a => pure ({ v with candidates := a.1 }, a.2)) ?_
    intro a r' hr' hle ha
    exact .pure hr' ⟨rfl, ha, (hv.mono hle).added, (hv.mono hle).winner⟩

/-- Appending a layout to distinct ones adds that layout at most. -/
theorem mem_appendDistinct {layouts : List Layout} {l l' : Layout}
    (h : l' ∈ appendDistinct layouts l) : l' ∈ layouts ∨ l' = l := by
  rw [appendDistinct] at h
  split at h
  · exact .inl h
  · simpa using h

/-- Appending layouts to distinct ones adds no others. -/
theorem mem_foldl_appendDistinct {layouts kept : List Layout} {l : Layout}
    (h : l ∈ layouts.foldl appendDistinct kept) : l ∈ kept ∨ l ∈ layouts := by
  induction layouts generalizing kept with
  | nil => exact .inl h
  | cons c cs ih =>
    rcases ih h with h | h
    · rcases mem_appendDistinct h with h | rfl
      · exact .inl h
      · exact .inr (List.mem_cons_self ..)
    · exact .inr (List.mem_cons_of_mem c h)

/-- The distinct layouts of a list stand in the list. -/
theorem mem_distinct {layouts : List Layout} {l : Layout} (h : l ∈ distinct layouts) :
    l ∈ layouts := by
  rcases mem_foldl_appendDistinct h with h | h
  · exact absurd h (by simp)
  · exact h

/-- Noting a pushed element updates the evidence about the variable. -/
theorem addPushed_runs {r : Registry} (hr : r.WellFormed) {v : Variable} (hv : v.Known r)
    {l : Layout} (hl : r.Knows l) (again : Prop) :
    Runs again (fun v' r' => v.Updates v' r') (v.addPushed l) r := by
  unfold addPushed
  by_cases hany : v.candidates.any (promotes l) = true
  · simp only [if_pos hany]
    refine (Registry.dynamicArray_runs hr hl again).bind (f := fun array => pure { v with
      candidates := distinct (v.candidates.map fun c => if promotes l c then array else c) }) ?_
    intro array r' hr' hle harray
    refine .pure hr' ⟨rfl, fun c hc => ?_, (hv.mono hle).added, (hv.mono hle).winner⟩
    obtain ⟨c', hc', rfl⟩ := List.mem_map.mp (mem_distinct hc)
    split
    · exact harray
    · exact (hv.mono hle).candidates c' hc'
  · simp only [if_neg hany]
    refine (Registry.dynamicArray_runs hr hl again).bind (f := fun array => pure
      (v.addCandidate array)) ?_
    intro array r' hr' hle harray
    exact .pure hr' ⟨v.decl_addCandidate array, (hv.mono hle).addCandidate harray⟩

end Variable

namespace Slot

/-- The record that a slot speaks of is registered. -/
def Known (r : Registry) (slot : Slot) : Prop := r.Knows slot.layout

end Slot

namespace Routine

/-- All records that the evidence about a function speaks of are registered. -/
structure Known (r : Registry) (routine : Routine) : Prop where
  args : ∀ slot ∈ routine.args, slot.Known r
  ret : r.Knows routine.ret

/-- What is known about a function stays known as records are added. -/
theorem Known.mono {r r' : Registry} {routine : Routine} (h : routine.Known r) (hle : r ≤ r') :
    routine.Known r' :=
  ⟨fun slot hslot => Registry.Knows.mono hle (h.args slot hslot), h.ret.mono hle⟩

end Routine

/-! ## States -/

namespace State

/-- What holds of every state. -/
structure WellFormed (st : State) : Prop where
  store : st.toStore.WellFormed
  vars : ∀ v ∈ st.vars, v.Known st.registry
  routines : ∀ r ∈ st.routines, r.Known st.registry

/-- `Grown st st'`: the state `st'` has the store of `st`, or more, and the same variables and
functions, with other evidence about them. -/
structure Grown (st st' : State) : Prop where
  store : st.toStore ≤ st'.toStore
  decls : st'.vars.map (·.decl) = st.vars.map (·.decl)
  nodes : st'.routines.map (·.node) = st.routines.map (·.node)

instance : Ledger State where
  le := Grown
  le_refl st := ⟨le_refl st.toStore, rfl, rfl⟩
  le_trans _ _ _ h h' := ⟨h.store.trans h'.store, h'.decls.trans h.decls, h'.nodes.trans h.nodes⟩
  Sound := WellFormed

variable {st : State} (hst : st.WellFormed)

include hst

/-- A step of derivation leaves the evidence as it is. -/
theorem withStore_runs {α : Type} {Q : α → Store → Prop} {step : StateM Store α} {again : Prop}
    (h : Runs again Q step st.toStore) :
    Runs again (fun a st' => Q a st'.toStore) (withStore step) st where
  sound := ⟨h.sound, fun v hv => (hst.vars v hv).mono h.grows.registry,
    fun r hr => (hst.routines r hr).mono h.grows.registry⟩
  grows := ⟨h.grows, rfl, rfl⟩
  holds := h.holds
  repeats ha st' hst' hle := by
    have hagain := h.repeats ha st'.toStore hst'.store hle.store
    show ((step st'.toStore).1, { st' with toStore := (step st'.toStore).2 }) = _
    rw [hagain]
    rfl

/-- A change that updates the variable of a declaration is a step of the walk. -/
theorem changeVariable_runs {decl : NodeId} {change : Variable → Variable}
    (hchange : ∀ v ∈ st.vars, v.decl = decl → v.Updates (change v) st.registry) :
    Runs False (fun _ _ => True) (changeVariable decl change) st := by
  have hupdates (v : Variable) (hv : v ∈ st.vars) :
      v.Updates (if v.decl = decl then change v else v) st.registry := by
    split
    · next hdecl => exact hchange v hv hdecl
    · exact ⟨rfl, hst.vars v hv⟩
  refine ⟨⟨hst.store, ?_, hst.routines⟩, ⟨le_refl st.toStore, ?_, rfl⟩, trivial, False.elim⟩
  · intro v' hv'
    obtain ⟨v, hv, rfl⟩ := List.mem_map.mp hv'
    exact (hupdates v hv).known
  · refine List.map_map.trans (List.map_congr_left fun v hv => ?_)
    exact (hupdates v hv).decl

/-- A change that keeps a function's node and speaks of known records is a step of the walk. -/
theorem changeRoutine_runs {fn : NodeId} {change : Routine → Routine}
    (hchange : ∀ r ∈ st.routines, r.node = fn →
      (change r).node = r.node ∧ (change r).Known st.registry) :
    Runs False (fun _ _ => True) (changeRoutine fn change) st := by
  have hupdates (r : Routine) (hr : r ∈ st.routines) :
      (if r.node = fn then change r else r).node = r.node
        ∧ (if r.node = fn then change r else r).Known st.registry := by
    split
    · next hnode => exact hchange r hr hnode
    · exact ⟨rfl, hst.routines r hr⟩
  refine ⟨⟨hst.store, hst.vars, ?_⟩, ⟨le_refl st.toStore, rfl, ?_⟩, trivial, False.elim⟩
  · intro r' hr'
    obtain ⟨r, hr, rfl⟩ := List.mem_map.mp hr'
    exact (hupdates r hr).2
  · refine List.map_map.trans (List.map_congr_left fun r hr => ?_)
    exact (hupdates r hr).1

/-- A change that may also register layouts is a step of the walk if it updates the variable. -/
theorem changeVariableWith_runs {decl : NodeId} {change : Variable → Registry → Variable × Registry}
    (hchange : ∀ v ∈ st.vars, Runs False (fun v' r' => v.Updates v' r') (change v) st.registry) :
    Runs False (fun _ _ => True) (changeVariableWith decl change) st := by
  refine Runs.get ?_
  cases hfind : st.vars.find? (·.decl = decl) with
  | none => exact .pure hst trivial
  | some v =>
    have hv : v ∈ st.vars := List.mem_of_find?_eq_some hfind
    have hdecl : v.decl = decl := by simpa using List.find?_some hfind
    refine (withStore_runs hst (Store.withRegistry_runs hst.store (hchange v hv))).bind ?_
    intro changed st' hst' _ hchanged
    refine changeVariable_runs hst' fun v' _ hdecl' => ⟨?_, hchanged.known⟩
    rw [hchanged.decl, hdecl, hdecl']

end State

/-! ## The walk -/

/-- A step of the walk: it keeps states well formed and lets them grow. -/
def Collects {α : Type} (m : StateM State α) : Prop :=
  ∀ st : State, st.WellFormed → Runs False (fun _ _ => True) m st

namespace Collects

variable {α β : Type}

/-- An answer alone is a step of the walk. -/
theorem pure (a : α) : Collects (Pure.pure a : StateM State α) := fun _ hst => .pure hst trivial

/-- Two steps one after the other are a step. -/
theorem bind {m : StateM State α} {f : α → StateM State β} (hm : Collects m)
    (hf : ∀ a, Collects (f a)) : Collects (m >>= f) :=
  fun st hst => (hm st hst).bind fun a st' hst' _ _ => hf a st' hst'

/-- A step that depends on the state it starts in. -/
theorem read {f : State → StateM State β} (hf : ∀ st, Collects (f st)) : Collects (get >>= f) :=
  fun st hst => .get (hf st st hst)

/-- Changing one variable without naming new records. -/
theorem changeVariable (decl : NodeId) {change : Variable → Variable}
    (hdecl : ∀ v, (change v).decl = v.decl) (hknown : ∀ v r, v.Known r → (change v).Known r) :
    Collects (State.changeVariable decl change) :=
  fun _ hst => State.changeVariable_runs hst fun v hv _ => ⟨hdecl v, hknown v _ (hst.vars v hv)⟩

/-- Changing one function without naming new records. -/
theorem changeRoutine (fn : NodeId) {change : Routine → Routine}
    (hnode : ∀ r, (change r).node = r.node)
    (hknown : ∀ r registry, r.Known registry → (change r).Known registry) :
    Collects (State.changeRoutine fn change) :=
  fun _ hst => State.changeRoutine_runs hst fun r hr _ => ⟨hnode r, hknown r _ (hst.routines r hr)⟩

/-- Noting a promise is a step of the walk. -/
theorem addPromise (decl : NodeId) (p : Promise) :
    Collects (State.changeVariable decl (·.addPromise p)) :=
  changeVariable decl (fun _ => rfl) fun _ _ hv => hv.addPromise p

end Collects

namespace Subject

variable {s : Subject}

/-- What follows on a derived layout may rely on its records. -/
theorem derived_collects (hp : s.program.Numbered) {α : Type} {hint : String} {id : NodeId}
    {f : Option Layout → StateM State α} (hnone : Collects (f none))
    (hsome : ∀ l st, st.WellFormed → Known l st.toStore →
      Runs False (fun _ _ => True) (f (some l)) st) :
    Collects (s.derived hint id >>= f) := by
  intro st hst
  refine (State.withStore_runs hst (determine_runs hp hint id hst.store)).bind ?_
  intro l st' hst' _ hl
  cases l with
  | none => exact hnone st' hst'
  | some l => exact hsome l st' hst' hl

/-- Changing one slot without naming new records. -/
theorem changeSlot_known {r : Routine} {registry : Registry} (hr : r.Known registry) (index : Nat)
    {change : Slot → Slot} (hchange : ∀ slot ∈ r.args, (change slot).Known registry) :
    (changeSlot index change r).Known registry := by
  refine ⟨fun slot hslot => ?_, hr.ret⟩
  obtain ⟨i, hi, rfl⟩ := List.mem_iff_getElem.mp hslot
  simp only [changeSlot, List.length_modify] at hi
  simp only [changeSlot, List.getElem_modify]
  split
  · exact hchange _ (List.getElem_mem hi)
  · exact hr.args _ (List.getElem_mem hi)

/-- Every kind of step of the walk keeps states well formed and lets them grow. -/
theorem walks_collects (hp : s.program.Numbered) : s.Walks Collects where
  pure := .pure
  bind := .bind
  read := .read
  note _ _ st hst := State.withStore_runs hst (Store.note_runs hst.store s.program _ _)
  derive hint id st hst :=
    (State.withStore_runs hst (determine_runs hp hint id hst.store)).imp fun _ => trivial
  object decl := .changeVariable decl (fun _ => rfl) fun _ _ hv => ⟨hv.candidates, hv.added, hv.winner⟩
  growing decl := .changeVariable decl (fun _ => rfl) fun _ _ hv => ⟨hv.candidates, hv.added, hv.winner⟩
  dictionary decl := .changeVariable decl (·.decl_makeDictionary) fun _ _ hv => hv.makeDictionary
  key decl := .changeVariable decl (fun v => v.decl_addCandidate _)
    fun _ _ hv => hv.addCandidate (Registry.knows_scalar _ _)
  promise decl q _ := .addPromise decl q
  value decl _ _ := derived_collects hp (.addPromise decl _) fun l _ hst hl =>
    State.changeVariable_runs hst fun v hv _ =>
      ⟨v.decl_addCandidate l, (hst.vars v hv).addCandidate hl⟩
  keyed decl _ := by
    refine derived_collects hp (.addPromise decl _) fun l st hst hl => ?_
    refine State.changeVariableWith_runs hst fun v hv => ?_
    refine (Registry.dictionary_runs hst.store.registry hl False).bind
      (f := fun dict => Pure.pure (v.addCandidate dict)) ?_
    intro dict r' hr' hle hdict
    exact .pure hr' ⟨v.decl_addCandidate dict, ((hst.vars v hv).mono hle).addCandidate hdict⟩
  element decl _ := by
    refine derived_collects hp (.addPromise decl _) fun l st hst hl => ?_
    refine State.changeVariableWith_runs hst fun v hv => ?_
    exact (Variable.refineElements_runs hst.store.registry (hst.vars v hv) hl False).map (·.1)
      fun _ _ h => h
  pushed decl _ := by
    refine derived_collects hp (.addPromise decl _) fun l st hst hl => ?_
    refine State.changeVariableWith_runs hst fun v hv => ?_
    exact Variable.addPushed_runs hst.store.registry (hst.vars v hv) hl False
  self decl name _ := .changeVariable decl (fun _ => rfl) fun _ _ hv => hv.writeSelf name
  property decl name _ _ := by
    refine derived_collects hp ?_ fun l st hst hl => ?_
    · exact .changeVariable decl (fun _ => rfl) fun _ _ hv => (hv.reserve name).addPromise _
    · exact State.changeVariable_runs hst fun v hv _ => ⟨rfl, (hst.vars v hv).write name hl⟩
  propertyPushed decl name _ _ := by
    refine derived_collects hp ?_ fun l st hst hl => ?_
    · exact .changeVariable decl (fun _ => rfl) fun _ _ hv => (hv.reserve name).addPromise _
    · refine State.changeVariableWith_runs hst fun v hv => ?_
      refine (Registry.dynamicArray_runs hst.store.registry hl False).bind
        (f := fun array => Pure.pure (v.write name array)) ?_
      intro array r' hr' hle harray
      exact .pure hr' ⟨rfl, ((hst.vars v hv).mono hle).write name harray⟩
  mark fn change hchange := by
    refine .changeRoutine fn (fun r => ?_) fun r _ hr => ?_
    all_goals obtain ⟨calls, hasReturn, valued, hr'⟩ := hchange r
    · rw [hr']
    · rw [hr']
      exact ⟨hr.args, hr.ret⟩
  argument fn index _ _ := by
    refine derived_collects hp ?_ fun l st hst hl => ?_
    · exact .changeRoutine fn (fun _ => rfl) fun r _ hr => changeSlot_known hr index hr.args
    · refine State.changeRoutine_runs hst fun r hr _ => ⟨rfl, ?_⟩
      refine changeSlot_known (hst.routines r hr) index fun slot hslot => ?_
      split
      · exact hl
      · exact (hst.routines r hr).args slot hslot
  returned fn id settled _ _ _ := by
    have hwait : Collects (State.changeRoutine fn fun r =>
        { r with retPromises := r.retPromises ++ [{ node := id }] }) :=
      .changeRoutine fn (fun _ => rfl) fun _ _ hr => ⟨hr.args, hr.ret⟩
    refine derived_collects hp hwait fun l st hst hl => ?_
    simp only [Option.getD_some]
    repeat' split
    · exact hwait st hst
    · exact Collects.pure () st hst
    · exact State.changeRoutine_runs hst fun r hr _ => ⟨rfl, (hst.routines r hr).args, hl⟩

/-- The walk starts in a well-formed state. -/
theorem initialState_wellFormed : s.initialState.WellFormed where
  store := ⟨Registry.wellFormed_empty, fun _ _ h => absurd h (by simp [initialState])⟩
  vars v hv := by
    obtain ⟨id, -, hid⟩ := List.mem_filterMap.mp hv
    obtain ⟨n, -, rfl⟩ := Option.map_eq_some_iff.mp hid
    exact ⟨fun _ h => absurd h (by simp), fun _ h => absurd h (by simp), Registry.knows_missing _⟩
  routines r hr := by
    obtain ⟨n, -, rfl⟩ := List.mem_map.mp hr
    refine ⟨fun slot hslot => ?_, Registry.knows_missing _⟩
    obtain ⟨_, -, rfl⟩ := List.mem_map.mp hslot
    exact Registry.knows_missing _

/-- The walk over all nodes is a step as its parts are. -/
theorem collect_runs (hp : s.program.Numbered) :
    Collects (s.program.nodes.toList.forM s.collectNode) :=
  (walks_collects hp).collectNodes _

/-- The state after the walk is well formed. -/
theorem collect_wellFormed (hp : s.program.Numbered) : s.collect.WellFormed :=
  (collect_runs hp s.initialState initialState_wellFormed).sound

/-- The walk lets the state it starts from grow. -/
theorem collect_grown (hp : s.program.Numbered) : s.initialState ≤ s.collect :=
  (collect_runs hp s.initialState initialState_wellFormed).grows

/-- Every function has one place in the evidence. -/
theorem collect_nodup_nodes (hp : s.program.Numbered) :
    (s.collect.routines.map (·.node)).Nodup := by
  rw [(collect_grown hp).nodes]
  -- Collecting keeps the places; at first there is one for each node that is a function.
  have hsublist : (s.initialState.routines.map (·.node)).Sublist
      (s.program.nodes.toList.map (·.id)) := by
    simp only [initialState, List.map_map, Function.comp_def]
    exact List.filter_sublist.map _
  exact hsublist.nodup hp.nodup_map_id

end Subject

end LayoutInference
