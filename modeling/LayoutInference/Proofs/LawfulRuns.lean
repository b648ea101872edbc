import Mathlib
import LayoutInference.Proofs.EvidenceInvariants
import LayoutInference.Proofs.Laws

/-!
# Runs keep to laws

All layouts in the evidence of a run are made in the ways that laws of layouts speak of, so a law that
holds of the empty registry holds of the evidence after the walk (`Subject.collect_obeys`), after any
number of passes (`Subject.resolve_obeys`) and behind the result (`Result.finalState_obeys`). Layouts
that are not known yet are left out.
-/

namespace LayoutInference

variable {L : Layout → Prop} {I : Registry → Prop}

/-! ## Evidence -/

namespace Variable

/-- The layouts in the evidence about a variable keep to a law, as far as they are there. -/
structure Obeys (L : Layout → Prop) (v : Variable) : Prop where
  candidates : ∀ l ∈ v.candidates, L l
  added : ∀ a ∈ v.added, a.layout ≠ .missing → L a.layout
  winner : v.winner ≠ .missing → L v.winner

namespace Obeys

variable {v : Variable} (hv : v.Obeys L)

include hv

/-- A lawful candidate may be added. -/
theorem addCandidate {l : Layout} (hl : l ≠ .missing → L l) : (v.addCandidate l).Obeys L := by
  rw [Variable.addCandidate]
  split
  · next haccepts =>
    have hthere : l ≠ .missing := by simpa using (Bool.and_eq_true_iff.mp haccepts).1
    refine ⟨fun l' hl' => ?_, hv.added, hv.winner⟩
    rcases List.mem_append.mp hl' with hl' | hl'
    · exact hv.candidates l' hl'
    · rw [List.mem_singleton.mp hl']
      exact hl hthere
  · exact hv

/-- Promises hold no layouts. -/
theorem addPromise (q : Promise) : (v.addPromise q).Obeys L := ⟨hv.candidates, hv.added, hv.winner⟩

/-- A reserved property has no layout yet. -/
theorem reserve (name : String) : (v.reserve name).Obeys L :=
  ⟨hv.candidates, Known.forall_mem_update hv.added (fun _ h => h) (fun h => absurd rfl h), hv.winner⟩

/-- A dictionary holds no layouts but those it was made from. -/
theorem makeDictionary : v.makeDictionary.Obeys L := by
  rw [Variable.makeDictionary]
  split
  · exact hv
  · exact ⟨fun l hl => hv.candidates l (List.mem_of_mem_filter hl), by simp, hv.winner⟩

variable (law : Registry.Law L I)

include law

/-- Writing the owner to a property marks it or makes it universal, which keeps to every law. -/
theorem writeSelf (name : String) : (v.writeSelf name).Obeys L := by
  refine ⟨hv.candidates, Known.forall_mem_update hv.added (fun a ha => ?_) fun h => absurd rfl h,
    hv.winner⟩
  unfold Added.writeSelf
  split
  · exact ha
  · exact fun _ => law.scalar rfl

/-- A property may be written with a lawful layout. -/
theorem write (name : String) {l : Layout} (hl : L l) : (v.write name l).Obeys L := by
  refine ⟨hv.candidates, Known.forall_mem_update hv.added (fun a ha => ?_) fun _ => hl, hv.winner⟩
  have huniversal : L .universal := law.scalar rfl
  unfold Added.write
  split
  · split
    · exact ha
    · exact fun _ => huniversal
  · split
    · exact fun _ => hl
    · repeat' split
      · exact ha
      · exact ha
      · exact fun _ => huniversal

end Obeys

section Registry

variable (law : Registry.Law L I)

include law

/-- Refining a lawful candidate by a lawful layout gives a lawful one. -/
theorem refineCandidate_obeys {l c : Layout} (hl : L l) (hc : L c) :
    Keeps I (fun a => L a.1) (fun r => refineCandidate l r c) := by
  intro r hr
  have hfixed (capacity : Int) := Store.fixedArray_obeys law hl capacity r hr
  have hdynamic := Store.dynamicArray_obeys law hl r hr
  unfold refineCandidate
  split
  · split
    · simp only
      split
      · exact hdynamic
      · exact hfixed _
    · exact ⟨hr, hc⟩
  · split
    · exact hdynamic
    · exact ⟨hr, hc⟩
  · exact ⟨hr, hc⟩

/-- Refining lawful candidates by a lawful layout gives lawful ones. -/
theorem refineCandidates_obeys {l : Layout} (hl : L l) {cs : List Layout} (hcs : ∀ c ∈ cs, L c) :
    Keeps I (fun a => ∀ c ∈ a.1, L c) (fun r => refineCandidates l r cs) := by
  induction cs with
  | nil => exact .pure (by simp)
  | cons c cs ih =>
    obtain ⟨hc, hcs⟩ := List.forall_mem_cons.mp hcs
    intro r hr
    obtain ⟨hr', hc'⟩ := refineCandidate_obeys law hl hc r hr
    obtain ⟨hr'', hcs'⟩ := ih hcs _ hr'
    exact ⟨hr'', List.forall_mem_cons.mpr ⟨hc', hcs'⟩⟩

variable {v : Variable} (hv : v.Obeys L)

include hv

/-- Refining the elements of a variable keeps its layouts lawful. -/
theorem refineElements_obeys {l : Layout} (hl : L l) :
    Keeps I (fun a => a.1.Obeys L) (v.refineElements l) := by
  intro r hr
  unfold refineElements
  split
  · exact ⟨hr, hv⟩
  · obtain ⟨hr', hcandidates⟩ := refineCandidates_obeys law hl hv.candidates r hr
    exact ⟨hr', hcandidates, hv.added, hv.winner⟩

/-- A pushed element with a lawful layout keeps the variable's layouts lawful. -/
theorem addPushed_obeys {l : Layout} (hl : L l) : Keeps I (fun v' => v'.Obeys L) (v.addPushed l) := by
  intro r hr
  obtain ⟨hr', harray⟩ := Store.dynamicArray_obeys law hl r hr
  unfold addPushed
  simp only
  split
  · refine ⟨hr', fun c hc => ?_, hv.added, hv.winner⟩
    obtain ⟨c', hc', rfl⟩ := List.mem_map.mp (mem_distinct hc)
    split
    · exact harray
    · exact hv.candidates c' hc'
  · exact ⟨hr', hv.addCandidate fun _ => harray⟩

/-- Using a lawful layout for a promise keeps the variable's layouts lawful. -/
theorem apply_obeys (q : Promise) {l : Layout} (hl : L l) :
    Keeps I (fun a => a.1.Obeys L) (v.apply q l) := by
  intro r hr
  unfold apply
  split
  · split
    · exact ⟨hr, hv.write law q.property hl⟩
    · exact ⟨hr, hv.addCandidate fun _ => hl⟩
  · split
    · exact ⟨hr, hv⟩
    · refine ⟨hr, hv.addCandidate fun hthere => ?_⟩
      unfold walkedElement at hthere ⊢
      split
      · exact law.scalar rfl
      · next hstring =>
        rw [if_neg hstring] at hthere
        cases l with
        | fixed | dynamic => exact law.elem hl rfl
        | _ => exact absurd rfl hthere
  · split
    · obtain ⟨hr', harray⟩ := Store.dynamicArray_obeys law hl r hr
      exact ⟨hr', hv.write law q.property harray⟩
    · exact addPushed_obeys law hv hl r hr
  · obtain ⟨hr', hdict⟩ := Store.dictionary_obeys law hl r hr
    exact ⟨hr', hv.addCandidate fun _ => hdict⟩
  · exact refineElements_obeys law hv hl r hr

end Registry

end Variable

namespace Routine

/-- The layouts in the evidence about a function keep to a law, as far as they are there. -/
structure Obeys (L : Layout → Prop) (r : Routine) : Prop where
  args : ∀ slot ∈ r.args, slot.layout ≠ .missing → L slot.layout
  ret : r.ret ≠ .missing → L r.ret

/-- The layout that a function returns is lawful, if it is there. -/
theorem Obeys.returned {r : Routine} (h : r.Obeys L) (law : Registry.Law L I)
    (hreturned : r.returned ≠ .missing) : L r.returned := by
  unfold Routine.returned at hreturned ⊢
  repeat' split
  all_goals simp_all
  · exact h.ret ‹_›
  · exact law.scalar rfl

/-- Shaping what a function returns by a lawful layout keeps its layouts lawful. -/
theorem shape_obeys (law : Registry.Law L I) {r : Routine} (hr : r.Obeys L) (property : String)
    {l : Layout} (hl : L l) : Keeps (Store.Obeys L I) (fun r' => r'.Obeys L) (r.shape property l) := by
  unfold shape
  split
  · refine (Store.withRegistry_obeys (Q := fun _ => True) fun registry hregistry =>
      ⟨?_, trivial⟩).bind fun out _ => .pure ⟨hr.args, fun _ => law.record out⟩
    exact law.extend hregistry _ "" (by simpa using hl) []
  · exact .pure hr

end Routine

namespace View

/-- The layouts that a view answers from keep to a law. -/
structure Obeys (L : Layout → Prop) (view : View) : Prop where
  vars : ∀ v ∈ view.vars, v.winner ≠ .missing → L v.winner
  routines : ∀ r ∈ view.routines, r.Obeys L

/-- Questions to lawful evidence are answered with lawful layouts. -/
theorem answers_obeys {view : View} (law : Registry.Law L I) (h : view.Obeys L) :
    view.Answers (Store.Obeys L I) (fun l => l ≠ .missing → L l) where
  missing hmissing := absurd rfl hmissing
  scalar hkind _ := law.scalar hkind
  winner hx := h.vars _ hx
  returned hr := (h.routines _ hr).returned law
  elem := by
    intro l hl helem
    cases l with
    | missing | scalar | record => exact absurd rfl helem
    | fixed | dynamic | dict => exact law.elem (hl (by simp)) rfl
  field := by
    intro st hst id name hfield
    cases hl : (st.registry.record? id).bind (·.field? name) with
    | none => simp [hl] at hfield
    | some l => exact law.field hst.registry hl
  quiet id := ((view.upholds_obeys law).quietLayout id).imp fun _ hl _ => hl
  literal {id _} _ _ := (view.upholds_obeys law).lookedUp id

end View

/-! ## Winners -/

namespace Variable

variable (law : Registry.Law L I) {v : Variable}

include law

/-- Keeping a lawful candidate keeps those that were kept lawful. -/
theorem keepCandidate_obeys {c : Layout} (hc : L c) (kept : List Layout) :
    Keeps I (fun kept' => (∀ l ∈ kept, L l) → ∀ l ∈ kept', L l)
      (fun r => v.keepCandidate (kept, r) c) := by
  have happend {c : Layout} (hc : L c) (hkept : ∀ l ∈ kept, L l) :
      ∀ l ∈ appendDistinct kept c, L l := by
    intro l hl
    rcases mem_appendDistinct hl with hl | rfl
    · exact hkept l hl
    · exact hc
  intro r hr
  unfold keepCandidate
  split
  · exact ⟨hr, fun hkept => hkept⟩
  · split
    · obtain ⟨hr', harray⟩ := Store.dynamicArray_obeys law (law.elem hc rfl) r hr
      exact ⟨hr', happend harray⟩
    · exact ⟨hr, happend hc⟩

variable (hv : v.Obeys L)

include hv

/-- The candidates that survive are lawful. -/
theorem survivors_obeys : Keeps I (fun kept => ∀ l ∈ kept, L l) v.survivors := by
  have hfold (cs kept : List Layout) (hcs : ∀ c ∈ cs, L c) (hkept : ∀ l ∈ kept, L l) :
      Keeps I (fun kept' => ∀ l ∈ kept', L l) (fun r => cs.foldl v.keepCandidate (kept, r)) := by
    induction cs generalizing kept with
    | nil => exact .pure hkept
    | cons c cs ih =>
      obtain ⟨hc, hcs⟩ := List.forall_mem_cons.mp hcs
      intro r hr
      obtain ⟨hr', hkept'⟩ := keepCandidate_obeys law (v := v) hc kept r hr
      exact ih _ hcs (hkept' hkept) _ hr'
  exact hfold v.candidates [] hv.candidates (by simp)

/-- Extending a record by the properties of a variable keeps the registry lawful. -/
theorem extendRecord_obeys (id : RecordId) : Keeps I (fun _ => True) (v.extendRecord id) := by
  refine fun r hr => ⟨law.extend hr id _ (fun f hf => ?_) _, trivial⟩
  obtain ⟨a, ha, rfl⟩ := List.mem_map.mp hf
  obtain ⟨ha, hknown⟩ := List.mem_filter.mp ha
  exact hv.added a ha (by simpa using (Bool.and_eq_true_iff.mp hknown).2)

/-- The winner of a verdict is lawful. -/
theorem verdict_obeys : Keeps I (fun d => L d.winner) v.verdict := by
  intro r hr
  obtain ⟨hr', hkept⟩ := survivors_obeys law hv r hr
  rw [verdict]
  generalize v.survivors r = outcome at hr' hkept ⊢
  obtain ⟨_ | ⟨l, _ | ⟨l', rest⟩⟩, r'⟩ := outcome
  · exact ⟨hr', law.scalar rfl⟩
  · have hl := hkept l (List.mem_singleton_self l)
    cases l with
    | record id => exact ⟨(extendRecord_obeys law hv id r' hr').1, law.record _⟩
    | _ => exact ⟨hr', hl⟩
  · cases l <;> exact ⟨hr', law.scalar rfl⟩

/-- Picking the winner of a variable keeps its layouts lawful. -/
theorem collapse_obeys : Keeps I (fun a => a.1.Obeys L) v.collapse := by
  intro r hr
  obtain ⟨hr', hwinner⟩ := verdict_obeys law hv r hr
  rw [collapse_eq]
  exact ⟨hr', hv.candidates, hv.added, fun _ => hwinner⟩

end Variable

/-! ## The walk -/

namespace State

/-- All layouts of a state keep to a law, as far as they are there. -/
structure Obeys (L : Layout → Prop) (I : Registry → Prop) (st : State) : Prop where
  store : st.toStore.Obeys L I
  vars : ∀ v ∈ st.vars, v.Obeys L
  routines : ∀ r ∈ st.routines, r.Obeys L

/-- The view of a lawful state is lawful. -/
theorem Obeys.view {st : State} (h : st.Obeys L I) (s : Subject) : (st.view s).Obeys L :=
  ⟨fun v hv => (h.vars v hv).winner, h.routines⟩

/-- A state is lawful exactly if its store, its variables and its functions are. -/
theorem obeys_parts :
    Parts (Obeys L I) (Store.Obeys L I) (Variable.Obeys L) (Routine.Obeys L) :=
  fun _ => ⟨fun h => ⟨h.store, h.vars, h.routines⟩, fun h => ⟨h.1, h.2.1, h.2.2⟩⟩

end State

namespace Subject

open State (obeys_parts)

variable {s : Subject} (law : Registry.Law L I)

include law

/-- What follows on a derived layout may rely on the law. -/
theorem derived_obeys {α : Type} {Q : α → Prop} {hint : String} {id : NodeId}
    {f : Option Layout → StateM State α} (hnone : Keeps (State.Obeys L I) Q (f none))
    (hsome : ∀ l, L l → Keeps (State.Obeys L I) Q (f (some l))) :
    Keeps (State.Obeys L I) Q (s.derived hint id >>= f) :=
  obeys_parts.derived ((s.upholds_obeys law).determine hint id) hnone hsome

omit law in
/-- Changing one slot. -/
theorem changeSlot_obeys {r : Routine} (hr : r.Obeys L) (index : Nat) {change : Slot → Slot}
    (hchange : ∀ slot : Slot, (slot.layout ≠ .missing → L slot.layout) →
      (change slot).layout ≠ .missing → L (change slot).layout) :
    (changeSlot index change r).Obeys L := by
  refine ⟨fun slot hslot => ?_, hr.ret⟩
  obtain ⟨i, hi, rfl⟩ := List.mem_iff_getElem.mp hslot
  simp only [changeSlot, List.length_modify] at hi
  simp only [changeSlot, List.getElem_modify]
  split
  · exact hchange _ (hr.args _ (List.getElem_mem hi))
  · exact hr.args _ (List.getElem_mem hi)

/-- Every kind of step of the walk keeps to a law. -/
theorem walks_obeys (s : Subject) :
    s.Walks fun {α : Type} => Keeps (State.Obeys L I) fun _ : α => True where
  pure _ := .pure trivial
  bind hm hf := hm.bind fun a _ => hf a
  read hf := .read fun st _ => hf st
  note _ _ := obeys_parts.withStore (Store.note_obeys _ _ _)
  derive hint id := (obeys_parts.withStore ((s.upholds_obeys law).determine hint id)).imp
    fun _ _ => trivial
  object d := obeys_parts.changeVariable d fun _ _ hv => ⟨hv.candidates, hv.added, hv.winner⟩
  growing d := obeys_parts.changeVariable d fun _ _ hv => ⟨hv.candidates, hv.added, hv.winner⟩
  dictionary d := obeys_parts.changeVariable d fun _ _ hv => hv.makeDictionary
  key d := obeys_parts.changeVariable d fun _ _ hv => hv.addCandidate fun _ => law.scalar rfl
  promise d q _ := obeys_parts.changeVariable d fun _ _ hv => hv.addPromise q
  value d _ _ := derived_obeys law (obeys_parts.changeVariable d fun _ _ hv => hv.addPromise _)
    fun _ hl => obeys_parts.changeVariable d fun _ _ hv => hv.addCandidate fun _ => hl
  keyed d _ := derived_obeys law (obeys_parts.changeVariable d fun _ _ hv => hv.addPromise _)
    fun _ hl => obeys_parts.changeVariableWith d fun v hv => Store.withRegistry_obeys fun r hr => by
      obtain ⟨hr', hdict⟩ := Store.dictionary_obeys law hl r hr
      exact ⟨hr', hv.addCandidate fun _ => hdict⟩
  element d _ := derived_obeys law (obeys_parts.changeVariable d fun _ _ hv => hv.addPromise _)
    fun _ hl => obeys_parts.changeVariableWith d fun _ hv =>
      Store.withRegistry_obeys (Variable.refineElements_obeys law hv hl)
  pushed d _ := derived_obeys law (obeys_parts.changeVariable d fun _ _ hv => hv.addPromise _)
    fun _ hl => obeys_parts.changeVariableWith d fun _ hv =>
      Store.withRegistry_obeys (Variable.addPushed_obeys law hv hl)
  self d name _ := obeys_parts.changeVariable d fun _ _ hv => hv.writeSelf law name
  property d name _ _ := derived_obeys law
    (obeys_parts.changeVariable d fun _ _ hv => (hv.reserve name).addPromise _)
    fun _ hl => obeys_parts.changeVariable d fun _ _ hv => hv.write law name hl
  propertyPushed d name _ _ := derived_obeys law
    (obeys_parts.changeVariable d fun _ _ hv => (hv.reserve name).addPromise _)
    fun _ hl => obeys_parts.changeVariableWith d fun v hv => Store.withRegistry_obeys fun r hr => by
      obtain ⟨hr', harray⟩ := Store.dynamicArray_obeys law hl r hr
      exact ⟨hr', hv.write law name harray⟩
  mark fn change hchange := obeys_parts.changeRoutine fn fun r _ hr => by
    obtain ⟨calls, hasReturn, valued, hr'⟩ := hchange r
    rw [hr']
    exact ⟨hr.args, hr.ret⟩
  argument fn index _ _ := derived_obeys law
    (obeys_parts.changeRoutine fn fun _ _ hr => changeSlot_obeys hr index fun _ h => h)
    fun l hl => obeys_parts.changeRoutine fn fun _ _ hr =>
      changeSlot_obeys hr index fun slot h => by
        split
        · exact fun _ => hl
        · exact h
  returned fn id settled _ _ _ := by
    have hwait : Keeps (State.Obeys L I) (fun _ => True) (State.changeRoutine fn fun r =>
        { r with retPromises := r.retPromises ++ [{ node := id }] }) :=
      obeys_parts.changeRoutine fn fun _ _ hr => ⟨hr.args, hr.ret⟩
    refine derived_obeys law hwait fun l hl => ?_
    simp only [Option.getD_some]
    repeat' split
    · exact hwait
    · exact .pure trivial
    · exact obeys_parts.changeRoutine fn fun _ _ hr => ⟨hr.args, fun _ => hl⟩

/-- The walk starts in a lawful state. -/
theorem initialState_obeys : s.initialState.Obeys L I where
  store := ⟨law.empty, fun _ _ h => by cases h⟩
  vars v hv := by
    obtain ⟨id, -, hid⟩ := List.mem_filterMap.mp hv
    obtain ⟨n, -, rfl⟩ := Option.map_eq_some_iff.mp hid
    exact ⟨by simp, by simp, fun h => absurd rfl h⟩
  routines r hr := by
    obtain ⟨n, -, rfl⟩ := List.mem_map.mp hr
    refine ⟨fun slot hslot => ?_, fun h => absurd rfl h⟩
    obtain ⟨_, -, rfl⟩ := List.mem_map.mp hslot
    exact fun h => absurd rfl h

/-- The state after the walk is lawful. -/
theorem collect_obeys : s.collect.Obeys L I :=
  ((walks_obeys law s).collectNodes _ _ (initialState_obeys law)).1

/-! ## Passes -/

/-- Every step of a pass keeps to a law. -/
theorem settles_obeys : s.Settles (Store.Obeys L I) (fun l => l ≠ .missing → L l) (Variable.Obeys L)
    (Routine.Obeys L) where
  missing hmissing := absurd rfl hmissing
  answer {view} hview id := by
    have hobeys : view.Obeys L := ⟨fun v hv => (hview.vars v hv).winner, hview.routines⟩
    exact (View.answers_obeys law hobeys).layoutOf id
  collapse hv := Store.withRegistry_obeys (Variable.collapse_obeys law hv)
  apply {v _ _ q} hv _ hl hthere := by
    have hv' : v.Obeys L := ⟨hv.candidates, hv.added, hv.winner⟩
    exact (Store.withRegistry_obeys (Variable.apply_obeys law hv' q (hl hthere))).imp fun _ ha =>
      ⟨ha.candidates, ha.added, ha.winner⟩
  candidate hv _ hl := hv.addCandidate hl
  args hr := hr.args
  withArgs hr _ hargs := ⟨hargs, hr.ret⟩
  shape {r _ _ q} hr _ hl hthere := by
    have hr' : r.Obeys L := ⟨hr.args, hr.ret⟩
    exact (Routine.shape_obeys law hr' q.property (hl hthere)).imp fun _ h => ⟨h.args, h.ret⟩
  ret hr _ hl := ⟨hr.args, hl⟩
  retPromises hr _ := ⟨hr.args, hr.ret⟩
  settle hr := ⟨hr.args, hr.ret⟩

/-- A law holds after any number of passes. -/
theorem resolve_obeys (bound : Nat) : (s.resolve bound).state.Obeys L I :=
  (settles_obeys law).resolve obeys_parts (Store.note_obeys _) (collect_obeys law) bound

end Subject

/-- A law holds of all layouts behind a result. -/
theorem Result.finalState_obeys (law : Registry.Law L I) (s : Subject) (bound : Nat) :
    (ofOutcome s (s.resolve bound)).state.Obeys L I := by
  obtain ⟨hstore, hvars, hroutines⟩ := Subject.resolve_obeys (s := s) law bound
  exact ⟨⟨law.finalize hstore.registry _, hstore.literals⟩, hvars, hroutines⟩

end LayoutInference
