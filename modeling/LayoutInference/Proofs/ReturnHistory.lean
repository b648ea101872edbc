import Mathlib
import LayoutInference.Proofs.PropertyWrites

/-!
# What functions are seen to return

In the course of a run a function is seen to return nothing yet, and then a layout. `Subject.history`
lists what is seen of all functions at the points of a run: at the start and after every phase of every
pass, and, while a function is settled, each time one of its promises is looked at
(`Routine.propForms`, `Routine.returnForms`). The main result is `returned_final`: a layout that a
function is seen to return at one point is seen at all later points, and in the result.

A record that still waits for properties is not shown, so it can be shaped out of sight. That a function
which is seen to return nothing at all keeps to that needs a fact about the collected evidence: only
return statements with a value say what a function returns (`Routine.Backed`).
-/

namespace LayoutInference

/-! ## Trails -/

/-- `Trail R x y xs`: the list `xs` leads from `x` to `y`, each member being related to the next. -/
inductive Trail {α : Type} (R : α → α → Prop) : α → α → List α → Prop where
  | single (x : α) : Trail R x x [x]
  | cons {x y z : α} {xs : List α} (hstep : R x y) (h : Trail R y z xs) : Trail R x z (x :: xs)

namespace Trail

variable {α β : Type} {R : α → α → Prop} {S : β → β → Prop} {x y z : α} {xs ys : List α}

/-- A trail begins where it starts. -/
theorem head?_eq (h : Trail R x y xs) : xs.head? = some x := by
  cases h <;> rfl

/-- A trail ends where it leads. -/
theorem getLast?_eq (h : Trail R x y xs) : xs.getLast? = some y := by
  induction h with
  | single => rfl
  | cons _ h ih => rw [List.getLast?_cons, ih]; rfl

/-- Two trails with a step between them are a trail. -/
theorem append {y' : α} (h : Trail R x y xs) (hstep : R y y') (h' : Trail R y' z ys) :
    Trail R x z (xs ++ ys) := by
  induction h with
  | single => exact .cons hstep h'
  | cons hfirst _ ih => exact .cons hfirst (ih hstep)

/-- A trail is mapped to one if its steps are mapped to steps. -/
theorem map {f : α → β} (hf : ∀ a b, R a b → S (f a) (f b)) (h : Trail R x y xs) :
    Trail S (f x) (f y) (xs.map f) := by
  induction h with
  | single x => exact .single (f x)
  | cons hstep _ ih => exact .cons (hf _ _ hstep) ih

/-- All that stands on a trail is related to its start. -/
theorem forall_rel [Std.Refl R] [IsTrans α R] (h : Trail R x y xs) : ∀ a ∈ xs, R x a := by
  induction h with
  | single x => simpa using refl_of R x
  | cons hstep _ ih =>
    refine List.forall_mem_cons.mpr ⟨refl_of R _, fun a ha => ?_⟩
    exact trans_of R hstep (ih a ha)

/-- The end of a trail is related to its start. -/
theorem rel [Std.Refl R] [IsTrans α R] (h : Trail R x y xs) : R x y :=
  h.forall_rel y (List.mem_of_getLast? h.getLast?_eq)

/-- All that stands on a trail is related to its end. -/
theorem forall_rel_last [Std.Refl R] [IsTrans α R] (h : Trail R x y xs) : ∀ a ∈ xs, R a y := by
  induction h with
  | single x => simpa using refl_of R x
  | cons hstep h ih => exact List.forall_mem_cons.mpr ⟨(cons hstep h).rel, ih⟩

/-- Whatever stands on a trail is related to all that comes after it. -/
theorem pairwise [Std.Refl R] [IsTrans α R] (h : Trail R x y xs) : xs.Pairwise R := by
  induction h with
  | single x => exact List.pairwise_singleton R x
  | cons hstep h ih =>
    exact List.pairwise_cons.mpr ⟨fun a ha => trans_of R hstep (h.forall_rel a ha), ih⟩

end Trail

/-! ## Points of a run -/

namespace Routine

/-- The forms of a function while properties of its returned record are settled, those of `done` being
behind: as it is seen when each of the others is looked at, and after the last. -/
def propForms (view : View) (r : Routine) (done : List Promise) : List Promise → Store → List Routine
  | [], _ => [{ r with retProps := done }]
  | p :: ps, store =>
    let shown := { r with retProps := done ++ p :: ps }
    let (l, store) := (view.withRoutine shown).asked p store
    shown :: if l = .missing then r.propForms view (done ++ [p]) ps store
      else
        let (r, store) := r.shape p.property l store
        r.propForms view (done ++ [{ p with resolved := true }]) ps store

/-- The forms of a function while promises about the returned value are settled, in the same sense. -/
def returnForms (view : View) (r : Routine) (done : List Promise) : List Promise → Store → List Routine
  | [], _ => [r, { r with retPromises := done }]
  | p :: ps, store =>
    let (l, store) := (view.withRoutine r).asked p store
    r :: if l = .missing then r.returnForms view (done ++ [p]) ps store
      else
        let r := if r.ret = .missing then { r with ret := l } else r
        r.returnForms view (done ++ [{ p with resolved := true }]) ps store

/-- The forms of a function while it is settled, arguments first. -/
def forms (view : View) (r : Routine) (store : Store) : List Routine :=
  let ((args, _), store) := Slot.dischargeAll view r.args store
  let ((shaped, _), later) := { r with args }.dischargeProps view [] r.retProps store
  r :: ({ r with args }.propForms view [] r.retProps store
    ++ shaped.returnForms view [] shaped.retPromises later)

end Routine

namespace Subject

variable (s : Subject)

/-- What is seen of the functions while some of them are settled one after the other. -/
def phaseHistory : List Routine → State → List (List Routine)
  | [], st => [st.routines]
  | r :: rs, st => (r.forms (st.view s) st.toStore).map (·.replaceIn st.routines)
    ++ phaseHistory rs (s.routineStep r st).2

/-- What is seen of the functions in one pass: before it, when winners are picked, when the promises of
variables are kept, while functions are settled, and when properties have been given up. -/
def roundHistory (st : State) : List (List Routine) :=
  let collapsed := (collapsePhase st).2
  let discharged := (s.dischargePhase collapsed).2
  st.routines :: collapsed.routines :: s.phaseHistory discharged.routines discharged
    ++ [(s.round st).2.routines]

/-- What is seen of the functions in a series of at most `left` passes. -/
def historyFrom : (left : Nat) → State → List (List Routine)
  | 0, st => [st.routines, (collapsePhase st).2.routines]
  | left + 1, st => s.roundHistory st
    ++ if (s.round st).1 then historyFrom left (s.round st).2 else []

/-- What is seen of the functions in a run of at most `bound` passes. -/
def history (bound : Nat) : List (List Routine) := s.historyFrom bound s.collect

end Subject

/-! ## Settling one function -/

namespace Routine

/-- What a function returns is said by return statements with a value only. -/
def Backed (r : Routine) : Prop :=
  r.valued = false → r.ret = .missing ∧ r.retProps = [] ∧ r.retPromises = []

/-- The function `r'` is a later form of `r`: it is seen to return what `r` is. -/
structure Later (r r' : Routine) : Prop where
  node : r'.node = r.node
  returned : r.returned ≠ .missing → r'.returned = r.returned
  backed : r.Backed → r'.Backed

variable {r r' : Routine}

/-- A function with a value to return is backed. -/
theorem Backed.of_valued (h : r.valued = true) : r.Backed := by
  intro hvoid
  rw [h] at hvoid
  cases hvoid

instance : Std.Refl Later := ⟨fun _ => ⟨rfl, fun _ => rfl, id⟩⟩

instance : IsTrans Routine Later where
  trans _ _ _ h h' := ⟨h'.node.trans h.node,
    fun hseen => (h'.returned (h.returned hseen ▸ hseen)).trans (h.returned hseen),
    fun hbacked => h'.backed (h.backed hbacked)⟩

/-- A change out of sight. -/
theorem Later.of_hidden (hnode : r'.node = r.node) (hhidden : r.returned = .missing)
    (hvalued : r'.valued = true) : r.Later r' :=
  ⟨hnode, fun hseen => absurd hhidden hseen, fun _ => .of_valued hvalued⟩

/-- A record is out of sight while properties of it are waited for. -/
theorem returned_of_shaping (hvalued : r.valued = true) (h : r.shaping = true) :
    r.returned = .missing := by
  simp [Routine.returned, h, hvalued]

/-- A function that has a value to return and no layout for it is seen to return nothing yet. -/
theorem returned_of_missing (hvalued : r.valued = true) (h : r.ret = .missing) :
    r.returned = .missing := by
  simp [Routine.returned, h, hvalued]

/-- Shaping changes the returned layout of a function alone. -/
theorem exists_shape_eq (r : Routine) (property : String) (l : Layout) (store : Store) :
    ∃ ret, (r.shape property l store).1 = { r with ret } := by
  rw [shape]
  cases r.ret with
  | record id => exact ⟨_, rfl⟩
  | _ => exact ⟨r.ret, rfl⟩

/-- A promise that gets a layout was waiting. -/
theorem waits_of_asked (view : View) (p : Promise) (store : Store)
    (h : (view.asked p store).1 ≠ .missing) : p.resolved = false := by
  by_contra hresolved
  rw [View.asked, if_pos (by simpa using hresolved)] at h
  exact h rfl

/-- While returned properties are settled, the record is out of sight. -/
theorem propForms_trail (view : View) (done ps : List Promise) (store : Store)
    (hr : Backed { r with retProps := done ++ ps }) :
    Trail Later { r with retProps := done ++ ps } (r.dischargeProps view done ps store).1.1
      (r.propForms view done ps store) := by
  induction ps generalizing r done store with
  | nil =>
    rw [propForms, List.append_nil]
    exact .single _
  | cons p ps ih =>
    -- A function without a value to return has no properties to wait for.
    have hvalued : r.valued = true := by
      by_contra hvoid
      have hnone := (hr (by simpa using hvoid)).2.1
      simp at hnone
    set shown : Routine := { r with retProps := done ++ p :: ps } with hshown
    have hwaits := waits_of_asked (view.withRoutine shown) p store
    rw [dischargeProps_cons, bind_apply, propForms, ← hshown]
    generalize (view.withRoutine shown).asked p store = answer at *
    obtain ⟨l, store₁⟩ := answer
    simp only at hwaits ⊢
    split
    · have hlater := ih (done ++ [p]) store₁ (r := r) (.of_valued hvalued)
      rw [List.append_assoc, List.singleton_append] at hlater
      exact .cons (refl_of Later _) hlater
    · next hknown =>
      obtain ⟨ret, hshaped⟩ := r.exists_shape_eq p.property l store₁
      rw [bind_apply]
      generalize r.shape p.property l store₁ = shaped at *
      obtain ⟨r', store₂⟩ := shaped
      simp only at hshaped
      subst hshaped
      have hlater := ih (done ++ [{ p with resolved := true }]) store₂ (r := { r with ret })
        (.of_valued hvalued)
      refine .cons ?_ hlater
      -- The promise was waiting, so the function is being shaped and nothing is seen of its record.
      refine .of_hidden rfl (returned_of_shaping hvalued ?_) hvalued
      simp [shaping, hshown, hwaits hknown]

/-- While the returned value is waited for, there is nothing to see. -/
theorem returnForms_trail (view : View) (done ps : List Promise) (store : Store)
    (hps : r.valued = false → done ++ ps = []) :
    Trail Later r (r.dischargeReturns view done ps store).1.1 (r.returnForms view done ps store) := by
  induction ps generalizing r done store with
  | nil =>
    have hlater : r.Later { r with retPromises := done } := by
      refine ⟨rfl, fun _ => rfl, fun hr hvoid => ?_⟩
      obtain ⟨hret, hprops, -⟩ := hr hvoid
      exact ⟨hret, hprops, by simpa using hps hvoid⟩
    exact .cons hlater (.single _)
  | cons p ps ih =>
    have hvalued : r.valued = true := by
      by_contra hvoid
      have hnone := hps (by simpa using hvoid)
      simp at hnone
    -- A function with a value may have any promises left.
    have hlater (next : List Promise) {r' : Routine} (h : r'.valued = true) :
        r'.valued = false → next ++ ps = [] := by
      intro hvoid
      rw [h] at hvoid
      cases hvoid
    rw [dischargeReturns_cons, bind_apply, returnForms]
    generalize (view.withRoutine r).asked p store = answer
    obtain ⟨l, store₁⟩ := answer
    simp only
    split
    · exact .cons (refl_of Later _) (ih _ store₁ (hlater _ hvalued))
    · by_cases hret : r.ret = .missing
      -- Only the first layout is taken, and before it there was nothing to see.
      · simp only [hret, if_true]
        refine .cons ?_ (ih _ store₁ (r := { r with ret := l }) (hlater _ hvalued))
        exact .of_hidden rfl (returned_of_missing hvalued hret) hvalued
      · simp only [hret, if_false]
        exact .cons (refl_of Later _) (ih _ store₁ (hlater _ hvalued))

/-- Settling a function leaves what is seen of it. -/
theorem forms_trail (view : View) (store : Store) (hr : r.Backed) :
    Trail Later r (r.discharge view store).1.1 (r.forms view store) := by
  rw [discharge, bind_apply, forms]
  generalize Slot.dischargeAll view r.args store = answer
  obtain ⟨⟨args, settledArgs⟩, store₁⟩ := answer
  simp only
  have hargs : r.Later { r with args } := ⟨rfl, fun _ => rfl, id⟩
  have hprops := propForms_trail view [] r.retProps store₁ (r := { r with args }) (hargs.backed hr)
  rw [bind_apply]
  generalize { r with args }.dischargeProps view [] r.retProps store₁ = answer at *
  obtain ⟨⟨shaped, settledProps⟩, store₂⟩ := answer
  have hbacked : shaped.Backed := hprops.rel.backed (hargs.backed hr)
  have hreturns := returnForms_trail view [] shaped.retPromises store₂
    fun hvoid => (hbacked hvoid).2.2
  exact .cons hargs (hprops.append (refl_of Later _) hreturns)

/-- A later form in the place of an earlier one makes all functions later ones. -/
theorem Later.replaceIn (h : r.Later r') (rs : List Routine) :
    List.Forall₂ Later (r.replaceIn rs) (r'.replaceIn rs) := by
  refine List.forall₂_map_left_iff.mpr (List.forall₂_map_right_iff.mpr ?_)
  refine List.forall₂_same.mpr fun other _ => ?_
  rw [h.node]
  split
  · exact h
  · exact refl_of Later other

/-- A function that gave up returned properties is a later form. -/
theorem later_settle (r : Routine) : r.Later r.settle := by
  refine ⟨rfl, fun hseen => ?_, fun hr hvoid => ?_⟩
  · by_cases hret : r.ret = .missing
    · simp [Routine.returned, settle, hret]
    · -- What is seen is not waited for, so there is nothing to give up.
      have hshaping : r.shaping = false := by simpa [Routine.returned, hret] using hseen
      rw [Subject.settle_of_not_shaping hshaping]
  · obtain ⟨hret, hprops, hpromises⟩ := hr hvoid
    exact ⟨hret, by simp [settle, hprops], hpromises⟩

end Routine

/-! ## Collected evidence -/

namespace State

/-- What functions return is said by return statements with a value only. -/
def Backed (st : State) : Prop := ∀ r ∈ st.routines, r.Backed

/-- What backs the functions is a part of each of them. -/
theorem backed_parts : Parts Backed (fun _ => True) (fun _ => True) Routine.Backed := .of_routines _

/-- A step of the store leaves functions alone. -/
theorem withStore_backed {α : Type} (step : StateM Store α) :
    Keeps Backed (fun _ => True) (withStore step) :=
  fun _ hst => ⟨hst, trivial⟩

/-- A change of a variable leaves functions alone. -/
theorem changeVariable_backed (decl : NodeId) (change : Variable → Variable) :
    Keeps Backed (fun _ => True) (changeVariable decl change) :=
  backed_parts.changeVariable decl fun _ _ _ => trivial

/-- A change of a variable that may also register layouts leaves functions alone. -/
theorem changeVariableWith_backed (decl : NodeId)
    (change : Variable → Registry → Variable × Registry) :
    Keeps Backed (fun _ => True) (changeVariableWith decl change) :=
  backed_parts.changeVariableWith decl fun _ _ _ _ => ⟨trivial, trivial⟩

/-- A change that keeps a function backed keeps all of them backed. -/
theorem changeRoutine_backed (fn : NodeId) {change : Routine → Routine}
    (hchange : ∀ r : Routine, r.Backed → (change r).Backed) :
    Keeps Backed (fun _ => True) (changeRoutine fn change) :=
  backed_parts.changeRoutine fn fun r _ => hchange r

/-- What functions return is said by return statements with a value only, and the function `fn` has
one. -/
def BackedAt (fn : NodeId) (st : State) : Prop :=
  ∀ r ∈ st.routines, r.Backed ∧ (r.node = fn → r.valued = true)

/-- A change that keeps node and mark of a function keeps all of them backed, if the function has a value
to return. -/
theorem changeRoutine_backedAt (fn : NodeId) {change : Routine → Routine}
    (hchange : ∀ r : Routine, (change r).node = r.node ∧ (change r).valued = r.valued) :
    Keeps (BackedAt fn) (fun _ => True) (changeRoutine fn change) := by
  refine (Parts.of_routines _).changeRoutine fn fun r hfn ⟨_, hvalued⟩ => ?_
  have hvalued' := (hchange r).2.trans (hvalued hfn)
  exact ⟨.of_valued hvalued', fun _ => hvalued'⟩

/-- Functions of which one is known to have a value to return are backed. -/
theorem BackedAt.backed {fn : NodeId} {st : State} (h : st.BackedAt fn) : st.Backed :=
  fun r hr => (h r hr).1

/-- From a return statement with a value on, anything may be said about what a function returns. -/
theorem changeRoutine_valued (fn : NodeId) :
    Leads Backed (BackedAt fn) (changeRoutine fn fun r => { r with valued := true }) := by
  intro st hst r' hr'
  obtain ⟨r, hr, rfl⟩ := List.mem_map.mp hr'
  split
  · exact ⟨.of_valued rfl, fun _ => rfl⟩
  · next hfn => exact ⟨hst r hr, fun h => absurd h hfn⟩

end State

namespace Subject

variable {s : Subject}

open State in
/-- What is recorded about variables and arguments says nothing about returned values. -/
theorem observes_backed (s : Subject) :
    s.Observes fun {α : Type} => Keeps State.Backed fun _ : α => True where
  pure _ := .pure trivial
  bind hm hf := hm.bind fun a _ => hf a
  read hf := .read fun st _ => hf st
  derive _ _ := withStore_backed _
  growing d := changeVariable_backed d _
  dictionary d := changeVariable_backed d _
  key d := changeVariable_backed d _
  promise d _ _ := changeVariable_backed d _
  value d _ _ := backed_parts.derived_of_true (changeVariable_backed d _)
    fun _ => changeVariable_backed d _
  keyed d _ := backed_parts.derived_of_true (changeVariable_backed d _)
    fun _ => changeVariableWith_backed d _
  element d _ := backed_parts.derived_of_true (changeVariable_backed d _)
    fun _ => changeVariableWith_backed d _
  pushed d _ := backed_parts.derived_of_true (changeVariable_backed d _)
    fun _ => changeVariableWith_backed d _
  self d _ _ := changeVariable_backed d _
  property d _ _ _ := backed_parts.derived_of_true (changeVariable_backed d _)
    fun _ => changeVariable_backed d _
  propertyPushed d _ _ _ := backed_parts.derived_of_true (changeVariable_backed d _)
    fun _ => changeVariableWith_backed d _
  argument fn _ _ _ := backed_parts.derived_of_true (changeRoutine_backed fn fun _ h => h)
    fun _ => changeRoutine_backed fn fun _ h => h

/-- Collecting a call keeps functions backed. -/
theorem collectCall_backed (n : Node) :
    Keeps State.Backed (fun _ => True) (s.collectCall n) := by
  have hobserves := s.observes_backed
  rw [collectCall]
  cases s.program.at? n.target with
  | none => exact .pure trivial
  | some callee =>
    simp only
    split
    · exact hobserves.collectMethodCall n callee
    · refine .read fun st _ => ?_
      cases (s.program.functionOf callee.id).bind (st.view s).routine? with
      | none => exact .pure trivial
      | some r =>
        refine Keeps.bind (State.changeRoutine_backed r.node ?_) fun _ _ => ?_
        · exact fun _ hbacked => hbacked
        · exact hobserves.addArguments r.node r.params 0 n.items

/-- Collecting a return keeps functions backed. -/
theorem collectReturn_backed (n : Node) :
    Keeps State.Backed (fun _ => True) (s.collectReturn n) := by
  refine .read fun st _ => ?_
  cases n.func.bind (st.view s).routine? with
  | none => exact .pure trivial
  | some r =>
    refine Keeps.bind (State.changeRoutine_backed r.node ?_) fun _ _ => ?_
    · exact fun _ hbacked => hbacked
    cases n.expr with
    | none => exact .pure trivial
    | some value =>
      -- The statement has a value, and what follows is about the function that has it.
      suffices hleads : Leads State.Backed (State.BackedAt r.node) _ from
        fun st hst => ⟨(hleads st hst).backed, trivial⟩
      refine (State.changeRoutine_valued r.node).bind (R := fun _ => True) fun _ => ?_
      cases s.program.node? value with
      | none => exact .pure trivial
      | some expr =>
        simp only
        split
        · exact .pure trivial
        · refine Keeps.bind (Q := fun _ => True) (fun st hst => ⟨hst, trivial⟩) fun answer _ => ?_
          split
          · exact State.changeRoutine_backedAt r.node fun _ => ⟨rfl, rfl⟩
          · split
            · exact .pure trivial
            · exact State.changeRoutine_backedAt r.node fun _ => ⟨rfl, rfl⟩

/-- Collecting a node keeps functions backed. -/
theorem collectNode_backed (n : Node) : Keeps State.Backed (fun _ => True) (s.collectNode n) := by
  cases hn : n.unsupported with
  | false =>
    exact s.observes_backed.collectNode (fun d => State.changeVariable_backed d _) hn
      (fun _ => collectCall_backed n) fun _ => collectReturn_backed n
  | true =>
    rw [collectNode, if_pos hn]
    exact State.withStore_backed _

/-- After the walk all functions are backed. -/
theorem collect_backed (s : Subject) : s.collect.Backed := by
  have hnodes (ns : List Node) : Keeps State.Backed (fun _ => True) (ns.forM s.collectNode) := by
    induction ns with
    | nil => exact .pure trivial
    | cons n ns ih => exact (collectNode_backed n).bind fun _ _ => ih
  refine (hnodes s.program.nodes.toList s.initialState ?_).1
  intro r hr hvoid
  obtain ⟨n, -, rfl⟩ := List.mem_map.mp hr
  exact ⟨rfl, rfl, rfl⟩

end Subject

/-! ## Runs -/

/-- The functions as they are seen at a point of a run and at a later one. -/
abbrev SeenLater : List Routine → List Routine → Prop := List.Forall₂ Routine.Later

instance : Std.Refl SeenLater := ⟨List.forall₂_refl⟩

instance : IsTrans (List Routine) SeenLater where
  trans _ _ _ h h' := forall₂_trans (R := Routine.Later) (fun _ _ _ => trans_of Routine.Later) h h'

/-- Later forms of backed functions are backed. -/
theorem State.Backed.later {st st' : State} (h : st.Backed) (hlater : SeenLater st.routines st'.routines) :
    st'.Backed := by
  intro r' hr'
  obtain ⟨r, hr, hrr'⟩ := exists_of_mem_right hlater hr'
  exact hrr'.backed (h r hr)

namespace Subject

variable {s : Subject} (hp : s.program.Numbered) {st : State}

include hp

/-- What is seen while functions are settled is a trail of later forms. -/
theorem phaseHistory_trail {rs : List Routine} (h : Due st rs) (hst : st.Backed) :
    Trail SeenLater st.routines (s.routinePhase rs st).2.routines (s.phaseHistory rs st) := by
  induction rs generalizing st with
  | nil => exact .single _
  | cons r rs ih =>
    have hstep : Trail SeenLater st.routines (s.routineStep r st).2.routines
        ((r.forms (st.view s) st.toStore).map (·.replaceIn st.routines)) := by
      have hforms := (Routine.forms_trail (st.view s) st.toStore (hst r h.head)).map
        fun _ _ hlater => hlater.replaceIn st.routines
      rwa [Routine.replaceIn_self h.regular.nodup h.head] at hforms
    rw [routinePhase_cons, andThen_apply]
    exact hstep.append (refl_of SeenLater _) (ih (h.step hp) (hst.later hstep.rel))

/-- What is seen in one pass is a trail of later forms. -/
theorem roundHistory_trail (hst : st.Regular) (hbacked : st.Backed) :
    Trail SeenLater st.routines (s.round st).2.routines (s.roundHistory st) := by
  have hcollapsed := collapsePhase_spec hst.wellFormed
  have hpass : Trail SeenLater _ (s.pass st).2.routines _ :=
    phaseHistory_trail hp (due_dischargePhase hp (hcollapsed.regular hst)) hbacked
  have hsettled : SeenLater (s.pass st).2.routines (s.round st).2.routines := by
    cases hchanged : (s.pass st).1 with
    | true =>
      rw [round_of_changed hchanged]
      exact refl_of SeenLater _
    | false =>
      rw [round_of_unchanged hchanged, settleReturns_apply]
      exact List.forall₂_map_right_iff.mpr (List.forall₂_same.mpr fun r _ => r.later_settle)
  have hfirst : Trail SeenLater st.routines (s.pass st).2.routines
      (st.routines :: (collapsePhase st).2.routines :: _) :=
    .cons (refl_of SeenLater _) (.cons (refl_of SeenLater _) hpass)
  exact hfirst.append hsettled (.single _)

/-- What is seen in a series of passes is a trail of later forms. -/
theorem historyFrom_trail (done left : Nat) (hst : st.Regular) (hbacked : st.Backed) :
    Trail SeenLater st.routines (s.passes done left st).state.routines (s.historyFrom left st) := by
  induction left generalizing done st with
  | zero => exact .cons (refl_of SeenLater _) (.single _)
  | succ left ih =>
    have hround := roundHistory_trail hp hst hbacked
    rw [passes_succ, historyFrom]
    split
    · exact hround.append (refl_of SeenLater _)
        (ih (done + 1) (round_regular hp hst) (hbacked.later hround.rel))
    · rwa [List.append_nil]

end Subject

/-- **What a function is seen to return is final.** A run starts from the collected evidence and ends in
that of its result. A function that is seen to return a layout at some point of the run is seen to return
it at every later point; and if the function is listed in the result, then with this layout. -/
theorem returned_final {source : Source} {script : Script} {p : Program}
    (hp : Program.ofScript source script = .ok p) (max : Int) :
    let s := Subject.of p
    let history := s.history (if max ≤ 0 then defaultMaxIterations else max.toNat)
    history.head? = some s.collect.routines
      ∧ history.getLast? = some (runInference p max).state.routines
      ∧ history.Pairwise (List.Forall₂ fun r r' =>
        r'.node = r.node ∧ (r.returned ≠ .missing → r'.returned = r.returned))
      ∧ ∀ seen ∈ history, ∀ r ∈ seen, r.returned ≠ .missing →
        ∀ f ∈ (runInference p max).functions, f.node = r.node → f.returned = r.returned := by
  intro s history
  have hnumbered : s.program.Numbered := Program.ofScript_numbered hp
  have htrail : Trail SeenLater s.collect.routines (runInference p max).state.routines history :=
    Subject.historyFrom_trail hnumbered 0 _ (Subject.collect_regular hnumbered) s.collect_backed
  refine ⟨htrail.head?_eq, htrail.getLast?_eq, ?_, ?_⟩
  · exact htrail.pairwise.imp fun h => h.imp fun _ _ hlater => ⟨hlater.node, hlater.returned⟩
  · intro seen hseen r hr hreturned f hf hnode
    have hlast := htrail.forall_rel_last seen hseen
    obtain ⟨r', hr', rfl⟩ := List.mem_map.mp hf
    obtain ⟨r₀, hr₀, hlater⟩ := exists_of_mem_right hlast (List.mem_of_mem_filter hr')
    -- A function has one place among those that are seen.
    have hnodup : (seen.map (·.node)).Nodup := by
      rw [← map_eq_map_of_forall₂ hlast fun _ _ h => h.node]
      exact (Subject.resolve_ends hnumbered _).1.nodup
    obtain rfl := List.inj_on_of_nodup_map hnodup hr₀ hr (hlater.node.symm.trans hnode)
    have hsame := hlater.returned hreturned
    calc (r'.signature p _).returned = r'.shownReturn := rfl
      _ = r'.returned := if_pos (hsame ▸ hreturned)
      _ = r₀.returned := hsame

/-- `function f(a) { return { x: a }; } function g() { return f(1); } function h() {} g(); h();` -/
def Script.shapedReturn : Script :=
  ⟨[.function ⟨0, 0⟩ "f" [.mk (.name ⟨0, 0⟩ "a") none] none (.mk ⟨0, 0⟩
      [.ret ⟨0, 0⟩ (some (.object ⟨0, 0⟩ [memberOf "x" (nameOf "a")]))]),
    .function ⟨0, 0⟩ "g" [] none (.mk ⟨0, 0⟩
      [.ret ⟨0, 0⟩ (some (.call ⟨0, 0⟩ (nameOf "f") [numberOf "1"]))]),
    .function ⟨0, 0⟩ "h" [] none (.mk ⟨0, 0⟩ []),
    .expression ⟨0, 0⟩ (.call ⟨0, 0⟩ (nameOf "g") []),
    .expression ⟨0, 0⟩ (.call ⟨0, 0⟩ (nameOf "h") [])]⟩

/-- The record that `f` returns is seen when its property is known, and after it what `g` returns, in the
same pass. -/
theorem returned_final_shapedReturn :
    let history := (Subject.of Script.shapedReturn.program).history 64
    Program.ofScript ⟨"main.js", []⟩ Script.shapedReturn = .ok Script.shapedReturn.program
      ∧ (history.map (·.map (·.returned))).eraseDups
        = [[.missing, .missing, .void], [.record 2, .missing, .void], [.record 2, .record 2, .void]]
      ∧ history.Pairwise (List.Forall₂ fun r r' =>
        r'.node = r.node ∧ (r.returned ≠ .missing → r'.returned = r.returned))
      ∧ (runInference Script.shapedReturn.program 0).functions.map (fun f => (f.name, f.returned))
        = [("f", .record 2), ("g", .record 2), ("h", .void)] := by
  have hscript := Script.ofScript_eq_ok Script.shapedReturn (by decide +kernel)
  exact ⟨hscript, by decide +kernel, (returned_final hscript 0).2.2.1, by decide +kernel⟩

end LayoutInference
