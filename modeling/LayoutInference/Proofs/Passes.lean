import Mathlib
import LayoutInference.Proofs.Promises

/-!
# Passes

A pass picks winners and then goes over the promises of variables and functions. `Advances` says what
is needed of the second part, and of each of its steps: promises that wait get fewer when something
changes, and a step that changes nothing could be repeated without end.

Handing argument layouts on to parameters can change evidence without keeping a promise, when a
candidate that was handed over before has been replaced. After every pass all argument layouts have
been handed over (`State.Propagated`), so from the second pass on this happens only together with a
promise that was kept.
-/

namespace LayoutInference

/-- Whatever stands in the second of two related lists is related to something in the first. -/
theorem exists_of_mem_right {α β : Type} {R : α → β → Prop} {as : List α} {bs : List β}
    (h : List.Forall₂ R as bs) {b : β} (hb : b ∈ bs) : ∃ a ∈ as, R a b := by
  induction h with
  | nil => exact absurd hb (by simp)
  | cons hab _ ih =>
    rcases List.mem_cons.mp hb with rfl | hb
    · exact ⟨_, List.mem_cons_self .., hab⟩
    · obtain ⟨a, ha, hR⟩ := ih hb
      exact ⟨a, List.mem_cons_of_mem _ ha, hR⟩

/-- Related lists have the same image under a function that the relation keeps. -/
theorem map_eq_map_of_forall₂ {α β : Type} {R : α → α → Prop} {f : α → β} {as bs : List α}
    (h : List.Forall₂ R as bs) (hf : ∀ a b, R a b → f b = f a) : bs.map f = as.map f := by
  induction h with
  | nil => rfl
  | cons hab _ ih => rw [List.map_cons, List.map_cons, hf _ _ hab, ih]

/-- Lists that are related through a third are related, if the relation is transitive. -/
theorem forall₂_trans {α : Type} {R : α → α → Prop} (hR : ∀ a b c, R a b → R b c → R a c)
    {as bs cs : List α} (h : List.Forall₂ R as bs) (h' : List.Forall₂ R bs cs) :
    List.Forall₂ R as cs := by
  induction h generalizing cs with
  | nil => exact h'
  | cons hab _ ih =>
    cases h' with
    | cons hbc h' => exact .cons (hR _ _ _ hab hbc) (ih h')

/-! ## Handing over -/

namespace Variable

/-- The variable `v'` is `v` with more candidates. -/
def Extends (v v' : Variable) : Prop := ∃ more, v' = { v with candidates := v.candidates ++ more }

/-- A variable extends itself. -/
theorem Extends.refl (v : Variable) : v.Extends v := ⟨[], by simp⟩

/-- A variable that extends an extension extends the first. -/
theorem Extends.trans {v v' v'' : Variable} (h : v.Extends v') (h' : v'.Extends v'') :
    v.Extends v'' := by
  obtain ⟨more, rfl⟩ := h
  obtain ⟨more', rfl⟩ := h'
  exact ⟨more ++ more', by simp⟩

/-- A variable with one more candidate extends it. -/
theorem extends_addCandidate (v : Variable) (l : Layout) : v.Extends (v.addCandidate l) := by
  rw [addCandidate]
  split
  · exact ⟨[l], rfl⟩
  · exact Extends.refl v

/-- What is no new candidate stays none. -/
theorem Extends.accepts {v v' : Variable} (h : v.Extends v') {l : Layout}
    (hl : v.accepts l = false) : v'.accepts l = false := by
  obtain ⟨more, rfl⟩ := h
  simp only [Variable.accepts, Bool.and_eq_false_iff, Bool.not_eq_false'] at hl ⊢
  refine hl.imp_right fun hsame => ?_
  rw [hasSame, List.any_append, ← hasSame, hsame, Bool.true_or]

/-- A candidate that was added is not accepted again. -/
theorem accepts_addCandidate (v : Variable) (l : Layout) :
    (v.addCandidate l).accepts l = false := by
  rw [addCandidate]
  split
  · simp [Variable.accepts, hasSame, Layout.same_refl]
  · simpa using ‹¬v.accepts l = true›

/-- A layout that is not accepted changes nothing. -/
theorem addCandidate_of_not_accepts {v : Variable} {l : Layout} (h : v.accepts l = false) :
    v.addCandidate l = v := by
  rw [addCandidate, h]
  rfl

end Variable

namespace Routine

/-- All argument layouts are candidates of their parameters. -/
def Taken (p : Program) (params : List NodeId) (slots : List Slot) (vars : List Variable) : Prop :=
  ∀ a ∈ params.zip slots, ∀ v ∈ vars, p.declaration a.1 = some v.decl → v.accepts a.2.layout = false

/-- What handing over makes of variables. -/
def Handed (vars vars' : List Variable) : Prop := List.Forall₂ Variable.Extends vars vars'

/-- Variables are handed over as they are. -/
theorem handed_refl (vars : List Variable) : Handed vars vars :=
  List.forall₂_same.mpr fun v _ => Variable.Extends.refl v

/-- Variables that are handed over twice are handed over. -/
theorem Handed.trans {vars vars' vars'' : List Variable} (h : Handed vars vars')
    (h' : Handed vars' vars'') : Handed vars vars'' :=
  forall₂_trans (R := Variable.Extends) (fun _ _ _ => Variable.Extends.trans) h h'

/-- Handing over makes no promises. -/
theorem Handed.promisesOf_eq {vars vars' : List Variable} (h : Handed vars vars') :
    Variable.promisesOf vars' = Variable.promisesOf vars := by
  have hmap : vars'.map (·.promises) = vars.map (·.promises) := by
    refine map_eq_map_of_forall₂ h ?_
    rintro v v' ⟨more, rfl⟩
    rfl
  rw [Variable.promisesOf, Variable.promisesOf, List.flatMap_def, List.flatMap_def, hmap]

/-- Argument layouts that were taken stay taken when more are handed over. -/
theorem Taken.handed {p : Program} {params : List NodeId} {slots : List Slot}
    {vars vars' : List Variable} (h : Taken p params slots vars) (hvars : Handed vars vars') :
    Taken p params slots vars' := by
  intro a ha v' hv' hdecl
  obtain ⟨v, hv, hext⟩ := exists_of_mem_right hvars hv'
  have hdecl' : v'.decl = v.decl := by
    obtain ⟨more, rfl⟩ := hext
    rfl
  exact hext.accepts (h a ha v hv (hdecl' ▸ hdecl))

/-- Handing an argument over only adds candidates. -/
theorem handed_handOver (p : Program) (param : NodeId) (slot : Slot) (vars : List Variable) :
    Handed vars (handOver p param slot vars).1 := by
  unfold handOver
  split
  · exact handed_refl vars
  · refine List.forall₂_map_right_iff.mpr (List.forall₂_same.mpr fun v _ => ?_)
    split
    · exact v.extends_addCandidate slot.layout
    · exact Variable.Extends.refl v

/-- An argument that no variable accepts is not handed over. -/
theorem handOver_of_not_accepts {p : Program} {param : NodeId} {slot : Slot} {vars : List Variable}
    (h : ∀ v ∈ vars, p.declaration param = some v.decl → v.accepts slot.layout = false) :
    handOver p param slot vars = (vars, false) := by
  unfold handOver
  split
  · rfl
  · next decl hdecl =>
    refine Prod.ext ?_ ?_
    · refine (List.map_congr_left fun v hv => ?_).trans (List.map_id vars)
      split
      · next heq => exact Variable.addCandidate_of_not_accepts (h v hv (heq ▸ hdecl))
      · rfl
    · refine List.any_eq_false.mpr fun v hv hboth => ?_
      simp only [Bool.and_eq_true, decide_eq_true_eq] at hboth
      have hnot := h v hv (hboth.1 ▸ hdecl)
      rw [hboth.2] at hnot
      cases hnot

/-- An argument that was handed over is not accepted again. -/
theorem accepts_handOver {p : Program} {param : NodeId} {slot : Slot} {vars : List Variable} :
    ∀ v ∈ (handOver p param slot vars).1, p.declaration param = some v.decl →
      v.accepts slot.layout = false := by
  intro v' hv' hdecl'
  unfold handOver at hv'
  split at hv'
  · next hnone =>
    rw [hnone] at hdecl'
    cases hdecl'
  · next decl hdecl =>
    obtain ⟨v, -, rfl⟩ := List.mem_map.mp hv'
    rw [hdecl] at hdecl'
    split
    · exact v.accepts_addCandidate slot.layout
    · next hne =>
      rw [if_neg hne] at hdecl'
      exact absurd (Option.some.inj hdecl').symm hne

/-- If handing over changes nothing, no variable accepted the argument. -/
theorem not_accepts_of_handOver {p : Program} {param : NodeId} {slot : Slot} {vars : List Variable}
    (h : (handOver p param slot vars).2 = false) :
    ∀ v ∈ vars, p.declaration param = some v.decl → v.accepts slot.layout = false := by
  intro v hv hdecl
  rw [handOver, hdecl] at h
  have hnot := List.any_eq_false.mp h v hv
  simpa using hnot

/-- Handing all arguments over only adds candidates. -/
theorem handed_propagate (p : Program) (params : List NodeId) (slots : List Slot)
    (vars : List Variable) : Handed vars (propagate p params slots vars).1 := by
  induction params generalizing slots vars with
  | nil => exact handed_refl vars
  | cons param params ih =>
    cases slots with
    | nil => exact handed_refl vars
    | cons slot slots =>
      exact (handed_handOver p param slot vars).trans (ih slots _)

/-- Handing over what was handed over changes nothing. -/
theorem propagate_of_taken {p : Program} {params : List NodeId} {slots : List Slot}
    {vars : List Variable} (h : Taken p params slots vars) :
    propagate p params slots vars = (vars, false) := by
  induction params generalizing slots with
  | nil => rfl
  | cons param params ih =>
    cases slots with
    | nil => rfl
    | cons slot slots =>
      have hfirst := handOver_of_not_accepts (h (param, slot) (List.mem_cons_self ..))
      rw [propagate, hfirst]
      simp only
      rw [ih fun a ha => h a (List.mem_cons_of_mem _ ha)]
      rfl

/-- After all arguments are handed over they are taken. -/
theorem taken_propagate (p : Program) (params : List NodeId) (slots : List Slot)
    (vars : List Variable) : Taken p params slots (propagate p params slots vars).1 := by
  induction params generalizing slots vars with
  | nil => exact fun a ha => absurd ha (by simp)
  | cons param params ih =>
    cases slots with
    | nil => exact fun a ha => absurd ha (by simp)
    | cons slot slots =>
      refine List.forall_mem_cons.mpr ⟨?_, ih slots _⟩
      have hfirst : Taken p [param] [slot] (handOver p param slot vars).1 := by
        simpa [Taken] using accepts_handOver
      have hlater := hfirst.handed (handed_propagate p params slots _)
      exact hlater (param, slot) (List.mem_singleton_self _)

/-- When handing over reports no change, there was nothing to hand over. -/
theorem taken_of_propagate {p : Program} {params : List NodeId} {slots : List Slot}
    {vars : List Variable} (h : (propagate p params slots vars).2 = false) :
    Taken p params slots vars := by
  induction params generalizing slots vars with
  | nil => exact fun a ha => absurd ha (by simp)
  | cons param params ih =>
    cases slots with
    | nil => exact fun a ha => absurd ha (by simp)
    | cons slot slots =>
      obtain ⟨hfirst, hlater⟩ : (handOver p param slot vars).2 = false
          ∧ (propagate p params slots (handOver p param slot vars).1).2 = false :=
        Bool.or_eq_false_iff.mp h
      have hnot := not_accepts_of_handOver hfirst
      refine List.forall_mem_cons.mpr ⟨hnot, ih ?_⟩
      rwa [handOver_of_not_accepts hnot] at hlater

/-- Arguments of known layouts leave the evidence about known records. -/
theorem propagate_known {r : Registry} (p : Program) (params : List NodeId) {slots : List Slot}
    (hslots : ∀ slot ∈ slots, slot.Known r) {vars : List Variable} (hvars : ∀ v ∈ vars, v.Known r) :
    ∀ v ∈ (propagate p params slots vars).1, v.Known r := by
  induction params generalizing slots vars with
  | nil => exact hvars
  | cons param params ih =>
    cases slots with
    | nil => exact hvars
    | cons slot slots =>
      obtain ⟨hslot, hslots⟩ := List.forall_mem_cons.mp hslots
      refine ih hslots ?_
      split
      · exact hvars
      · intro v' hv'
        obtain ⟨v, hv, rfl⟩ := List.mem_map.mp hv'
        split
        · exact (hvars v hv).addCandidate hslot
        · exact hvars v hv

/-- The functions `rs` with `r` in the place of the one with its number. -/
def replaceIn (r : Routine) (rs : List Routine) : List Routine :=
  rs.map fun other => if other.node = r.node then r else other

/-- A function among those with a replacement is the replacement or another one. -/
theorem mem_replaceIn {r other : Routine} {rs : List Routine} (h : other ∈ r.replaceIn rs) :
    other = r ∨ other ∈ rs ∧ other.node ≠ r.node := by
  obtain ⟨other, hother, rfl⟩ := List.mem_map.mp h
  split
  · exact .inl rfl
  · next hne => exact .inr ⟨hother, hne⟩

/-- What holds of the replacement and of all functions holds after it took its place. -/
theorem forall_mem_replaceIn {P : Routine → Prop} {r : Routine} {rs : List Routine} (hr : P r)
    (hrs : ∀ other ∈ rs, P other) : ∀ other ∈ r.replaceIn rs, P other := by
  intro other hmem
  rcases mem_replaceIn hmem with rfl | ⟨hother, -⟩
  · exact hr
  · exact hrs other hother

/-- A function with another node keeps its place. -/
theorem mem_replaceIn_of_ne {r other : Routine} {rs : List Routine} (hother : other ∈ rs)
    (hne : other.node ≠ r.node) : other ∈ r.replaceIn rs :=
  List.mem_map.mpr ⟨other, hother, if_neg hne⟩

/-- A replacement leaves the nodes of the functions in their order. -/
theorem map_node_replaceIn (r : Routine) (rs : List Routine) :
    (r.replaceIn rs).map (·.node) = rs.map (·.node) := by
  refine List.map_map.trans (List.map_congr_left fun other _ => ?_)
  simp only [Function.comp_apply]
  split
  · next hsame => exact hsame.symm
  · rfl

/-- Putting a function in a place that is not there changes nothing. -/
theorem replaceIn_of_notMem {r : Routine} {rs : List Routine} (h : r.node ∉ rs.map (·.node)) :
    r.replaceIn rs = rs := by
  refine (List.map_congr_left fun other hother => if_neg fun hsame => h ?_).trans (List.map_id rs)
  exact List.mem_map.mpr ⟨other, hother, hsame⟩

/-- Putting a function in its own place changes nothing. -/
theorem replaceIn_self {r : Routine} {rs : List Routine} (hnodup : (rs.map (·.node)).Nodup)
    (hr : r ∈ rs) : r.replaceIn rs = rs := by
  refine (List.map_congr_left fun other hother => ?_).trans (List.map_id rs)
  split
  · next hsame => exact (List.inj_on_of_nodup_map hnodup hother hr hsame).symm
  · rfl

/-- The promises of one function give way to those of the one in its place. -/
theorem waiting_replaceIn {r r' : Routine} {rs : List Routine} (hnodup : (rs.map (·.node)).Nodup)
    (hr : r ∈ rs) (hnode : r'.node = r.node) :
    waiting ((r'.replaceIn rs).flatMap promises) + waiting r.promises
      = waiting (rs.flatMap promises) + waiting r'.promises := by
  induction rs with
  | nil => exact absurd hr (by simp)
  | cons first rest ih =>
    obtain ⟨hfirst, hrest⟩ := List.nodup_cons.mp hnodup
    -- There is one place to change: the first one, or one of the rest.
    rcases List.mem_cons.mp hr with rfl | hmem
    · have hkeep : r'.replaceIn rest = rest := replaceIn_of_notMem (by rwa [hnode])
      have hhead : r'.replaceIn (r :: rest) = r' :: r'.replaceIn rest := by
        rw [replaceIn, List.map_cons, if_pos hnode.symm]
        rfl
      rw [hhead, hkeep, List.flatMap_cons, List.flatMap_cons, waiting_append, waiting_append]
      omega
    · have hne : first.node ≠ r'.node := by
        intro hsame
        exact hfirst (List.mem_map.mpr ⟨r, hmem, (hsame.trans hnode).symm⟩)
      have hhead : r'.replaceIn (first :: rest) = first :: r'.replaceIn rest := by
        rw [replaceIn, List.map_cons, if_neg hne]
        rfl
      have hlater := ih hrest hmem
      rw [hhead, List.flatMap_cons, List.flatMap_cons, waiting_append, waiting_append]
      omega

end Routine

/-! ## Steps of a pass -/

namespace State

/-- What passes rely on: a well-formed state in which every function has one place. -/
structure Regular (st : State) : Prop where
  wellFormed : st.WellFormed
  nodup : (st.routines.map (·.node)).Nodup

/-- All promises of a state. -/
def promises (st : State) : List Promise :=
  Variable.promisesOf st.vars ++ st.routines.flatMap Routine.promises

/-- The number of promises that wait. -/
def waiting (st : State) : Nat := LayoutInference.waiting st.promises

/-- Whether returned properties are still waited for. -/
def shaping (st : State) : Bool := st.routines.any Routine.shaping

/-- All argument layouts are candidates of their parameters. -/
def Propagated (p : Program) (st : State) : Prop :=
  ∀ r ∈ st.routines, Routine.Taken p r.params r.args st.vars

/-- The state with another store. -/
def withOther (st : State) (store : Store) : State := { st with toStore := store }

end State

/-- The step `m` changes nothing but the store, and nothing at all when it is repeated at any later
time. -/
def Rests (m : StateM State Bool) (st : State) : Prop :=
  ∃ store : Store, store.WellFormed ∧ st.toStore ≤ store ∧ m st = (false, st.withOther store)
    ∧ ∀ store' : Store, store'.WellFormed → store ≤ store' →
      m (st.withOther store') = (false, st.withOther store')

/-- What a step of a pass does; see the head of this module. -/
structure Advances (p : Program) (m : StateM State Bool) (st : State) : Prop where
  sound : (m st).2.WellFormed
  grows : st ≤ (m st).2
  waiting : (m st).2.waiting ≤ st.waiting
  shaping : (m st).2.shaping = true → st.shaping = true
  quiet : (m st).1 = false → Rests m st
  loud : st.Propagated p → (m st).1 = true → (m st).2.waiting < st.waiting

/-- One step after the other. -/
def andThen (m m' : StateM State Bool) : StateM State Bool := do
  let changed ← m
  let changedLater ← m'
  return changed || changedLater

/-- One step after the other reports a change if either does. -/
theorem andThen_apply (m m' : StateM State Bool) (st : State) :
    andThen m m' st = ((m st).1 || (m' (m st).2).1, (m' (m st).2).2) := rfl

/-- Steps that rest one after the other rest together. -/
theorem Rests.andThen {m m' : StateM State Bool} {st : State} (h : Rests m st)
    (h' : Rests m' (m st).2) : Rests (andThen m m') st := by
  obtain ⟨store, hstore, hle, heq, hagain⟩ := h
  rw [heq] at h'
  obtain ⟨store', hstore', hle', heq', hagain'⟩ := h'
  refine ⟨store', hstore', hle.trans hle', ?_, fun store'' hstore'' hle'' => ?_⟩
  · rw [andThen_apply, heq, heq']
    rfl
  · have hlater : m' (st.withOther store'') = (false, st.withOther store'') :=
      hagain' store'' hstore'' hle''
    rw [andThen_apply, hagain store'' hstore'' (hle'.trans hle''), hlater]
    rfl

/-- A step of a pass keeps a state regular. -/
theorem Advances.regular {p : Program} {m : StateM State Bool} {st : State} (h : Advances p m st)
    (hst : st.Regular) : (m st).2.Regular :=
  ⟨h.sound, by rw [h.grows.nodes]; exact hst.nodup⟩

/-- Steps of a pass may be put one after the other. -/
theorem Advances.andThen {p : Program} {m m' : StateM State Bool} {st : State}
    (h : Advances p m st) (h' : Advances p m' (m st).2) : Advances p (andThen m m') st where
  sound := h'.sound
  grows := h.grows.trans h'.grows
  waiting := h'.waiting.trans h.waiting
  shaping hshaping := h.shaping (h'.shaping hshaping)
  quiet hquiet := by
    obtain ⟨hfirst, hlater⟩ := Bool.or_eq_false_iff.mp hquiet
    exact (h.quiet hfirst).andThen (h'.quiet hlater)
  loud hst hloud := by
    by_cases hfirst : (m st).1 = true
    · exact lt_of_le_of_lt h'.waiting (h.loud hst hfirst)
    · -- The first step changed nothing, so the second one starts from the same evidence.
      rw [Bool.not_eq_true] at hfirst
      obtain ⟨store, -, -, heq, -⟩ := h.quiet hfirst
      have hlater : (m' (m st).2).1 = true := by simpa [andThen_apply, hfirst] using hloud
      have hpropagated : (m st).2.Propagated p := by
        rw [heq]
        exact hst
      exact lt_of_lt_of_le (h'.loud hpropagated hlater) h.waiting

namespace Subject

variable {s : Subject} {st : State} (hp : s.program.Numbered) (hst : st.WellFormed)

/-- The view of a well-formed state speaks of known records. -/
theorem view_known (hst : st.WellFormed) : (st.view s).Known st.toStore :=
  ⟨fun v hv => (hst.vars v hv).winner, fun r hr => (hst.routines r hr).ret⟩

section Rounds

include hp hst

/-- The promises of all variables are gone through as described. -/
theorem variables_runs : Runs True (Variable.AllDischarged (st.view s) st.vars)
    (Variable.dischargeAll (st.view s) st.vars) st.toStore :=
  Variable.dischargeAll_runs hp hst.store (view_known hst) hst.vars

/-- The promises of a function are gone through as described. -/
theorem routine_runs {r : Routine} (hr : r ∈ st.routines) :
    Runs True (Routine.Discharged (st.view s) r) (r.discharge (st.view s)) st.toStore :=
  Routine.discharge_runs hp hst.store (view_known hst) (hst.routines r hr)

end Rounds

/-- The second part of a pass, over the promises of variables. -/
theorem dischargePhase_apply (s : Subject) (st : State) :
    s.dischargePhase st = ((Variable.dischargeAll (st.view s) st.vars st.toStore).1.2,
      { st with
        toStore := (Variable.dischargeAll (st.view s) st.vars st.toStore).2
        vars := (Variable.dischargeAll (st.view s) st.vars st.toStore).1.1 }) := rfl

/-- A phase that settles no promise of a variable changes the store alone. -/
theorem dischargePhase_of_unchanged {store store' : Store}
    (h : Variable.dischargeAll (st.view s) st.vars store = ((st.vars, false), store')) :
    s.dischargePhase (st.withOther store) = (false, st.withOther store') := by
  have happly := s.dischargePhase_apply (st.withOther store)
  have hall : Variable.dischargeAll ((st.withOther store).view s) (st.withOther store).vars
      (st.withOther store).toStore = ((st.vars, false), store') := h
  rw [hall] at happly
  exact happly

include hp hst

/-- The phase that settles the promises of variables is a step of a pass. -/
theorem dischargePhase_advances : Advances s.program s.dischargePhase st := by
  have hruns := variables_runs hp hst
  obtain ⟨hupdates, hwaiting, hrests⟩ := hruns.holds
  constructor
  case sound =>
    refine ⟨hruns.sound, fun v' hv' => ?_, fun r hr => (hst.routines r hr).mono hruns.grows.registry⟩
    obtain ⟨v, -, hv⟩ := exists_of_mem_right hupdates hv'
    exact hv.known
  case grows =>
    exact ⟨hruns.grows, map_eq_map_of_forall₂ hupdates fun _ _ h => h.decl, rfl⟩
  case waiting =>
    simp only [dischargePhase_apply, State.waiting, State.promises, waiting_append]
    omega
  case shaping =>
    exact fun h => h
  case quiet =>
    intro hquiet
    -- Nothing was kept, so the variables are as before and the phase can be repeated.
    have hflag : (Variable.dischargeAll (st.view s) st.vars st.toStore).1.2 = false := hquiet
    obtain ⟨hsame, -⟩ := hrests hflag
    have hnow : Variable.dischargeAll (st.view s) st.vars st.toStore = ((st.vars, false), _) :=
      Prod.ext (Prod.ext hsame hflag) rfl
    refine ⟨_, hruns.sound, hruns.grows, dischargePhase_of_unchanged hnow, fun store hstore hle => ?_⟩
    refine dischargePhase_of_unchanged ?_
    rw [hruns.repeats trivial store hstore hle, hnow]
  case loud =>
    intro _ hloud
    -- Something was kept, so fewer promises wait.
    have hflag : (Variable.dischargeAll (st.view s) st.vars st.toStore).1.2 = true := hloud
    simp only [hflag, Bool.toNat_true] at hwaiting
    simp only [dischargePhase_apply, State.waiting, State.promises, waiting_append]
    omega

omit hp hst

/-- One function of the third part of a pass. -/
theorem routineStep_apply (s : Subject) (r : Routine) (st : State) :
    s.routineStep r st =
      let settled := r.discharge (st.view s) st.toStore
      let handed := Routine.propagate s.program settled.1.1.params settled.1.1.args st.vars
      (settled.1.2 || handed.2, {
        toStore := settled.2
        vars := handed.1
        routines := settled.1.1.replaceIn st.routines }) := rfl

/-- A step for a function that settles no promise, with all arguments taken, changes the store alone. -/
theorem routineStep_of_unchanged (hnodup : (st.routines.map (·.node)).Nodup) {r : Routine}
    (hr : r ∈ st.routines) {store store' : Store}
    (h : r.discharge (st.view s) store = ((r, false), store'))
    (htaken : Routine.Taken s.program r.params r.args st.vars) :
    s.routineStep r (st.withOther store) = (false, st.withOther store') := by
  have happly := s.routineStep_apply r (st.withOther store)
  have hsettled : r.discharge ((st.withOther store).view s) (st.withOther store).toStore
      = ((r, false), store') := h
  have hhanded : Routine.propagate s.program r.params r.args (st.withOther store).vars
      = (st.vars, false) := Routine.propagate_of_taken htaken
  have hroutines : r.replaceIn (st.withOther store).routines = st.routines :=
    Routine.replaceIn_self hnodup hr
  rw [hsettled] at happly
  simp only [hhanded, hroutines] at happly
  exact happly

include hp

/-- Settling a function and handing its arguments on is a step of a pass. -/
theorem routineStep_advances (hst : st.Regular) {r : Routine} (hr : r ∈ st.routines) :
    Advances s.program (s.routineStep r) st := by
  obtain ⟨hst, hnodup⟩ := hst
  have hruns := routine_runs hp hst hr
  obtain ⟨hnode, -, hknown, -, hwaiting, hshaping, hrests⟩ := hruns.holds
  have hsound := hruns.sound
  have hgrows := hruns.grows
  have hrepeats := hruns.repeats trivial
  have happly := s.routineStep_apply r st
  simp only at happly
  generalize hsettled : r.discharge (st.view s) st.toStore = settled at *
  -- Promises are counted by function; handing over adds candidates only.
  have hvars := Routine.handed_propagate s.program settled.1.1.params settled.1.1.args st.vars
  have hroutines := Routine.waiting_replaceIn hnodup hr hnode
  constructor
  case sound =>
    rw [happly]
    refine ⟨hsound, ?_, Routine.forall_mem_replaceIn hknown ?_⟩
    · exact Routine.propagate_known s.program _ hknown.args
        fun v hv => (hst.vars v hv).mono hgrows.registry
    · exact fun other hother => (hst.routines other hother).mono hgrows.registry
  case grows =>
    rw [happly]
    refine ⟨hgrows, map_eq_map_of_forall₂ hvars ?_, Routine.map_node_replaceIn _ _⟩
    rintro v v' ⟨more, rfl⟩
    rfl
  case waiting =>
    simp only [happly, State.waiting, State.promises, waiting_append, hvars.promisesOf_eq]
    omega
  case shaping =>
    rw [happly, State.shaping, State.shaping, ← Bool.not_eq_false, ← Bool.not_eq_false, not_imp_not,
      List.any_eq_false, List.any_eq_false]
    exact fun hnone => Routine.forall_mem_replaceIn (fun h => hnone r hr (hshaping h)) hnone
  case quiet =>
    intro hquiet
    rw [happly] at hquiet
    obtain ⟨hflag, hhanded⟩ := Bool.or_eq_false_iff.mp hquiet
    obtain ⟨hsame, -⟩ := hrests hflag
    have hnow : r.discharge (st.view s) st.toStore = ((r, false), settled.2) := by
      rw [hsettled]
      exact Prod.ext (Prod.ext hsame hflag) rfl
    have htaken : Routine.Taken s.program r.params r.args st.vars := by
      rw [hsame] at hhanded
      exact Routine.taken_of_propagate hhanded
    refine ⟨_, hsound, hgrows, routineStep_of_unchanged hnodup hr hnow htaken, ?_⟩
    intro store hstore hle
    refine routineStep_of_unchanged hnodup hr ?_ htaken
    rw [hrepeats store hstore hle, ← hsettled, hnow]
  case loud =>
    intro hpropagated hloud
    simp only [happly, State.waiting, State.promises, waiting_append, hvars.promisesOf_eq]
    by_cases hflag : settled.1.2 = true
    · rw [hflag, Bool.toNat_true] at hwaiting
      omega
    · -- Nothing was settled, so there is nothing new to hand over.
      rw [Bool.not_eq_true] at hflag
      obtain ⟨hsame, -⟩ := hrests hflag
      have hhanded := Routine.propagate_of_taken (hpropagated r hr)
      rw [happly] at hloud
      simp [hflag, hsame, hhanded] at hloud

omit hp

/-- Functions are settled one after the other. -/
theorem routinePhase_cons (s : Subject) (r : Routine) (rs : List Routine) :
    s.routinePhase (r :: rs) = andThen (s.routineStep r) (s.routinePhase rs) := rfl

/-- Doing nothing is a step of a pass. -/
theorem pure_advances (hst : st.WellFormed) (p : Program) : Advances p (pure false) st where
  sound := hst
  grows := le_refl st
  waiting := le_refl _
  shaping h := h
  quiet _ := ⟨st.toStore, hst.store, le_refl _, rfl, fun _ _ _ => rfl⟩
  loud _ h := by cases h

/-- The functions `rs` are still to be settled: each of them has its place in the state. -/
structure Due (st : State) (rs : List Routine) : Prop where
  regular : st.Regular
  distinct : (rs.map (·.node)).Nodup
  mem : ∀ r ∈ rs, r ∈ st.routines

/-- At first all functions are due. -/
theorem due_routines (hst : st.Regular) : Due st st.routines := ⟨hst, hst.nodup, fun _ hr => hr⟩

/-- The next function that is due has its place in the state. -/
theorem Due.head {r : Routine} {rs : List Routine} (h : Due st (r :: rs)) : r ∈ st.routines :=
  h.mem r (List.mem_cons_self ..)

include hp

/-- Settling a function leaves its node. -/
theorem discharge_node (hst : st.WellFormed) {r : Routine} (hr : r ∈ st.routines) :
    (r.discharge (st.view s) st.toStore).1.1.node = r.node :=
  (routine_runs hp hst hr).holds.node

/-- The functions are settled one after the other; until its turn comes, each of them is what it was
at the beginning. -/
theorem Due.step {r : Routine} {rs : List Routine} (h : Due st (r :: rs)) :
    Due (s.routineStep r st).2 rs := by
  obtain ⟨hfirst, hrest⟩ := List.nodup_cons.mp h.distinct
  refine ⟨(routineStep_advances hp h.regular h.head).regular h.regular, hrest, fun other hother => ?_⟩
  rw [routineStep_apply]
  refine Routine.mem_replaceIn_of_ne (h.mem other (List.mem_cons_of_mem _ hother)) ?_
  rw [discharge_node hp h.regular.wellFormed h.head]
  exact fun hsame => hfirst (List.mem_map.mpr ⟨other, hother, hsame⟩)

/-- Settling the functions that are due is a step of a pass. -/
theorem routinePhase_advances {rs : List Routine} (h : Due st rs) :
    Advances s.program (s.routinePhase rs) st := by
  induction rs generalizing st with
  | nil => exact pure_advances h.regular.wellFormed s.program
  | cons r rs ih =>
    rw [routinePhase_cons]
    exact (routineStep_advances hp h.regular h.head).andThen (ih (h.step hp))

/-- After its turn the argument layouts of a function have been handed over, and stay so. -/
theorem routinePhase_propagates {rs : List Routine} (h : Due st rs)
    (hdone : ∀ r ∈ st.routines, r.node ∉ rs.map (·.node) →
      Routine.Taken s.program r.params r.args st.vars) :
    (s.routinePhase rs st).2.Propagated s.program := by
  induction rs generalizing st with
  | nil => exact fun r hr => hdone r hr (by simp)
  | cons r rs ih =>
    rw [routinePhase_cons, andThen_apply]
    refine ih (h.step hp) ?_
    rw [routineStep_apply]
    intro other hother hnot
    -- It was this function's turn, or that function had its turn before.
    rcases Routine.mem_replaceIn hother with rfl | ⟨hmem, hne⟩
    · exact Routine.taken_propagate s.program _ _ st.vars
    · rw [discharge_node hp h.regular.wellFormed h.head] at hne
      refine (hdone other hmem ?_).handed (Routine.handed_propagate s.program _ _ st.vars)
      rw [List.map_cons, List.mem_cons]
      exact fun hcase => hcase.elim hne hnot

omit hp

/-- What a pass does after winners are picked. -/
def promisePhase (s : Subject) : StateM State Bool :=
  andThen s.dischargePhase fun st => s.routinePhase st.routines st

/-- A pass picks winners and then settles promises. -/
theorem pass_apply (s : Subject) (st : State) :
    s.pass st = ((collapsePhase st).1 || (s.promisePhase (collapsePhase st).2).1,
      (s.promisePhase (collapsePhase st).2).2) :=
  Prod.ext (Bool.or_assoc _ _ _) rfl

include hp

/-- All functions are due when the promises of the variables have been looked at. -/
theorem due_dischargePhase (hst : st.Regular) :
    Due (s.dischargePhase st).2 (s.dischargePhase st).2.routines :=
  due_routines ((dischargePhase_advances hp hst.wellFormed).regular hst)

/-- What a pass does after winners are picked is a step of it. -/
theorem promisePhase_advances (hst : st.Regular) : Advances s.program s.promisePhase st := by
  have hlater := routinePhase_advances hp (due_dischargePhase hp hst)
  refine (dischargePhase_advances hp hst.wellFormed).andThen
    ⟨hlater.sound, hlater.grows, hlater.waiting, hlater.shaping, ?_, hlater.loud⟩
  exact hlater.quiet

/-- After a pass all arguments have been handed over. -/
theorem promisePhase_propagates (hst : st.Regular) :
    (s.promisePhase st).2.Propagated s.program := by
  refine routinePhase_propagates hp (due_dischargePhase hp hst) ?_
  exact fun r hr hnot => absurd (List.mem_map_of_mem hr) hnot

end Subject

end LayoutInference
