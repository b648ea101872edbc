import Mathlib
import LayoutInference.Proofs.Convergence
import LayoutInference.Proofs.StoreInvariants

/-!
# Invariants of evidence

An invariant of states often consists of parts: one of the store, one of each variable and one of each
function (`State.Parts`). A step of the walk changes a single variable or function, so it keeps the
invariant if the change keeps the part.

Passes pick winners, use the layouts that promises wait for, and hand argument layouts on.
`Subject.Settles` says what these ask of the parts. Then the invariant holds after any number of passes
(`Subject.Settles.after`) and when they end (`Subject.Settles.resolve`).
-/

namespace LayoutInference

/-! ## Parts of an invariant -/

/-- The invariant `J` says `I` of the store, `V` of every variable and `R` of every function. -/
def State.Parts (J : State → Prop) (I : Store → Prop) (V : Variable → Prop) (R : Routine → Prop) :
    Prop :=
  ∀ st, J st ↔ I st.toStore ∧ (∀ v ∈ st.vars, V v) ∧ ∀ r ∈ st.routines, R r

variable {J : State → Prop} {I : Store → Prop} {V : Variable → Prop} {R : Routine → Prop}

namespace State.Parts

/-- An invariant of stores. -/
theorem of_store (I : Store → Prop) :
    Parts (fun st => I st.toStore) I (fun _ => True) fun _ => True :=
  fun _ => ⟨fun h => ⟨h, fun _ _ => trivial, fun _ _ => trivial⟩, fun h => h.1⟩

/-- An invariant of variables. -/
theorem of_vars (V : Variable → Prop) :
    Parts (fun st => ∀ v ∈ st.vars, V v) (fun _ => True) V fun _ => True :=
  fun _ => ⟨fun h => ⟨trivial, h, fun _ _ => trivial⟩, fun h => h.2.1⟩

/-- An invariant of functions. -/
theorem of_routines (R : Routine → Prop) :
    Parts (fun st => ∀ r ∈ st.routines, R r) (fun _ => True) (fun _ => True) R :=
  fun _ => ⟨fun h => ⟨trivial, fun _ _ => trivial, h⟩, fun h => h.2.2⟩

variable (h : Parts J I V R)

include h

/-- A step of the store that keeps its part keeps the invariant. -/
theorem withStore {α : Type} {Q : α → Prop} {step : StateM Store α} (hstep : Keeps I Q step) :
    Keeps J Q (withStore step) := by
  intro st hst
  obtain ⟨hstore, hevidence⟩ := (h st).mp hst
  obtain ⟨hstore', hanswer⟩ := hstep st.toStore hstore
  exact ⟨(h _).mpr ⟨hstore', hevidence⟩, hanswer⟩

/-- A change of a variable that keeps its part keeps the invariant. -/
theorem changeVariable (decl : NodeId) {change : Variable → Variable}
    (hchange : ∀ v : Variable, v.decl = decl → V v → V (change v)) :
    Keeps J (fun _ => True) (changeVariable decl change) := by
  intro st hst
  obtain ⟨hstore, hvars, hroutines⟩ := (h st).mp hst
  refine ⟨(h _).mpr ⟨hstore, fun v' hv' => ?_, hroutines⟩, trivial⟩
  obtain ⟨v, hv, rfl⟩ := List.mem_map.mp hv'
  split
  · next hdecl => exact hchange v hdecl (hvars v hv)
  · exact hvars v hv

/-- A change of a function that keeps its part keeps the invariant. -/
theorem changeRoutine (fn : NodeId) {change : Routine → Routine}
    (hchange : ∀ r : Routine, r.node = fn → R r → R (change r)) :
    Keeps J (fun _ => True) (changeRoutine fn change) := by
  intro st hst
  obtain ⟨hstore, hvars, hroutines⟩ := (h st).mp hst
  refine ⟨(h _).mpr ⟨hstore, hvars, fun r' hr' => ?_⟩, trivial⟩
  obtain ⟨r, hr, rfl⟩ := List.mem_map.mp hr'
  split
  · next hnode => exact hchange r hnode (hroutines r hr)
  · exact hroutines r hr

/-- A change of a variable that may also register layouts keeps the invariant if it keeps both parts. -/
theorem changeVariableWith (decl : NodeId) {change : Variable → Registry → Variable × Registry}
    (hchange : ∀ v : Variable, V v → Keeps I V (Store.withRegistry (change v))) :
    Keeps J (fun _ => True) (changeVariableWith decl change) := by
  refine .read fun st hst => ?_
  split
  · exact .pure trivial
  · next v hfind =>
    have hv := ((h st).mp hst).2.1 v (List.mem_of_find?_eq_some hfind)
    exact (h.withStore (hchange v hv)).bind fun v' hv' => h.changeVariable decl fun _ _ _ => hv'

/-- What follows on a layout that is derived, or put off. -/
theorem derived {s : Subject} {A : Layout → Prop} {hint : String} {id : NodeId}
    (hdetermine : Keeps I (fun answer => ∀ l, answer = some l → A l) (s.determine hint id)) {α : Type}
    {Q : α → Prop} {f : Option Layout → StateM State α} (hnone : Keeps J Q (f none))
    (hsome : ∀ l, A l → Keeps J Q (f (some l))) : Keeps J Q (s.derived hint id >>= f) := by
  refine (h.withStore hdetermine).bind fun answer hanswer => ?_
  cases answer with
  | none => exact hnone
  | some l => exact hsome l (hanswer l rfl)

omit h in
/-- The same for an invariant that says nothing of the store. -/
theorem derived_of_true (h : Parts J (fun _ => True) V R) {s : Subject} {hint : String} {id : NodeId}
    {α : Type} {Q : α → Prop} {f : Option Layout → StateM State α} (hnone : Keeps J Q (f none))
    (hsome : ∀ l, Keeps J Q (f (some l))) : Keeps J Q (s.derived hint id >>= f) :=
  h.derived (A := fun _ => True) (fun _ _ => ⟨trivial, fun _ _ => trivial⟩) hnone fun l _ => hsome l

end State.Parts

/-! ## What passes ask -/

namespace Subject

/-- The view is one of the subject, and its evidence satisfies `V` and `R`. -/
structure Sees (s : Subject) (V : Variable → Prop) (R : Routine → Prop) (view : View) : Prop where
  subject : view.toSubject = s
  vars : ∀ v ∈ view.vars, V v
  routines : ∀ r ∈ view.routines, R r

/-- A view still sees what it should with one more function that satisfies its part. -/
theorem Sees.withRoutine {s : Subject} {view : View} (h : s.Sees V R view) {r : Routine} (hr : R r) :
    s.Sees V R (view.withRoutine r) :=
  ⟨h.subject, h.vars, Routine.forall_mem_replaceIn hr h.routines⟩

/-- What the steps of a pass ask of an invariant with the parts `I`, `V` and `R`, if the layouts that are
asked for satisfy `A`. A list of promises is gone through with those behind in front. -/
structure Settles (s : Subject) (I : Store → Prop) (A : Layout → Prop) (V : Variable → Prop)
    (R : Routine → Prop) : Prop where
  missing : A .missing
  answer {view : View} (hview : s.Sees V R view) (id : NodeId) : Keeps I A (view.layoutOf id)
  collapse {v : Variable} (hv : V v) : Keeps I (fun a => V a.1) (Store.withRegistry v.collapse)
  apply {v : Variable} {done ps : List Promise} {q : Promise}
    (hv : V { v with promises := done ++ q :: ps }) {l : Layout} (hl : A l) (hthere : l ≠ .missing) :
    Keeps I (fun a => V { a.1 with promises := done ++ { q with resolved := a.2 } :: ps })
      (Store.withRegistry (v.apply q l))
  /-- An argument layout is handed on to a parameter. -/
  candidate {v : Variable} (hv : V v) {l : Layout} (hl : A l) : V (v.addCandidate l)
  args {r : Routine} (hr : R r) : ∀ slot ∈ r.args, A slot.layout
  withArgs {r : Routine} (hr : R r) {args : List Slot} (hargs : ∀ slot ∈ args, A slot.layout) :
    R { r with args }
  shape {r : Routine} {done ps : List Promise} {q : Promise}
    (hr : R { r with retProps := done ++ q :: ps }) {l : Layout} (hl : A l) (hthere : l ≠ .missing) :
    Keeps I (fun r' => R { r' with retProps := done ++ { q with resolved := true } :: ps })
      (r.shape q.property l)
  ret {r : Routine} (hr : R r) {l : Layout} (hl : A l) : R { r with ret := l }
  retPromises {r : Routine} (hr : R r) (ps : List Promise) : R { r with retPromises := ps }
  settle {r : Routine} (hr : R r) : R r.settle

/-- An invariant of stores that operations on the registry keep. -/
theorem settles_of_store {s : Subject}
    (hregistry : ∀ {α : Type} (operation : Registry → α × Registry),
      Keeps I (fun _ => True) (Store.withRegistry operation))
    (hlayoutOf : ∀ {view : View}, view.toSubject = s →
      ∀ id, Keeps I (fun _ => True) (view.layoutOf id)) :
    s.Settles I (fun _ => True) (fun _ => True) fun _ => True where
  missing := trivial
  answer hview id := hlayoutOf hview.subject id
  collapse _ := hregistry _
  apply _ _ _ _ := hregistry _
  candidate _ _ _ := trivial
  args _ _ _ := trivial
  withArgs _ _ _ := trivial
  shape _ _ _ _ := by
    unfold Routine.shape
    split
    · exact (hregistry _).bind fun _ _ => .pure trivial
    · exact .pure trivial
  ret _ _ _ := trivial
  retPromises _ _ := trivial
  settle _ := trivial

/-- A relation between variables at two times that holds between the times before and after a step. -/
theorem settles_of_rel {s : Subject} {E : Variable → Variable → Prop}
    (htrans : ∀ {u v w : Variable}, E u v → E v w → E u w)
    (hcollapse : ∀ (v : Variable) (r : Registry), E v (v.collapse r).1.1)
    (happly : ∀ (v : Variable) (done : List Promise) (q : Promise) (ps : List Promise) (l : Layout)
      (r : Registry), E { v with promises := done ++ q :: ps }
        { (v.apply q l r).1.1 with
          promises := done ++ { q with resolved := (v.apply q l r).1.2 } :: ps })
    (hcandidate : ∀ (v : Variable) (l : Layout), E v (v.addCandidate l)) (vars : List Variable) :
    s.Settles (fun _ => True) (fun _ => True) (fun v => ∃ u ∈ vars, E u v) fun _ => True where
  missing := trivial
  answer _ _ _ _ := ⟨trivial, trivial⟩
  collapse := by
    rintro v ⟨u, hu, hv⟩ st -
    exact ⟨trivial, u, hu, htrans hv (hcollapse v st.registry)⟩
  apply := by
    rintro v done ps q ⟨u, hu, hv⟩ l - - st -
    exact ⟨trivial, u, hu, htrans hv (happly v done q ps l st.registry)⟩
  candidate := by
    rintro v ⟨u, hu, hv⟩ l -
    exact ⟨u, hu, htrans hv (hcandidate v l)⟩
  args _ _ _ := trivial
  withArgs _ _ _ := trivial
  shape _ _ _ _ _ _ := ⟨trivial, trivial⟩
  ret _ _ _ := trivial
  retPromises _ _ := trivial
  settle _ := trivial

/-! ## What passes keep -/

/-- What all steps of resolving keep holds in the end if it holds when the evidence is collected. -/
theorem resolve_keeps {s : Subject} (hpass : Keeps J (fun _ => True) s.pass)
    (hcollapse : Keeps J (fun _ => True) collapsePhase)
    (hsettle : Keeps J (fun _ => True) settleReturns)
    (hnote : ∀ notice node, Keeps J (fun _ => True)
      (State.withStore (Store.note s.program notice node)))
    (hcollect : J s.collect) (bound : Nat) : J (s.resolve bound).state := by
  have hround {st : State} (hst : J st) : J (s.round st).2 := by
    have hpassed := (hpass st hst).1
    rw [round]
    split
    · exact hpassed
    · exact (hsettle _ hpassed).1
  have hpasses (done left : Nat) {st : State} (hst : J st) : J (s.passes done left st).state := by
    induction left generalizing done st with
    | zero => exact (hnote _ _ _ (hcollapse st hst).1).1
    | succ left ih =>
      rw [passes_succ]
      split
      · exact ih (done + 1) (hround hst)
      · exact hround hst
  exact hpasses 0 bound hcollect

namespace Settles

variable {s : Subject} {A : Layout → Prop} (h : s.Settles I A V R)

include h

section View

variable {view : View} (hview : s.Sees V R view)

include hview

/-- The layout that a promise waits for satisfies what is asked of answers. -/
theorem asked (q : Promise) : Keeps I A (view.asked q) := by
  rw [View.asked]
  split
  · exact .pure h.missing
  · exact h.answer hview q.node

/-- A round over the promises of a variable, those of `done` being behind. -/
theorem dischargePromises (ps done : List Promise) {v : Variable}
    (hv : V { v with promises := done ++ ps }) :
    Keeps I (fun a => V { a.1 with promises := done ++ a.2.1 }) (v.dischargePromises view ps) := by
  induction ps generalizing done v with
  | nil => exact .pure hv
  | cons q ps ih =>
    rw [Variable.dischargePromises_cons]
    refine (h.asked hview q).bind fun l hl => ?_
    split
    · refine (ih (done ++ [q]) (by simpa using hv)).bind fun ⟨v', ps', _⟩ hv' => .pure ?_
      simpa using hv'
    · next hthere =>
      refine (h.apply hv hl hthere).bind fun ⟨v', kept⟩ hv' => ?_
      refine (ih (done ++ [{ q with resolved := kept }]) (by simpa using hv')).bind
        fun ⟨v'', ps', _⟩ hv'' => .pure ?_
      simpa using hv''

/-- Settling the promises of all variables keeps their parts. -/
theorem dischargeAll {vars : List Variable} (hvars : ∀ v ∈ vars, V v) :
    Keeps I (fun a => ∀ v ∈ a.1, V v) (Variable.dischargeAll view vars) := by
  induction vars with
  | nil => exact .pure (by simp)
  | cons v vs ih =>
    obtain ⟨hv, hvs⟩ := List.forall_mem_cons.mp hvars
    have hfirst : Keeps I (fun a => V a.1) (v.discharge view) :=
      (h.dischargePromises hview v.promises [] hv).bind fun ⟨v', ps', _⟩ hv' => .pure hv'
    exact hfirst.bind fun ⟨v', _⟩ hv' => (ih hvs).bind fun ⟨vs', _⟩ hvs' =>
      .pure (List.forall_mem_cons.mpr ⟨hv', hvs'⟩)

/-- Settling the promises of an argument keeps its layout one that is asked for. -/
theorem slot (ps : List Promise) {layout : Layout} (hlayout : A layout) :
    Keeps I (fun a => A a.1.layout) (Slot.discharge view layout ps) := by
  induction ps generalizing layout with
  | nil => exact .pure hlayout
  | cons q ps ih =>
    rw [Slot.discharge_cons]
    refine (h.asked hview q).bind fun l hl => ?_
    split
    · exact (ih hlayout).bind fun ⟨slot, _⟩ hslot => .pure hslot
    · refine (ih ?_).bind fun ⟨slot, _⟩ hslot => .pure hslot
      split
      · exact hl
      · exact hlayout

/-- Settling the promises of all arguments keeps their layouts. -/
theorem slots {slots : List Slot} (hslots : ∀ slot ∈ slots, A slot.layout) :
    Keeps I (fun a => ∀ slot ∈ a.1, A slot.layout) (Slot.dischargeAll view slots) := by
  induction slots with
  | nil => exact .pure (by simp)
  | cons slot slots ih =>
    obtain ⟨hslot, hslots⟩ := List.forall_mem_cons.mp hslots
    exact (h.slot hview slot.promises hslot).bind fun ⟨slot', _⟩ hslot' =>
      (ih hslots).bind fun ⟨slots', _⟩ hslots' =>
        .pure (List.forall_mem_cons.mpr ⟨hslot', hslots'⟩)

/-- A round over the returned properties, those of `done` being behind. -/
theorem dischargeProps (ps done : List Promise) {r : Routine}
    (hr : R { r with retProps := done ++ ps }) :
    Keeps I (fun a => R a.1) (r.dischargeProps view done ps) := by
  induction ps generalizing done r with
  | nil => exact .pure (by simpa using hr)
  | cons q ps ih =>
    rw [Routine.dischargeProps_cons]
    refine (h.asked (hview.withRoutine hr) q).bind fun l hl => ?_
    split
    · exact ih _ (by simpa using hr)
    · next hthere =>
      refine (h.shape hr hl hthere).bind fun r' hr' => ?_
      exact (ih _ (by simpa using hr')).bind fun ⟨r'', _⟩ hr'' => .pure hr''

/-- Settling the promises about returned properties keeps a function's part. -/
theorem dischargeReturns (ps done : List Promise) {r : Routine} (hr : R r) :
    Keeps I (fun a => R a.1) (r.dischargeReturns view done ps) := by
  induction ps generalizing done r with
  | nil => exact .pure (h.retPromises hr done)
  | cons q ps ih =>
    rw [Routine.dischargeReturns_cons]
    refine (h.asked (hview.withRoutine hr) q).bind fun l hl => ?_
    split
    · exact ih _ hr
    · refine (ih _ ?_).bind fun ⟨r', _⟩ hr' => .pure hr'
      split
      · exact h.ret hr hl
      · exact hr

/-- Settling the promises of a function keeps its part. -/
theorem routine {r : Routine} (hr : R r) : Keeps I (fun a => R a.1) (r.discharge view) := by
  refine (h.slots hview (h.args hr)).bind fun ⟨args, _⟩ hargs => ?_
  refine (h.dischargeProps hview r.retProps [] (r := { r with args }) (h.withArgs hr hargs)).bind
    fun ⟨r', _⟩ hr' => ?_
  exact (h.dischargeReturns hview r'.retPromises [] hr').bind fun ⟨r'', _⟩ hr'' => .pure hr''

end View

/-- Picking the winners of all variables keeps their parts. -/
theorem collapseAll {vars : List Variable} (hvars : ∀ v ∈ vars, V v) :
    Keeps I (fun a => ∀ v ∈ a.1, V v) (Store.withRegistry (Variable.collapseAll · vars)) := by
  induction vars with
  | nil => exact .pure (by simp)
  | cons v vs ih =>
    obtain ⟨hv, hvs⟩ := List.forall_mem_cons.mp hvars
    intro st hst
    obtain ⟨hst', hv'⟩ := h.collapse hv st hst
    obtain ⟨hst'', hvs'⟩ := ih hvs _ hst'
    exact ⟨hst'', List.forall_mem_cons.mpr ⟨hv', hvs'⟩⟩

/-- Argument layouts are handed on to the parameters. -/
theorem propagate {p : Program} {params : List NodeId} {slots : List Slot}
    (hslots : ∀ slot ∈ slots, A slot.layout) {vars : List Variable} (hvars : ∀ v ∈ vars, V v) :
    ∀ v ∈ (Routine.propagate p params slots vars).1, V v := by
  induction params generalizing slots vars with
  | nil => exact hvars
  | cons param params ih =>
    cases slots with
    | nil => exact hvars
    | cons slot slots =>
      obtain ⟨hslot, hslots⟩ := List.forall_mem_cons.mp hslots
      refine ih hslots fun v' hv' => ?_
      split at hv'
      · exact hvars v' hv'
      · obtain ⟨v, hv, rfl⟩ := List.mem_map.mp hv'
        split
        · exact h.candidate (hvars v hv) hslot
        · exact hvars v hv

variable (hJ : State.Parts J I V R)

include hJ

/-- The phase that picks winners keeps the invariant. -/
theorem collapsePhase : Keeps J (fun _ => True) collapsePhase := by
  intro st hst
  obtain ⟨hstore, hvars, hroutines⟩ := (hJ st).mp hst
  obtain ⟨hstore', hvars'⟩ := h.collapseAll hvars st.toStore hstore
  exact ⟨(hJ _).mpr ⟨hstore', hvars', hroutines⟩, trivial⟩

/-- The phase that settles returns keeps the invariant. -/
theorem settleReturns : Keeps J (fun _ => True) settleReturns := by
  intro st hst
  obtain ⟨hstore, hvars, hroutines⟩ := (hJ st).mp hst
  refine ⟨(hJ _).mpr ⟨hstore, hvars, fun r' hr' => ?_⟩, trivial⟩
  obtain ⟨r, hr, rfl⟩ := List.mem_map.mp hr'
  exact h.settle (hroutines r hr)

/-- The phase that settles the promises of variables keeps the invariant. -/
theorem dischargePhase : Keeps J (fun _ => True) s.dischargePhase := by
  intro st hst
  obtain ⟨hstore, hvars, hroutines⟩ := (hJ st).mp hst
  have hview : s.Sees V R (st.view s) := ⟨rfl, hvars, hroutines⟩
  rw [dischargePhase_apply]
  obtain ⟨hstore', hvars'⟩ := h.dischargeAll hview hvars st.toStore hstore
  exact ⟨(hJ _).mpr ⟨hstore', hvars', hroutines⟩, trivial⟩

/-- The step of a pass for one function keeps the invariant. -/
theorem routineStep {r : Routine} (hr : R r) : Keeps J (fun _ => True) (s.routineStep r) := by
  intro st hst
  obtain ⟨hstore, hvars, hroutines⟩ := (hJ st).mp hst
  have hview : s.Sees V R (st.view s) := ⟨rfl, hvars, hroutines⟩
  rw [routineStep_apply]
  obtain ⟨hstore', hr'⟩ := h.routine hview hr st.toStore hstore
  refine ⟨(hJ _).mpr ⟨hstore', ?_, Routine.forall_mem_replaceIn hr' hroutines⟩, trivial⟩
  exact h.propagate (h.args hr') hvars

/-- The steps of a pass for a list of functions keep the invariant. -/
theorem routinePhase {rs : List Routine} (hrs : ∀ r ∈ rs, R r) :
    Keeps J (fun _ => True) (s.routinePhase rs) := by
  induction rs with
  | nil => exact .pure trivial
  | cons r rs ih =>
    obtain ⟨hr, hrs⟩ := List.forall_mem_cons.mp hrs
    exact (h.routineStep hJ hr).bind fun _ _ => (ih hrs).bind fun _ _ => .pure trivial

/-- A pass keeps the invariant. -/
theorem pass : Keeps J (fun _ => True) s.pass := by
  refine (h.collapsePhase hJ).bind fun _ _ => (h.dischargePhase hJ).bind fun _ _ => ?_
  exact .read fun st hst =>
    (h.routinePhase hJ ((hJ st).mp hst).2.2).bind fun _ _ => .pure trivial

/-- A round keeps the invariant. -/
theorem round {st : State} (hst : J st) : J (s.round st).2 := by
  have hpassed := (h.pass hJ st hst).1
  rw [Subject.round]
  split
  · exact hpassed
  · exact (h.settleReturns hJ _ hpassed).1

/-- The invariant holds after any number of passes. -/
theorem after {st : State} (hst : J st) (k : Nat) : J (s.after st k) := by
  induction k with
  | zero => exact hst
  | succ k ih =>
    rw [after_succ']
    exact h.round hJ ih

/-- The invariant holds when the passes end. -/
theorem resolve (hnote : ∀ notice node, Keeps I (fun _ => True) (Store.note s.program notice node))
    (hcollect : J s.collect) (bound : Nat) : J (s.resolve bound).state :=
  resolve_keeps (h.pass hJ) (h.collapsePhase hJ) (h.settleReturns hJ)
    (fun notice node => hJ.withStore (hnote notice node)) hcollect bound

end Settles

end Subject

end LayoutInference
