import Mathlib
import LayoutInference.Proofs.Convergence

/-!
# The fixed point of resolving

A run that converges ends in a state that another pass leaves as it is, and that state explains
itself: every winner is what the evidence decides, and every promise that still waits cannot be kept.
A run that is cut off ends in a state whose winners are what the evidence decides at that moment.

Final names are given after the last pass. The order on stores leaves names out, so what is shown of
the last pass carries over to the result.
-/

namespace LayoutInference

/-! ## Final names -/

namespace Registry

/-- The record `b` is `a` under another name. -/
def Renamed (a b : Record) : Prop := ∃ name, b = { a with name }

/-- Naming records changes their names alone. -/
theorem named_renamed (ids : List RecordId) (names : Names) (records : List Record) :
    List.Forall₂ Renamed records (named ids names records) := by
  induction records generalizing names with
  | nil => exact .nil
  | cons record records ih =>
    rw [named]
    split
    · exact .cons ⟨_, rfl⟩ (ih _)
    · exact .cons ⟨record.name, rfl⟩ (ih _)

/-- Whatever does not depend on names is found under the same number. -/
theorem map_find?_renamed {β : Type} {f : Record → β} (hf : ∀ a name, f { a with name } = f a)
    {records records' : List Record} (h : List.Forall₂ Renamed records records') (id : RecordId) :
    (records'.find? (·.id = id)).map f = (records.find? (·.id = id)).map f := by
  induction h with
  | nil => rfl
  | @cons a _ _ _ hab _ ih =>
    obtain ⟨name, rfl⟩ := hab
    by_cases hid : a.id = id
    · rw [List.find?_cons_of_pos (by simpa using hid), List.find?_cons_of_pos (by simpa using hid)]
      exact congrArg some (hf a name)
    · rw [List.find?_cons_of_neg (by simpa using hid), List.find?_cons_of_neg (by simpa using hid)]
      exact ih

variable (r : Registry) (roots : List Layout)

/-- Final names change the names of records alone. -/
theorem records_finalize : List.Forall₂ Renamed r.records (r.finalize roots).2.records :=
  named_renamed _ {} r.records

/-- Final names leave the numbers of records as they are. -/
theorem ids_finalize : (r.finalize roots).2.ids = r.ids := by
  refine map_eq_map_of_forall₂ (r.records_finalize roots) ?_
  rintro a b ⟨name, rfl⟩
  rfl

/-- Giving final names takes nothing away. -/
theorem le_finalize : r ≤ (r.finalize roots).2 where
  ids id hid := by rwa [ids_finalize]
  fields id _ := by
    rw [fields, fields, record?, record?,
      map_find?_renamed (f := (·.fields)) (fun _ _ => rfl) (r.records_finalize roots)]
  hint id _ := by
    rw [hint, hint, record?, record?,
      map_find?_renamed (f := (·.hint)) (fun _ _ => rfl) (r.records_finalize roots)]
  bodies _ _ h := h
  containers _ _ h := h
  clash _ := rfl

/-- A registry is still well formed under final names. -/
theorem WellFormed.finalize {r : Registry} (hr : r.WellFormed) (roots : List Layout) :
    (r.finalize roots).2.WellFormed where
  ids := by
    rw [ids_finalize, hr.ids, (r.records_finalize roots).length_eq]
  bodies key id h := by
    rw [ids_finalize]
    exact hr.bodies key id h
  fields record' hrecord' f hf := by
    obtain ⟨record, hrecord, name, rfl⟩ := exists_of_mem_right (r.records_finalize roots) hrecord'
    exact (hr.fields record hrecord f hf).mono (r.le_finalize roots)
  containers key l h := (hr.containers key l h).mono (r.le_finalize roots)

end Registry

/-! ## Rest -/

namespace Subject

/-- What holds of the state in which a run that converges ends. -/
structure FixedPoint (s : Subject) (st : State) : Prop where
  /-- Winner and allocation mark of every variable are what its evidence decides. -/
  winners : ∀ v ∈ st.vars, v.collapse st.registry = ((v, false), st.registry)
  /-- A variable's promise that waits has no layout to ask for, or none that it can use. -/
  stuck : ∀ v ∈ st.vars, ∀ p ∈ v.promises, p.resolved = false →
    ((st.view s).layoutOf p.node st.toStore).1 = .missing
      ∨ (v.apply p ((st.view s).layoutOf p.node st.toStore).1 st.registry).1.2 = false
  /-- A promise about an argument that waits has no layout to ask for. -/
  arguments : ∀ r ∈ st.routines, ∀ slot ∈ r.args, ∀ p ∈ slot.promises, p.resolved = false →
    ((st.view s).layoutOf p.node st.toStore).1 = .missing
  /-- A promise about a returned value that waits has no layout to ask for. -/
  returns : ∀ r ∈ st.routines, ∀ p ∈ r.retPromises, p.resolved = false →
    ((st.view s).layoutOf p.node st.toStore).1 = .missing
  /-- No returned property is waited for. -/
  shaped : ∀ r ∈ st.routines, ∀ p ∈ r.retProps, p.resolved = true
  /-- Argument layouts are candidates of their parameters. -/
  handed : ∀ r ∈ st.routines, ∀ a ∈ r.params.zip r.args, a.2.layout ≠ .missing →
    ∀ v ∈ st.vars, s.program.declaration a.1 = some v.decl → hasSame v.candidates a.2.layout = true
  /-- Another pass leaves all of it as it is. -/
  again : s.pass st = (false, st)

end Subject

/-- A view with one of its own functions put in its place is the same view. -/
theorem View.withRoutine_self {view : View} (hnodup : (view.routines.map (·.node)).Nodup)
    {r : Routine} (hr : r ∈ view.routines) : view.withRoutine r = view := by
  have hroutines : (view.routines.map fun other => if other.node = r.node then r else other)
      = view.routines := Routine.replaceIn_self hnodup hr
  rw [withRoutine, hroutines]

namespace Subject

variable {s : Subject} (hp : s.program.Numbered) {st : State}

include hp

/-- What a function without progress says about its promises. -/
theorem routineStep_rests (hst : st.Regular) {r : Routine} (hr : r ∈ st.routines)
    (hquiet : (s.routineStep r st).1 = false) :
    (st.view s).AllUnknown (Slot.promisesOf r.args) (s.routineStep r st).2.toStore
      ∧ (st.view s).AllUnknown r.retPromises (s.routineStep r st).2.toStore
      ∧ Routine.Taken s.program r.params r.args st.vars := by
  have hruns := routine_runs hp hst.wellFormed hr
  rw [routineStep_apply] at hquiet ⊢
  obtain ⟨hflag, hhanded⟩ := Bool.or_eq_false_iff.mp hquiet
  obtain ⟨hsame, hargs, hreturns⟩ := hruns.holds.rests hflag
  -- The function is what it was, so its returned values were asked for in the view of the state.
  rw [View.withRoutine_self hst.nodup hr] at hreturns
  rw [hsame] at hhanded
  exact ⟨hargs, hreturns, Routine.taken_of_propagate hhanded⟩

/-- The same of a list of functions: nothing changes from one to the next. -/
theorem routinePhase_rests {rs : List Routine} (h : Due st rs)
    (hquiet : (s.routinePhase rs st).1 = false) :
    ∀ r ∈ rs, (st.view s).AllUnknown (Slot.promisesOf r.args) (s.routinePhase rs st).2.toStore
      ∧ (st.view s).AllUnknown r.retPromises (s.routinePhase rs st).2.toStore
      ∧ Routine.Taken s.program r.params r.args st.vars := by
  induction rs generalizing st with
  | nil => exact fun r hr => absurd hr (by simp)
  | cons r rs ih =>
    rw [routinePhase_cons, andThen_apply] at hquiet ⊢
    obtain ⟨hfirst, hrest⟩ := Bool.or_eq_false_iff.mp hquiet
    have hdue := h.step hp
    obtain ⟨hargs, hreturns, htaken⟩ := routineStep_rests hp h.regular h.head hfirst
    obtain ⟨store, -, -, heq, -⟩ := (routineStep_advances hp h.regular h.head).quiet hfirst
    rw [heq] at hargs hreturns hrest hdue ⊢
    have hgrows := (routinePhase_advances hp hdue).grows
    refine List.forall_mem_cons.mpr ⟨⟨?_, ?_, htaken⟩, ih hdue hrest⟩
    · exact hargs.mono hgrows.store
    · exact hreturns.mono hgrows.store

/-- A state at rest explains itself. -/
theorem fixedPoint_of_atRest (hst : st.Regular) (hrest : s.AtRest st) (hshaping : st.shaping = false) :
    s.FixedPoint st := by
  have hstore := hst.wellFormed.store
  have hpromises : s.promisePhase st = (false, st) := hrest.promises st.toStore hstore (le_refl _)
  rw [promisePhase, andThen_apply] at hpromises
  obtain ⟨hflags, hstate⟩ := Prod.mk.inj hpromises
  obtain ⟨hvars, hroutines⟩ := Bool.or_eq_false_iff.mp hflags
  -- The variables were left alone, so the functions were settled in the same state.
  have hall := (variables_runs hp hst.wellFormed).holds.rests hvars
  have hdue := due_dischargePhase hp hst
  obtain ⟨store, -, -, heq, -⟩ := (dischargePhase_advances hp hst.wellFormed).quiet hvars
  have hasked : (Variable.dischargeAll (st.view s) st.vars st.toStore).2 = store :=
    congrArg (fun a => a.2.toStore) heq
  rw [heq] at hroutines hstate hdue
  have hphase := routinePhase_rests hp hdue hroutines
  have hgrows : (st.withOther store).toStore ≤ st.toStore := by
    have hle := (routinePhase_advances hp hdue).grows.store
    rw [hstate] at hle
    exact hle
  rw [hstate] at hphase
  constructor
  case winners =>
    exact fun v hv => hrest.settled v hv st.registry hstore.registry (le_refl _)
  case stuck =>
    intro v hv p hpmem hwait
    have hstuck := hall.2 v hv p hpmem hwait
    rw [hasked] at hstuck
    exact hstuck st.toStore hstore hgrows
  case arguments =>
    intro r hr slot hslot p hpmem hwait
    have hmem : p ∈ Slot.promisesOf r.args := List.mem_flatMap.mpr ⟨slot, hslot, hpmem⟩
    exact (hphase r hr).1 p hmem hwait st.toStore hstore (le_refl _)
  case returns =>
    intro r hr p hpmem hwait
    exact (hphase r hr).2.1 p hpmem hwait st.toStore hstore (le_refl _)
  case shaped =>
    intro r hr p hpmem
    have hnone : r.shaping = false := by simpa using List.any_eq_false.mp hshaping r hr
    simpa using List.any_eq_false.mp hnone p hpmem
  case handed =>
    intro r hr a ha hknown v hv hdecl
    have htaken := (hphase r hr).2.2 a ha v hv hdecl
    simpa [Variable.accepts, hknown] using htaken
  case again =>
    exact hrest.pass_eq hst.wellFormed

/-! ## Outcomes -/

/-- A round keeps a state regular. -/
theorem round_regular (hst : st.Regular) : (s.round st).2.Regular := by
  cases hchanged : (s.pass st).1 with
  | true =>
    rw [round_of_changed hchanged]
    exact pass_regular hp hst
  | false =>
    rw [round_of_unchanged hchanged]
    exact settleReturns_regular (pass_regular hp hst)

/-- All states of a run are regular. -/
theorem after_regular (k : Nat) : (s.after s.collect k).Regular := by
  induction k with
  | zero => exact collect_regular hp
  | succ k ih =>
    rw [after_succ']
    exact round_regular hp ih

/-- The state after a pass that changes nothing is at rest. -/
theorem round_atRest (hst : st.Regular) (hstop : (s.round st).1 = false) :
    s.AtRest (s.round st).2 ∧ (s.round st).2.shaping = false := by
  obtain ⟨hround, hquiet⟩ := round_of_stop hstop
  rw [hround]
  exact ⟨pass_atRest hp hst hquiet, (round_eq_false_iff.mp hstop).2⟩

/-- How resolving ends: at rest, or cut off with winners picked last. -/
theorem resolve_ends (bound : Nat) :
    (s.resolve bound).state.Regular ∧ (s.resolve bound).state.Settled
      ∧ ((s.resolve bound).converged = true →
        s.AtRest (s.resolve bound).state ∧ (s.resolve bound).state.shaping = false) := by
  rcases s.passes_cases 0 bound s.collect with ⟨k, -, -, hstop, heq⟩ | ⟨-, heq⟩
  · have hrest := round_atRest hp (after_regular hp k) hstop
    rw [← after_succ'] at hrest
    rw [resolve, heq]
    exact ⟨after_regular hp (k + 1), hrest.1.settled, fun _ => hrest⟩
  · have hregular := after_regular hp bound
    have hcollapsed := collapsePhase_spec hregular.wellFormed
    obtain ⟨hsound, hnodup⟩ := hcollapsed.regular hregular
    rw [resolve, heq, passes]
    refine ⟨⟨⟨?_, hsound.vars, hsound.routines⟩, hnodup⟩, hcollapsed.settled, ?_⟩
    · exact ⟨hsound.store.registry, hsound.store.literals⟩
    · exact fun hconverged => by cases hconverged

end Subject

/-! ## Results -/

/-- The store of a result: final names are given and notes are added. -/
def Result.finalStore (s : Subject) (outcome : Subject.Outcome) : Store :=
  (Result.ofOutcome s outcome).state.toStore

/-- The state of a result is the last state with another store. -/
theorem Result.state_ofOutcome (s : Subject) (outcome : Subject.Outcome) :
    (ofOutcome s outcome).state = outcome.state.withOther (finalStore s outcome) := rfl

/-- The store of a result has all that the last store has. -/
theorem Result.le_finalStore (s : Subject) (outcome : Subject.Outcome) :
    outcome.state.toStore ≤ finalStore s outcome :=
  ⟨Registry.le_finalize _ _, fun _ _ h => h⟩

/-- The store of a result is well formed. -/
theorem Result.finalStore_wellFormed (s : Subject) {outcome : Subject.Outcome}
    (h : outcome.state.WellFormed) : (finalStore s outcome).WellFormed :=
  ⟨h.store.registry.finalize _, fun id l hl =>
    (h.store.literals id l hl).mono (Registry.le_finalize _ _)⟩

/-- The state that a run shows in the end is as regular as the one in which its passes end. -/
theorem Result.finalState_regular {s : Subject} (hp : s.program.Numbered) (bound : Nat) :
    (ofOutcome s (s.resolve bound)).state.Regular := by
  obtain ⟨hregular, -, -⟩ := Subject.resolve_ends hp bound
  have hle := le_finalStore s (s.resolve bound)
  refine ⟨⟨finalStore_wellFormed s hregular.wellFormed, fun v hv => ?_, fun r hr => ?_⟩,
    hregular.nodup⟩
  · exact (hregular.wellFormed.vars v hv).mono hle.registry
  · exact (hregular.wellFormed.routines r hr).mono hle.registry

/-- A run that converges ends in a fixed point of resolving, and in every run, cut off or not, winners
and allocation marks are what the evidence decides in the end. -/
theorem infer_fixedPoint {source : Source} {script : Script} {p : Program}
    (hp : Program.ofScript source script = .ok p) {max : Int} {r : Result}
    (hr : infer p max = .ok r) :
    (r.converged = true → (Subject.of p).FixedPoint r.state)
      ∧ ∀ v ∈ r.state.vars, v.collapse r.state.registry = ((v, false), r.state.registry) := by
  set s := Subject.of p
  have hnumbered : s.program.Numbered := Program.ofScript_numbered hp
  obtain ⟨bound, hrun⟩ : ∃ bound, r = Result.ofOutcome s (s.resolve bound) :=
    ⟨_, (infer_eq_ok_iff.mp hr).1⟩
  obtain ⟨hregular, hsettled, hconverged⟩ := Subject.resolve_ends hnumbered bound
  -- Rest and verdicts hold in every greater store, and giving final names makes the store greater.
  have hle := Result.le_finalStore s (s.resolve bound)
  have hstore := Result.finalStore_wellFormed s hregular.wellFormed
  rw [hrun, Result.state_ofOutcome]
  refine ⟨fun hc => ?_, fun v hv => ?_⟩
  · obtain ⟨hrest, hshaping⟩ := hconverged hc
    refine Subject.fixedPoint_of_atRest hnumbered ?_ (hrest.withOther hle) hshaping
    refine ⟨⟨hstore, fun v hv => ?_, fun r hr => ?_⟩, hregular.nodup⟩
    · exact (hregular.wellFormed.vars v hv).mono hle.registry
    · exact (hregular.wellFormed.routines r hr).mono hle.registry
  · exact hsettled v hv _ hstore.registry hle.registry

/-- The run converges: the array is handed to the parameter, returned and taken over by `y`. -/
theorem infer_fixedPoint_passedArray :
    ∃ r, infer Script.passedArray.program 64 = .ok r ∧ r.converged = true
      ∧ (Subject.of Script.passedArray.program).FixedPoint r.state := by
  have hscript := Script.ofScript_eq_ok Script.passedArray (by decide +kernel)
  have hrun : infer Script.passedArray.program 64
      = .ok (runInference Script.passedArray.program 64) :=
    infer_eq_ok_iff.mpr ⟨rfl, by decide +kernel⟩
  have hconverged : (runInference Script.passedArray.program 64).converged = true := by
    decide +kernel
  exact ⟨_, hrun, hconverged, (infer_fixedPoint hscript hrun).1 hconverged⟩

end LayoutInference
