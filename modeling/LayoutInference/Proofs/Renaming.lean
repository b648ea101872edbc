import Mathlib
import LayoutInference.Proofs.FinalNames
import LayoutInference.Proofs.NamelessEvidence
import LayoutInference.Proofs.Preorder

/-!
# Names of declarations

Names of declarations never influence layouts: two programs that differ in such names alone are inferred
alike (`infer_renamed`). Only hints and names of records and the wording of notes may differ.

Each of the two programs is compared with the one that has no such names. Winners are picked, promises
kept and argument layouts handed over in lockstep, so the passes end alike (`Subject.passes_alike`) and
the results shown are alike (`Result.ofOutcome_alike`).

Lowering also lists which identifiers belong to a declaration and which return statements to a function.
These lists can be told from the nodes, so programs of scripts differ in names alone as soon as their
nodes do: `Program.renamed_iff`.
-/

namespace LayoutInference

/-! ## Winners -/

namespace Variable

variable (v : Variable)

/-- Going over a candidate is in lockstep. -/
theorem keepCandidate_lockstep (kept : List Layout) (c : Layout) : Lockstep Registry.Alike id
    (fun r => v.keepCandidate (kept, r) c) (fun t => v.nameless.keepCandidate (kept, t) c) := by
  have hgrowing : v.nameless.growing = v.growing := rfl
  intro r t h
  simp only [keepCandidate, nameless_dictionary, hgrowing]
  split
  · exact ⟨rfl, h⟩
  · split
    · exact (Registry.intern_lockstep _).map (f := appendDistinct kept) (g := appendDistinct kept)
        (fun _ => rfl) r t h
    · exact ⟨rfl, h⟩

/-- The candidates that survive are the same with and without names. -/
theorem survivors_lockstep : Lockstep Registry.Alike id v.survivors v.nameless.survivors := by
  have hfold (cs : List Layout) : ∀ kept, Lockstep Registry.Alike id
      (fun r => cs.foldl v.keepCandidate (kept, r))
      (fun t => cs.foldl v.nameless.keepCandidate (kept, t)) := by
    induction cs with
    | nil => exact fun kept => .pure rfl
    | cons c cs ih =>
      intro kept
      exact .bind (x := fun r => v.keepCandidate (kept, r) c)
        (y := fun t => v.nameless.keepCandidate (kept, t) c) (v.keepCandidate_lockstep kept c) ih
  exact hfold v.candidates []

/-- Extending a record by the properties of a variable gives the same number. -/
theorem extendRecord_lockstep (base : RecordId) :
    Lockstep Registry.Alike id (v.extendRecord base) (v.nameless.extendRecord base) :=
  fun r t h => Registry.extend_lockstep base _ _ _ _ r t h

/-- The candidates that count are judged alike with and without names. -/
theorem judge_lockstep (kept : List Layout) :
    Lockstep Registry.Alike id (v.judge kept) (v.nameless.judge kept) := by
  match kept with
  | [] => exact .pure rfl
  | [.record base] =>
    exact (v.extendRecord_lockstep base).map (f := fun id => Verdict.mk (.record id) v.objectLiteral [])
      (g := fun id => Verdict.mk (.record id) v.objectLiteral []) fun _ => rfl
  | [.missing] | [.scalar _] | [.fixed _ _] | [.dynamic _] | [.dict _] => exact .pure rfl
  | l :: _ :: _ => cases l <;> exact .pure rfl

/-- The verdict on a variable is the same with and without its name. -/
theorem verdict_lockstep : Lockstep Registry.Alike id v.verdict v.nameless.verdict :=
  v.survivors_lockstep.bind (f := v.judge) (g := v.nameless.judge) v.judge_lockstep

/-- The winner of a variable is picked in lockstep. -/
theorem collapse_lockstep :
    Lockstep Registry.Alike (Prod.map nameless id) v.collapse v.nameless.collapse := by
  have hverdict := v.verdict_lockstep.map (d := Prod.map nameless id)
    (f := fun d => (v.decided d, !v.winner.same d.winner))
    (g := fun d => (v.nameless.decided d, !v.winner.same d.winner)) fun _ => rfl
  intro r t h
  rw [collapse_eq, collapse_eq]
  exact hverdict r t h

/-- The winners of all variables are picked in lockstep. -/
theorem collapseAll_lockstep (vs : List Variable) :
    Lockstep Registry.Alike (Prod.map (List.map nameless) id)
      (fun r => collapseAll r vs) (fun t => collapseAll t (vs.map nameless)) := by
  induction vs with
  | nil => exact .pure rfl
  | cons v vs ih =>
    show Lockstep Registry.Alike (Prod.map (List.map nameless) id)
      (do let first ← (v.collapse : StateM Registry _)
          let rest ← (collapseAll · vs : StateM Registry _)
          return (first.1 :: rest.1, first.2 || rest.2))
      (do let first ← (v.nameless.collapse : StateM Registry _)
          let rest ← (collapseAll · (vs.map nameless) : StateM Registry _)
          return (first.1 :: rest.1, first.2 || rest.2))
    exact v.collapse_lockstep.bindErased fun _ => ih.bindErased fun _ => .pure rfl

/-! ## Promises -/

/-- Using a layout for a promise is in lockstep. -/
theorem apply_lockstep (p : Promise) (l : Layout) :
    Lockstep Registry.Alike (Prod.map nameless id) (v.apply p l) (v.nameless.apply p l) := by
  intro r t h
  simp only [apply]
  cases p.use with
  | same =>
    dsimp only
    split
    · exact ⟨rfl, h⟩
    · exact ⟨congrArg (·, true) (v.addCandidate_nameless l), h⟩
  | elementOf =>
    dsimp only
    split
    · exact ⟨rfl, h⟩
    · exact ⟨congrArg (·, true) (v.addCandidate_nameless _), h⟩
  | arrayOf =>
    dsimp only
    split
    · exact (Registry.intern_lockstep (.dynamic l)).map (d := Prod.map nameless id)
        (f := fun array => (v.write p.property array, true))
        (g := fun array => (v.nameless.write p.property array, true)) (fun _ => rfl) r t h
    · exact (v.addPushed_lockstep l).map (d := Prod.map nameless id)
        (f := fun v => (v, true)) (g := fun v => (v, true)) (fun _ => rfl) r t h
  | dictOf =>
    exact (Registry.intern_lockstep (.dict l)).map (d := Prod.map nameless id)
      (f := fun dict => (v.addCandidate dict, true))
      (g := fun dict => (v.nameless.addCandidate dict, true))
      (fun dict => congrArg (·, true) (v.addCandidate_nameless dict)) r t h
  | indexed => exact v.refineElements_lockstep l r t h

end Variable

/-- Go on with the layout of a promise's node, or with none if the promise is settled. -/
theorem View.promised_lockstep (view : View) (q : Promise) {β : Type} {d : β → β}
    {k k' : Layout → StateM Store β} (hk : ∀ l, Lockstep (Store.Alike view.program) d (k l) (k' l)) :
    Lockstep (Store.Alike view.program) d
      (if q.resolved then pure .missing >>= k else view.layoutOf q.node >>= k)
      (if q.resolved then pure .missing >>= k' else view.nameless.layoutOf q.node >>= k') := by
  split
  · exact hk .missing
  · exact (view.layoutOf_lockstep q.node).bind hk

namespace Variable

/-- A round over promises of a variable is in lockstep. -/
theorem dischargePromises_lockstep (view : View) (v : Variable) (qs : List Promise) :
    Lockstep (Store.Alike view.program) (Prod.map nameless id) (v.dischargePromises view qs)
      (v.nameless.dischargePromises view.nameless qs) := by
  induction qs generalizing v with
  | nil => exact .pure rfl
  | cons q qs ih =>
    rw [dischargePromises, dischargePromises]
    refine view.promised_lockstep q fun l => ?_
    dsimp only
    split
    · exact (ih v).bindErased fun _ => .pure rfl
    · refine (Store.withRegistry_lockstep (v.apply_lockstep q l)).bindErased fun a => ?_
      exact (ih a.1).bindErased fun _ => .pure rfl

/-- A round over the promises of a variable is in lockstep. -/
theorem discharge_lockstep (view : View) (v : Variable) :
    Lockstep (Store.Alike view.program) (Prod.map nameless id) (v.discharge view)
      (v.nameless.discharge view.nameless) :=
  (v.dischargePromises_lockstep view v.promises).bindErased fun _ => .pure rfl

/-- A round over the promises of all variables is in lockstep. -/
theorem dischargeAll_lockstep (view : View) (vs : List Variable) :
    Lockstep (Store.Alike view.program) (Prod.map (List.map nameless) id) (dischargeAll view vs)
      (dischargeAll view.nameless (vs.map nameless)) := by
  induction vs with
  | nil => exact .pure rfl
  | cons v vs ih =>
    exact (discharge_lockstep view v).bindErased fun _ => ih.bindErased fun _ => .pure rfl

end Variable

/-! ## Functions -/

/-- A round over promises of an argument is in lockstep. -/
theorem Slot.discharge_lockstep (view : View) (layout : Layout) (qs : List Promise) :
    Store.InStep view.program (Slot.discharge view layout qs)
      (Slot.discharge view.nameless layout qs) := by
  induction qs generalizing layout with
  | nil => exact .pure rfl
  | cons q qs ih =>
    rw [Slot.discharge, Slot.discharge]
    refine view.promised_lockstep q fun l => ?_
    dsimp only
    split
    · exact (ih layout).bind fun _ => .pure rfl
    · exact (ih _).bind fun _ => .pure rfl

/-- A round over the promises of all arguments is in lockstep. -/
theorem Slot.dischargeAll_lockstep (view : View) (slots : List Slot) :
    Store.InStep view.program (Slot.dischargeAll view slots)
      (Slot.dischargeAll view.nameless slots) := by
  induction slots with
  | nil => exact .pure rfl
  | cons slot slots ih =>
    exact (Slot.discharge_lockstep view _ _).bind fun _ => ih.bind fun _ => .pure rfl

/-- A function is put in its place in the same way without names. -/
theorem View.withRoutine_nameless (view : View) (r : Routine) :
    view.nameless.withRoutine r.nameless = (view.withRoutine r).nameless := by
  simp only [withRoutine, nameless, List.map_map]
  congr 1
  refine List.map_congr_left fun other _ => ?_
  simp only [Function.comp_apply, apply_ite Routine.nameless]
  rfl

namespace Routine

/-- Shaping what a function returns is in lockstep. -/
theorem shape_lockstep {p : Program} (r : Routine) (property : String) (l : Layout) :
    Lockstep (Store.Alike p) nameless (r.shape property l) (r.nameless.shape property l) := by
  rw [shape, shape, nameless_ret]
  cases r.ret with
  | record base =>
    exact .bind (Store.withRegistry_lockstep (Registry.extend_lockstep base _ _ _ _)) fun _ => .pure rfl
  | missing | scalar | fixed | dynamic | dict => exact .pure rfl

/-- A round over returned properties is in lockstep. -/
theorem dischargeProps_lockstep (view : View) (r : Routine) (done qs : List Promise) :
    Lockstep (Store.Alike view.program) (Prod.map nameless id) (r.dischargeProps view done qs)
      (r.nameless.dischargeProps view.nameless done qs) := by
  induction qs generalizing r done with
  | nil => exact .pure rfl
  | cons q qs ih =>
    rw [dischargeProps, dischargeProps]
    have hview : view.nameless.withRoutine { r.nameless with retProps := done ++ q :: qs }
        = (view.withRoutine { r with retProps := done ++ q :: qs }).nameless :=
      view.withRoutine_nameless { r with retProps := done ++ q :: qs }
    rw [hview]
    refine (view.withRoutine { r with retProps := done ++ q :: qs }).promised_lockstep q fun l => ?_
    dsimp only
    split
    · exact ih r _
    · refine (r.shape_lockstep q.property l).bindErased fun r => ?_
      exact (ih r _).bindErased fun _ => .pure rfl

/-- A round over returned values is in lockstep. -/
theorem dischargeReturns_lockstep (view : View) (r : Routine) (done qs : List Promise) :
    Lockstep (Store.Alike view.program) (Prod.map nameless id) (r.dischargeReturns view done qs)
      (r.nameless.dischargeReturns view.nameless done qs) := by
  induction qs generalizing r done with
  | nil => exact .pure rfl
  | cons q qs ih =>
    rw [dischargeReturns, dischargeReturns, view.withRoutine_nameless]
    refine (view.withRoutine r).promised_lockstep q fun l => ?_
    have hret : (if r.nameless.ret = .missing then { r.nameless with ret := l } else r.nameless)
        = (if r.ret = .missing then { r with ret := l } else r).nameless := by
      rw [apply_ite Routine.nameless]
      rfl
    dsimp only
    split
    · exact ih r _
    · rw [hret]
      exact (ih _ _).bindErased fun _ => .pure rfl

/-- A round over the promises of a function is in lockstep. -/
theorem discharge_lockstep (view : View) (r : Routine) :
    Lockstep (Store.Alike view.program) (Prod.map nameless id) (r.discharge view)
      (r.nameless.discharge view.nameless) := by
  refine .bind (Slot.dischargeAll_lockstep view r.args) fun a => ?_
  refine (dischargeProps_lockstep view { r with args := a.1 } [] r.retProps).bindErased fun b => ?_
  exact (dischargeReturns_lockstep view b.1 [] _).bindErased fun _ => .pure rfl

/-- An argument is handed over in the same way without names. -/
theorem handOver_nameless (p : Program) (param : NodeId) (slot : Slot) (vars : List Variable) :
    handOver p.nameless param slot (vars.map Variable.nameless)
      = Prod.map (List.map Variable.nameless) id (handOver p param slot vars) := by
  rw [handOver, handOver, Program.declaration_nameless]
  cases p.declaration param with
  | none => rfl
  | some decl =>
    refine Prod.ext ?_ ?_
    · simp only [Prod.map_fst, List.map_map]
      refine List.map_congr_left fun v _ => ?_
      simp only [Function.comp_apply, apply_ite Variable.nameless, ← Variable.addCandidate_nameless]
      rfl
    · exact List.any_map

/-- All arguments are handed over in the same way without names. -/
theorem propagate_nameless (p : Program) (params : List NodeId) (slots : List Slot)
    (vars : List Variable) : propagate p.nameless params slots (vars.map Variable.nameless)
      = Prod.map (List.map Variable.nameless) id (propagate p params slots vars) := by
  induction params generalizing slots vars with
  | nil => rfl
  | cons param params ih =>
    cases slots with
    | nil => rfl
    | cons slot slots =>
      simp only [propagate, handOver_nameless]
      rw [Prod.map_fst, ih]
      rfl

end Routine

/-! ## Passes -/

open State (InStep changeRoutine_lockstep)

namespace Subject

/-- The phase that picks winners is in lockstep. -/
theorem collapsePhase_lockstep {p : Program} : InStep p collapsePhase collapsePhase := by
  intro st st' hst
  obtain ⟨hvars, hregistry⟩ :=
    Variable.collapseAll_lockstep st.vars st.registry st'.registry hst.store.registry
  dsimp only at hvars hregistry
  rw [← hst.vars] at hvars hregistry
  have hchanged := congrArg Prod.snd hvars
  exact ⟨hchanged,
    ⟨hregistry, hst.store.literals, hst.store.notes, hst.store.places⟩, congrArg Prod.fst hvars,
    hst.routines⟩

variable (s : Subject)

/-- The phase that settles the promises of variables is in lockstep. -/
theorem dischargePhase_lockstep : InStep s.program s.dischargePhase s.nameless.dischargePhase := by
  refine .read fun st st' hst => ?_
  rw [hst.view, hst.vars]
  refine (State.withStore_lockstep
    (Variable.dischargeAll_lockstep (st.view s) st.vars)).bindErased fun a => ?_
  refine .bind (.update ?_) fun _ => .pure rfl
  exact fun st st' hst => ⟨hst.store, rfl, hst.routines⟩

/-- The step of a pass for one function is in lockstep. -/
theorem routineStep_lockstep (r : Routine) :
    InStep s.program (s.routineStep r) (s.nameless.routineStep r.nameless) := by
  refine .read fun st st' hst => ?_
  rw [hst.view, hst.vars]
  refine (State.withStore_lockstep (r.discharge_lockstep (st.view s))).bindErased fun a => ?_
  refine .bind (changeRoutine_lockstep a.1.node fun _ => rfl) fun _ => ?_
  have hpropagate : Routine.propagate s.nameless.program a.1.nameless.params a.1.nameless.args
      (st.vars.map Variable.nameless) = Prod.map (List.map Variable.nameless) id
        (Routine.propagate s.program a.1.params a.1.args st.vars) :=
    Routine.propagate_nameless s.program a.1.params a.1.args st.vars
  dsimp only [Prod.map_fst]
  rw [hpropagate]
  refine .bind (.update ?_) fun _ => .pure rfl
  exact fun st st' hst => ⟨hst.store, rfl, hst.routines⟩

/-- The steps of a pass for functions are in lockstep. -/
theorem routinePhase_lockstep (rs : List Routine) : InStep s.program (s.routinePhase rs)
    (s.nameless.routinePhase (rs.map Routine.nameless)) := by
  induction rs with
  | nil => exact .pure rfl
  | cons r rs ih => exact (s.routineStep_lockstep r).bind fun _ => ih.bind fun _ => .pure rfl

/-- A pass is in lockstep. -/
theorem pass_lockstep : InStep s.program s.pass s.nameless.pass := by
  refine collapsePhase_lockstep.bind fun _ => s.dischargePhase_lockstep.bind fun _ => ?_
  refine .read fun st st' hst => ?_
  rw [hst.routines]
  exact (s.routinePhase_lockstep st.routines).bind fun _ => .pure rfl

/-- Giving up returned properties is in lockstep. -/
theorem settleReturns_lockstep {p : Program} : InStep p settleReturns settleReturns := by
  intro st st' hst
  refine ⟨?_, hst.store, hst.vars, ?_⟩
  · simp only [settleReturns, hst.routines, List.any_map]
    rfl
  · simp only [settleReturns, hst.routines, List.map_map]
    rfl

/-- A round is in lockstep. -/
theorem round_lockstep : InStep s.program s.round s.nameless.round := by
  intro st st' hst
  obtain ⟨hchanged, hpassed⟩ := s.pass_lockstep st st' hst
  simp only [round, hchanged, id]
  split
  · exact ⟨hchanged, hpassed⟩
  · exact settleReturns_lockstep _ _ hpassed

/-- The passes end in the same way. -/
structure Outcome.Alike (p : Program) (o o' : Outcome) : Prop where
  state : o.state.Alike p o'.state
  iterations : o.iterations = o'.iterations
  converged : o.converged = o'.converged

/-- A series of passes ends alike with and without names. -/
theorem passes_alike (done left : Nat) {st st' : State} (h : st.Alike s.program st') :
    (s.passes done left st).Alike s.program (s.nameless.passes done left st') := by
  induction left generalizing done st st' with
  | zero =>
    obtain ⟨-, hcollapsed⟩ := collapsePhase_lockstep st st' h
    refine ⟨?_, rfl, rfl⟩
    exact (State.withStore_lockstep (Store.note_lockstep s.program.nameless rfl none) _ _ hcollapsed).2
  | succ left ih =>
    obtain ⟨hchanged, hstates⟩ := s.round_lockstep st st' h
    rw [passes_succ, passes_succ, hchanged]
    dsimp only [id]
    split
    · exact ih (done + 1) hstates
    · exact ⟨hstates, rfl, rfl⟩

/-- A run resolves alike with and without names. -/
theorem resolve_alike (hp : s.program.Numbered) (bound : Nat) :
    (s.resolve bound).Alike s.program (s.nameless.resolve bound) :=
  s.passes_alike 0 bound (s.collect_alike hp)

end Subject

/-! ## Results -/

/-- The binding without the name of its declaration. -/
def Binding.nameless (b : Binding) : Binding := { b with name := "" }

/-- The signature without the names of the function and of its parameters. -/
def Signature.nameless (f : Signature) : Signature :=
  { f with name := "", params := f.params.map Binding.nameless }

/-- The binding of a variable without its name is its binding without the name. -/
theorem Variable.binding_nameless (p : Program) (v : Variable) :
    v.nameless.binding p.nameless = (v.binding p).nameless := by
  simp only [binding, Program.references_nameless]
  rfl

/-- A binding is found for a node with and without names. -/
theorem bindingOf?_nameless (p : Program) (bindings : List Binding) (id : NodeId) :
    bindingOf? p.nameless (bindings.map Binding.nameless) id
      = (bindingOf? p bindings id).map Binding.nameless := by
  rw [bindingOf?, bindingOf?, Program.declaration_nameless]
  cases p.declaration id with
  | none => rfl
  | some decl => exact List.find?_map

/-- The signature of a function without its name is its signature without names. -/
theorem Routine.signature_nameless (p : Program) (bindings : List Binding) (r : Routine) :
    r.nameless.signature p.nameless (bindings.map Binding.nameless)
      = (r.signature p bindings).nameless := by
  have hparams : r.params.filterMap (bindingOf? p.nameless (bindings.map Binding.nameless))
      = (r.params.filterMap (bindingOf? p bindings)).map Binding.nameless := by
    rw [List.map_filterMap]
    exact congrArg (r.params.filterMap ·) (funext (bindingOf?_nameless p bindings))
  rw [signature, signature]
  exact congrArg (fun params => (⟨r.node, "", params, r.shownReturn, r.calls⟩ : Signature)) hparams

/-- A conflict is noted for a variable with and without its name. -/
theorem Variable.gist_conflictNote (p q : Program) (registry registry' : Registry) (v : Variable) :
    (v.nameless.conflictNote q registry').map Diagnostic.gist
      = (v.conflictNote p registry).map Diagnostic.gist := by
  rw [conflictNote, conflictNote, nameless_conflicts]
  split <;> rfl

namespace Registry

namespace Alike

variable {r t : Registry} (h : r.Alike t)

include h

/-- The search for records reaches the same ones in alike registries. -/
theorem unreached (unseen : List RecordId) (work : List Layout) :
    r.unreached unseen work = t.unreached unseen work := by
  fun_induction Registry.unreached r unseen work with
  | case1 => rw [Registry.unreached]
  | case2 unseen l work hl ih => rw [Registry.unreached, hl, ih]
  | case3 unseen l work id hl hunseen ih =>
    conv_rhs => rw [Registry.unreached]
    simp only [hl, dif_pos hunseen, ← h.fields, ih]
  | case4 unseen l work id hl hunseen ih =>
    conv_rhs => rw [Registry.unreached]
    simp only [hl, dif_neg hunseen, ih]

/-- Alike registries have the same numbers. -/
theorem ids : r.ids = t.ids := by
  have hids (r : Registry) : r.ids = (r.records.map Record.nameless).map (·.id) := by
    rw [List.map_map]
    rfl
  rw [hids, hids, h.records]

/-- The same records are reachable in alike registries. -/
theorem reachable (roots : List Layout) : r.reachable roots = t.reachable roots := by
  rw [Registry.reachable, Registry.reachable, h.ids, h.unreached]

/-- Final names keep registries alike, and the same records are listed. -/
theorem finalize (roots : List Layout) : (r.finalize roots).1 = (t.finalize roots).1
    ∧ (r.finalize roots).2.Alike (t.finalize roots).2 := by
  have hnamed (r : Registry) :
      (r.finalize roots).2.records.map Record.nameless = r.records.map Record.nameless := by
    refine map_eq_map_of_forall₂ (r.records_finalize roots) ?_
    rintro a b ⟨name, rfl⟩
    rfl
  have hlisted (r : Registry) : (r.finalize roots).1
      = ((r.records.map Record.nameless).filter fun record =>
          record.id ∈ r.reachable roots ∧ !record.fields.isEmpty).map (·.id) := by
    rw [← hnamed, List.filter_map, List.map_map]
    rfl
  refine ⟨?_, ?_, h.bodies, h.containers, h.clash⟩
  · rw [hlisted, hlisted, h.records, h.reachable]
  · rw [hnamed, hnamed, h.records]

end Alike

end Registry

namespace Result

/-- The results differ in names, hints and the wording of notes alone: what is said of declarations,
functions and records is the same, one by one. -/
structure Alike (r t : Result) : Prop where
  converged : r.converged = t.converged
  iterations : r.iterations = t.iterations
  bindings : r.bindings.map Binding.nameless = t.bindings.map Binding.nameless
  functions : r.functions.map Signature.nameless = t.functions.map Signature.nameless
  records : r.records.map Record.nameless = t.records.map Record.nameless
  notes : r.diagnostics.map Diagnostic.gist = t.diagnostics.map Diagnostic.gist

/-- Likeness of results is transitive. -/
theorem Alike.trans {r t u : Result} (hrt : r.Alike t) (htu : t.Alike u) : r.Alike u where
  converged := hrt.converged.trans htu.converged
  iterations := hrt.iterations.trans htu.iterations
  bindings := hrt.bindings.trans htu.bindings
  functions := hrt.functions.trans htu.functions
  records := hrt.records.trans htu.records
  notes := hrt.notes.trans htu.notes

/-- Likeness of results is symmetric. -/
theorem Alike.symm {r t : Result} (h : r.Alike t) : t.Alike r where
  converged := h.converged.symm
  iterations := h.iterations.symm
  bindings := h.bindings.symm
  functions := h.functions.symm
  records := h.records.symm
  notes := h.notes.symm

variable {s : Subject} {o o' : Subject.Outcome} (h : o.Alike s.program o')

include h

/-- The bindings of a result are the same without their names. -/
theorem ofOutcome_bindings :
    (ofOutcome s.nameless o').bindings = (ofOutcome s o).bindings.map Binding.nameless := by
  simp only [ofOutcome, h.state.vars, List.map_map]
  exact List.map_congr_left fun v _ => v.binding_nameless s.program

/-- The functions of a result are the same without their names. -/
theorem ofOutcome_functions :
    (ofOutcome s.nameless o').functions = (ofOutcome s o).functions.map Signature.nameless := by
  have hfunctions (s : Subject) (o : Subject.Outcome) : (ofOutcome s o).functions
      = (o.state.routines.filter fun r => r.calls ≠ 0 || r.hasReturn).map
          (·.signature s.program (ofOutcome s o).bindings) := rfl
  rw [hfunctions, hfunctions, ofOutcome_bindings h, h.state.routines, List.filter_map, List.map_map,
    List.map_map]
  exact List.map_congr_left fun r _ => r.signature_nameless s.program _

/-- A result has the same roots with and without names. -/
theorem ofOutcome_roots : (ofOutcome s.nameless o').roots = (ofOutcome s o).roots := by
  rw [roots, roots, ofOutcome_bindings h, ofOutcome_functions h, List.map_map, List.map_map]
  rfl

/-- The notes of a result say the same, their wording apart. -/
theorem ofOutcome_notes : (ofOutcome s o).diagnostics.map Diagnostic.gist
    = (ofOutcome s.nameless o').diagnostics.map Diagnostic.gist := by
  have hnotes (s : Subject) (o : Subject.Outcome) : (ofOutcome s o).diagnostics
      = o.state.diagnostics ++ o.state.vars.filterMap (·.conflictNote s.program o.state.registry) := rfl
  rw [hnotes, hnotes, List.map_append, List.map_append, h.state.vars, List.map_filterMap,
    List.map_filterMap, List.filterMap_map]
  congr 1
  · exact h.state.store.notes
  · refine List.filterMap_congr fun v _ => ?_
    exact (v.gist_conflictNote s.program _ _ _).symm

/-- The registries of the results are alike. -/
theorem ofOutcome_registry :
    (ofOutcome s o).state.registry.Alike (ofOutcome s.nameless o').state.registry := by
  have hregistry (s : Subject) (o : Subject.Outcome) : (ofOutcome s o).state.registry
      = (o.state.registry.finalize (ofOutcome s o).roots).2 := rfl
  rw [hregistry, hregistry, ofOutcome_roots h]
  exact (h.state.store.registry.finalize _).2

/-- A run is shown alike with and without names. -/
theorem ofOutcome_alike : (ofOutcome s o).Alike (ofOutcome s.nameless o') := by
  refine ⟨h.converged, h.iterations, ?_, ?_, ?_, ofOutcome_notes h⟩
  · rw [ofOutcome_bindings h, List.map_map]
    rfl
  · rw [ofOutcome_functions h, List.map_map]
    refine List.map_congr_left fun f _ => ?_
    simp [Signature.nameless, Binding.nameless]
  · have hrecords (s : Subject) (o : Subject.Outcome) : (ofOutcome s o).records
        = (o.state.registry.finalize (ofOutcome s o).roots).1.filterMap
            (ofOutcome s o).state.registry.record? := rfl
    rw [hrecords, hrecords, ofOutcome_roots h, (h.state.store.registry.finalize _).1]
    simp only [List.map_filterMap, (ofOutcome_registry h).record?]

/-- Every note stands where its node does. -/
theorem ofOutcome_places {d : Diagnostic} (hd : d ∈ (ofOutcome s o).diagnostics) :
    d.position = (d.node.map s.program.position).getD {} := by
  rcases List.mem_append.mp hd with hd | hd
  · exact h.state.store.places d hd
  · obtain ⟨v, -, hnote⟩ := List.mem_filterMap.mp hd
    rw [Variable.conflictNote] at hnote
    split at hnote
    · cases hnote
    · obtain rfl := Option.some.inj hnote
      rfl

end Result

/-! ## Renamed programs -/

namespace Program

/-- The return statements at and below a node, each under its function, in the order in which they are
left; at most `depth` levels down. -/
def returnsBelow (p : Program) : (depth : Nat) → NodeId → List (NodeId × NodeId)
  | 0, _ => []
  | depth + 1, id => (p.children id).flatMap (p.returnsBelow depth)
      ++ ((p.node? id).filter (·.kind = .ret)).toList.map fun n => (n.func.getD 0, n.id)

section Returns

variable {source : Source} {script : Script} {p q : Program}

/-- Deep enough below a node, all that lowering lists there is found. -/
theorem returnsBelow_of_path (y : Occurrence) : ∀ above, script.toTree.whole.Path y above →
    ∀ depth, y.tree.size ≤ depth → (ofTree source script.toTree).returnsBelow depth y.id
      = y.returned.map fun n => (n.func.getD 0, n.id) := by
  induction y using Occurrence.induction with
  | h y ih =>
    intro above hpath depth hdepth
    cases depth with
    | zero =>
      obtain ⟨around, role, id, label, parts⟩ := y
      simp [Tree.size] at hdepth
    | succ depth =>
      have hparts : (y.parts.flatMap fun z => (ofTree source script.toTree).returnsBelow depth z.id)
          = y.parts.flatMap fun z => z.returned.map fun n => (n.func.getD 0, n.id) := by
        refine List.flatMap_congr fun z hz => ih z hz (y :: above) (.part hpath hz) depth ?_
        have hsize := Occurrence.size_lt_of_mem_parts hz
        omega
      rw [returnsBelow, children_of_path hpath, List.flatMap_map, hparts, node?_of_path hpath,
        y.returned_eq, List.map_append, List.map_flatMap]
      by_cases hkind : y.label.kind = .ret <;> simp [hkind, Option.filter]

/-- The list of return statements can be told from the nodes. -/
theorem returned_eq_returnsBelow (h : ofScript source script = .ok p) :
    p.returned.toList = p.returnsBelow p.nodes.size 1 := by
  obtain ⟨rfl, -⟩ := ofScript_eq_ok_iff.mp h
  rw [returned_eq, size_ofTree]
  exact (returnsBelow_of_path script.toTree.whole [] .root _ (Nat.le_refl _)).symm

/-- What is found below a node does not depend on names. -/
theorem returnsBelow_congr
    (h : ∀ id, (p.node? id).map Node.nameless = (q.node? id).map Node.nameless) (depth : Nat)
    (id : NodeId) : p.returnsBelow depth id = q.returnsBelow depth id := by
  induction depth generalizing id with
  | zero => rfl
  | succ depth ih =>
    have hchildren (p : Program) : p.children id
        = (((p.node? id).map Node.nameless).map Node.children).getD [] := by
      rw [Option.map_map]
      rfl
    have hself (p : Program) : ((p.node? id).filter (·.kind = .ret)).toList.map
          (fun n => (n.func.getD 0, n.id))
        = (((p.node? id).map Node.nameless).filter (·.kind = .ret)).toList.map
          fun n => (n.func.getD 0, n.id) := by
      cases p.node? id with
      | none => rfl
      | some n => by_cases hkind : n.kind = .ret <;> simp [hkind, Option.filter]
    rw [returnsBelow, returnsBelow, hchildren, hself, h, ← hchildren, ← hself,
      List.flatMap_congr fun c _ => ih c]

end Returns

/-- Programs of scripts differ in the names of declarations alone exactly if their nodes do: which
identifiers and return statements belong together can be told from the nodes. -/
theorem renamed_iff {source source' : Source} {script script' : Script} {p q : Program}
    (hp : ofScript source script = .ok p) (hq : ofScript source' script' = .ok q) :
    p.Renamed q ↔ List.Forall₂ Node.Renamed p.nodes.toList q.nodes.toList := by
  refine ⟨And.left, fun h => ⟨h, ?_, ?_⟩⟩
  · have hreferred (p : Program) : (p.nodes.toList.filter (·.kind = .identifier)).filterMap
          (fun n => n.decl.map (·, n.id))
        = ((p.nodes.map Node.nameless).toList.filter (·.kind = .identifier)).filterMap
          fun n => n.decl.map (·, n.id) := by
      rw [Array.toList_map, List.filter_map, List.filterMap_map]
      rfl
    rw [← Array.toList_inj, referred_eq hp, referred_eq hq, hreferred, map_nameless_eq h, ← hreferred]
  · have hnode (id : NodeId) : (p.node? id).map Node.nameless = (q.node? id).map Node.nameless := by
      have hmap (p : Program) : (p.node? id).map Node.nameless
          = if id = 0 then none else (p.nodes.map Node.nameless)[id - 1]? := (p.node?_nameless id).symm
      rw [hmap, map_nameless_eq h, ← hmap]
    rw [← Array.toList_inj, returned_eq_returnsBelow hp, returned_eq_returnsBelow hq,
      ← Array.length_toList, ← Array.length_toList, h.length_eq]
    exact returnsBelow_congr hnode _ _

end Program

/-- A renamed program is numbered as the first. -/
theorem Program.Renamed.numbered {p q : Program} (h : p.Renamed q) (hp : p.Numbered) : q.Numbered := by
  have hnameless (p : Program) : p.nameless.Numbered ↔ p.Numbered := by
    simp [Numbered, Function.comp_def]
  rwa [← hnameless, ← h.nameless_eq, hnameless]

/-- The runs over a program with and without names end in results that are alike, with the same clash if
any, and the notes of the first stand where their nodes do. -/
theorem runInference_nameless {p : Program} (hp : p.Numbered) (maxIterations : Int) :
    (runInference p maxIterations).Alike (runInference p.nameless maxIterations)
      ∧ (runInference p maxIterations).state.registry.clash
          = (runInference p.nameless maxIterations).state.registry.clash
      ∧ ∀ d ∈ (runInference p maxIterations).diagnostics,
          d.position = (d.node.map p.position).getD {} := by
  have h := (Subject.of p).resolve_alike hp
    (if maxIterations ≤ 0 then defaultMaxIterations else maxIterations.toNat)
  rw [runInference, runInference, Subject.of_nameless]
  exact ⟨Result.ofOutcome_alike h, (Result.ofOutcome_registry h).clash,
    fun _ => Result.ofOutcome_places h⟩

/-- Notes about the same nodes stand at the same places if the sources place offsets alike. -/
theorem Program.Renamed.position_eq {p q : Program} (h : p.Renamed q)
    (hsource : ∀ offset, p.source.position offset = q.source.position offset) (id : NodeId) :
    p.position id = q.position id := by
  have hspan : (p.node? id).map (·.span) = (q.node? id).map (·.span) := by
    have hnode (p : Program) : (p.node? id).map (·.span) = (p.nameless.node? id).map (·.span) := by
      rw [node?_nameless, Option.map_map]
      rfl
    rw [hnode p, h.nameless_eq, ← hnode q]
  have hposition (p : Program) : p.position id
      = (((p.node? id).map (·.span)).map fun span => p.source.position span.start).getD {} := by
    rw [position]
    cases p.node? id <;> rfl
  simp only [hposition, hspan, hsource]

/-- **Names of declarations never influence layouts.** Take the program `p` of a script and a program `q`
that differs from it in the names of variables, parameters and functions alone, as they are declared or
as they are used. Within any number of passes, either both runs end in the same clash, or both have
results that are alike: they converge or not after as many passes, every declaration has the same layout
and needs allocation in both or in neither, and every function returns the same layout and is called as
often. Records have the same fields under other names and hints, and the notes are about the same nodes,
at the same places if the sources place offsets alike. -/
theorem infer_renamed {source : Source} {script : Script} {p q : Program}
    (hp : Program.ofScript source script = .ok p) (h : p.Renamed q) (maxIterations : Int) :
    (∀ clash, infer p maxIterations = .error clash ↔ infer q maxIterations = .error clash)
      ∧ ∀ r, infer p maxIterations = .ok r → ∃ t, infer q maxIterations = .ok t ∧ r.Alike t
        ∧ ((∀ offset, p.source.position offset = q.source.position offset) →
          r.diagnostics.map (·.position) = t.diagnostics.map (·.position)) := by
  have hnumbered := Program.ofScript_numbered hp
  obtain ⟨hleft, hclash, hplaces⟩ := runInference_nameless hnumbered maxIterations
  obtain ⟨hright, hclash', hplaces'⟩ := runInference_nameless (h.numbered hnumbered) maxIterations
  rw [h.nameless_eq] at hleft hclash
  have halike := hleft.trans hright.symm
  have hsame := hclash.trans hclash'.symm
  refine ⟨fun clash => ?_, fun r hr => ?_⟩
  · rw [infer_eq_error_iff, infer_eq_error_iff, hsame]
  · obtain ⟨rfl, hnone⟩ := infer_eq_ok_iff.mp hr
    refine ⟨_, infer_eq_ok_iff.mpr ⟨rfl, hsame ▸ hnone⟩, halike, fun hsource => ?_⟩
    have hpositions := funext (h.position_eq hsource)
    -- Where a note stands can be told from its gist.
    calc (runInference p maxIterations).diagnostics.map (·.position)
        = ((runInference p maxIterations).diagnostics.map Diagnostic.gist).map
            fun gist => (gist.2.map p.position).getD {} := by
          rw [List.map_map]
          exact List.map_congr_left hplaces
      _ = ((runInference q maxIterations).diagnostics.map Diagnostic.gist).map
            fun gist => (gist.2.map q.position).getD {} := by
          rw [halike.notes, hpositions]
      _ = (runInference q maxIterations).diagnostics.map (·.position) := by
          rw [List.map_map]
          exact (List.map_congr_left hplaces').symm

/-- `function f(p) { return p; } let x = {k: 1}; let y = f(x);` under the given names. -/
def Script.passedRecord (f p x y : String) : Script :=
  ⟨[.function ⟨0, 0⟩ f [.mk (.name ⟨0, 0⟩ p) none] none
      (.mk ⟨0, 0⟩ [.ret ⟨0, 0⟩ (some (nameOf p))]),
    declares x (.object ⟨0, 0⟩ [memberOf "k" (numberOf "1")]),
    declares y (.call ⟨0, 0⟩ (nameOf f) [nameOf x])]⟩

/-- The parameter takes over the name of its function, and all other names change too. -/
theorem infer_renamed_passedRecord :
    let p := (Script.passedRecord "f" "p" "x" "y").program
    let q := (Script.passedRecord "g" "g" "a" "b").program
    Program.ofScript ⟨"main.js", []⟩ (Script.passedRecord "f" "p" "x" "y") = .ok p ∧ p.Renamed q
      ∧ ∃ r t, infer p 64 = .ok r ∧ infer q 64 = .ok t ∧ r.Alike t
        ∧ r.bindings.map (fun b => (b.name, b.layout))
            = [("p", .record 1), ("x", .record 1), ("y", .record 1)]
        ∧ t.bindings.map (fun b => (b.name, b.layout))
            = [("g", .record 1), ("a", .record 1), ("b", .record 1)] := by
  intro p q
  have hscript := Script.ofScript_eq_ok (Script.passedRecord "f" "p" "x" "y") (by decide +kernel)
  have hscript' := Script.ofScript_eq_ok (Script.passedRecord "g" "g" "a" "b") (by decide +kernel)
  have hrenamed : p.Renamed q := (Program.renamed_iff hscript hscript').mpr (by decide +kernel)
  have hrun : infer p 64 = .ok (runInference p 64) := infer_eq_ok_iff.mpr ⟨rfl, by decide +kernel⟩
  obtain ⟨t, ht, halike, -⟩ := (infer_renamed hscript hrenamed 64).2 _ hrun
  obtain ⟨rfl, -⟩ := infer_eq_ok_iff.mp ht
  exact ⟨hscript, hrenamed, _, _, hrun, ht, halike, by decide +kernel, by decide +kernel⟩

end LayoutInference
