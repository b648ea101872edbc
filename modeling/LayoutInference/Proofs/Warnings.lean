import Mathlib
import LayoutInference.Proofs.EvidenceInvariants

/-!
# The warnings of a run

Notes are taken in four places: for a node that is not supported, for a value without a static layout,
when a run is stopped by its bound, and for a variable with several layouts. Derivation is entered from
everywhere, by the walk as well as by promises and questions, and may leave notes of the second kind
each time; but only the first and the third are warnings.

So every step but these two leaves the warnings as they are (`Subject.upholds_quiet`,
`Subject.gathers_quiet`, `Subject.settles_quiet`), and the warnings of a run can be read off the program
and the outcome (`Result.warnings_eq`): one for each node that is not supported, in the order of the
nodes, and one more if the run did not converge.
-/

namespace LayoutInference

variable {w : List Diagnostic}

/-! ## Derivation -/

namespace Store

/-- The warnings among the notes. -/
def warnings (st : Store) : List Diagnostic := st.diagnostics.filter (·.severity = .warning)

/-- The step leaves the warnings as they are, if they are `w`. -/
abbrev Quiet (w : List Diagnostic) {α : Type} (m : StateM Store α) : Prop :=
  Keeps (fun st : Store => st.warnings = w) (fun _ => True) m

/-- An operation on the registry leaves the warnings alone. -/
theorem withRegistry_quiet {α : Type} (operation : Registry → α × Registry) :
    Quiet w (withRegistry operation) := fun _ hst => ⟨hst, trivial⟩

/-- A note that is no warning leaves the warnings alone. -/
theorem note_quiet (p : Program) {notice : Notice} (h : notice.severity = .info)
    (node : Option NodeId) : Quiet w (note p notice node) := by
  refine fun st hst => ⟨?_, trivial⟩
  rw [← hst]
  show (st.diagnostics ++ [_]).filter _ = st.diagnostics.filter _
  rw [List.filter_append, List.filter_singleton]
  simp [Diagnostic.severity, h]

end Store

/-- Derivation takes notes, but none of them is a warning. -/
theorem Subject.upholds_quiet (s : Subject) : s.Upholds (fun _ => True) (fun _ => True)
    (fun st : Store => st.warnings = w) (fun _ => True) fun _ => True where
  toTyped := s.typed_true
  scalar _ := trivial
  record _ := trivial
  weaken _ := trivial
  register _ _ _ _ := Store.withRegistry_quiet _
  dynamic _ := (Store.withRegistry_quiet _).imp fun _ _ => trivial
  note hnotice node := Store.note_quiet _ hnotice node
  known _ _ _ _ := trivial
  fixed _ _ := (Store.withRegistry_quiet _).imp fun _ _ => trivial
  keep hst _ _ _ := hst

/-! ## The walk -/

namespace State

/-- The step leaves the warnings as they are, if they are `w`. -/
abbrev Quiet (w : List Diagnostic) {α : Type} (m : StateM State α) : Prop :=
  Keeps (fun st : State => st.warnings = w) (fun _ => True) m

/-- The warnings are a part of the store alone. -/
theorem quiet_parts : Parts (fun st => st.warnings = w) (fun st : Store => st.warnings = w)
    (fun _ => True) fun _ => True :=
  .of_store fun st => st.warnings = w

/-- A change of a variable leaves the warnings alone. -/
theorem changeVariable_quiet (decl : NodeId) (change : Variable → Variable) :
    Quiet w (changeVariable decl change) :=
  quiet_parts.changeVariable decl fun _ _ _ => trivial

/-- A change of a variable that may also register layouts leaves the warnings alone. -/
theorem changeVariableWith_quiet (decl : NodeId)
    (change : Variable → Registry → Variable × Registry) :
    Quiet w (changeVariableWith decl change) :=
  quiet_parts.changeVariableWith decl fun _ _ => Store.withRegistry_quiet _

/-- A change of a function leaves the warnings alone. -/
theorem changeRoutine_quiet (fn : NodeId) (change : Routine → Routine) :
    Quiet w (changeRoutine fn change) :=
  quiet_parts.changeRoutine fn fun _ _ _ => trivial

end State

namespace Subject

open State (Quiet)

variable {s : Subject}

/-- Deriving a layout leaves the warnings alone if its use does. -/
theorem derived_quiet {α : Type} {hint : String} {id : NodeId} {f : Option Layout → StateM State α}
    (hnone : Quiet w (f none)) (hsome : ∀ l, Quiet w (f (some l))) :
    Quiet w (s.derived hint id >>= f) :=
  State.quiet_parts.derived (s.upholds_quiet.determine hint id) hnone fun l _ => hsome l

open State in
/-- Recording what a supported node says raises no warning. -/
theorem gathers_quiet (s : Subject) : s.Gathers fun {α : Type} (m : StateM State α) => Quiet w m where
  pure _ := .pure trivial
  bind hm hf := hm.bind fun a _ => hf a
  read hf := .read fun st _ => hf st
  derive hint id := (quiet_parts.withStore (s.upholds_quiet.determine hint id)).imp
    fun _ _ => trivial
  growing d := changeVariable_quiet d _
  dictionary d := changeVariable_quiet d _
  key d := changeVariable_quiet d _
  promise d _ _ := changeVariable_quiet d _
  value d _ _ := derived_quiet (changeVariable_quiet d _) fun _ => changeVariable_quiet d _
  keyed d _ := derived_quiet (changeVariable_quiet d _) fun _ => changeVariableWith_quiet d _
  element d _ := derived_quiet (changeVariable_quiet d _) fun _ => changeVariableWith_quiet d _
  pushed d _ := derived_quiet (changeVariable_quiet d _) fun _ => changeVariableWith_quiet d _
  self d _ _ := changeVariable_quiet d _
  property d _ _ _ := derived_quiet (changeVariable_quiet d _) fun _ => changeVariable_quiet d _
  propertyPushed d _ _ _ :=
    derived_quiet (changeVariable_quiet d _) fun _ => changeVariableWith_quiet d _
  mark fn _ _ := changeRoutine_quiet fn _
  argument fn _ _ _ := derived_quiet (changeRoutine_quiet fn _) fun _ => changeRoutine_quiet fn _
  returned fn id settled _ _ _ := by
    refine derived_quiet (changeRoutine_quiet fn _) fun l => ?_
    simp only [Option.getD_some]
    repeat' split
    · exact changeRoutine_quiet fn _
    · exact .pure trivial
    · exact changeRoutine_quiet fn _

/-- The warning about a node that is not supported. -/
def skipped (p : Program) (n : Node) : Diagnostic :=
  { notice := .unsupported n.value, node := some n.id, position := p.position n.id }

/-- The warning about a run that was stopped after a number of passes. -/
def stopped (iterations : Nat) : Diagnostic :=
  { notice := .notConverged iterations, node := none, position := {} }

/-- The warning that a series of passes ends with, if any. -/
def Outcome.ending (outcome : Outcome) : List Diagnostic :=
  if outcome.converged then [] else [stopped outcome.iterations]

/-- Collecting a node adds a warning exactly if it is not supported. -/
theorem collectNode_warnings (n : Node) (st : State) :
    (s.collectNode n st).2.warnings
      = st.warnings ++ if n.unsupported then [skipped s.program n] else [] := by
  cases hn : n.unsupported with
  | false =>
    rw [((gathers_quiet s).collectSupported (fun d => State.changeVariable_quiet d _) hn st rfl).1]
    simp
  | true =>
    rw [collectNode, hn]
    exact List.filter_append _ _

/-- The walk warns of each node that is not supported, in the order of the nodes. -/
theorem collectNodes_warnings (ns : List Node) (st : State) :
    (ns.forM s.collectNode st).2.warnings
      = st.warnings ++ (ns.filter (·.unsupported)).map (skipped s.program) := by
  induction ns generalizing st with
  | nil => exact (List.append_nil _).symm
  | cons n ns ih =>
    have hstep : ((n :: ns).forM s.collectNode st).2
        = (ns.forM s.collectNode (s.collectNode n st).2).2 := rfl
    rw [hstep, ih, collectNode_warnings, List.append_assoc]
    cases hn : n.unsupported <;> simp [hn]

/-- The warnings of the walk are about the nodes that are not supported, in their order. -/
theorem collect_warnings (s : Subject) :
    s.collect.warnings = (s.program.nodes.toList.filter (·.unsupported)).map (skipped s.program) :=
  collectNodes_warnings _ _

/-! ## Passes -/

/-- A pass raises no warning. -/
theorem settles_quiet : s.Settles (fun st : Store => st.warnings = w) (fun _ => True) (fun _ => True)
    fun _ => True :=
  settles_of_store (fun _ => Store.withRegistry_quiet _) fun {view} _ id =>
    view.upholds_quiet.answers.layoutOf id

/-- A round leaves the warnings alone. -/
theorem round_warnings (st : State) : (s.round st).2.warnings = st.warnings :=
  settles_quiet.round State.quiet_parts rfl

/-- Passes raise no warning, unless their bound stops them. -/
theorem passes_warnings (done left : Nat) (st : State) :
    (s.passes done left st).state.warnings = st.warnings ++ (s.passes done left st).ending := by
  induction left generalizing done st with
  | zero => exact List.filter_append _ _
  | succ left ih =>
    rw [passes_succ]
    split
    · rw [ih, round_warnings]
    · rw [round_warnings]
      exact (List.append_nil _).symm

end Subject

/-! ## Results -/

namespace Result

variable (s : Subject) (bound : Nat)

/-- The warnings of a run: one for each node that is not supported, in the order of the nodes, and one
more if the run did not converge. -/
theorem warnings_eq :
    let r := ofOutcome s (s.resolve bound)
    r.warnings = (s.program.nodes.toList.filter (·.unsupported)).map (Subject.skipped s.program)
      ++ if r.converged then [] else [Subject.stopped r.iterations] := by
  intro r
  have hnotes : ((s.resolve bound).state.vars.filterMap
      (·.conflictNote s.program (s.resolve bound).state.registry)).filter
        (·.severity = .warning) = [] := by
    rw [List.filter_eq_nil_iff]
    intro d hd
    obtain ⟨v, -, hv⟩ := List.mem_filterMap.mp hd
    obtain ⟨-, hd⟩ := (Option.ite_none_left_eq_some ..).mp hv
    rw [← Option.some.inj hd]
    simp [Diagnostic.severity, Notice.severity]
  have hsplit : r.warnings = (s.resolve bound).state.warnings := by
    show ((s.resolve bound).state.diagnostics ++ _).filter _ = _
    rw [List.filter_append, hnotes, List.append_nil]
    rfl
  rw [hsplit, Subject.resolve, Subject.passes_warnings, Subject.collect_warnings]
  rfl

end Result

end LayoutInference
