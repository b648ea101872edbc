import Mathlib
import LayoutInference.Proofs.FixedPoint
import LayoutInference.Proofs.Shapes
import LayoutInference.Proofs.PropertyWrites
import LayoutInference.Proofs.WrittenFields

/-!
# The layouts of literals

Every array and object literal is a node of the program, and the walk derives the layout of each when
it comes to it, unless that was done before. So after the walk all literals have a layout
(`Subject.collect_literals`), and what a literal has it keeps: no pass takes anything out of a store
(`Subject.resolve_grown`).
-/

namespace LayoutInference

/-- The collections are the array and the object literals. -/
theorem Node.isCollection_iff (n : Node) :
    n.isCollection = true ↔ n.kind = .arrayLiteral ∨ n.kind = .objectLiteral := by
  rw [isCollection]
  split <;> simp_all

namespace Subject

variable {s : Subject}

/-- A literal that is derived has a layout from then on. -/
theorem lookup_deriveLiteral {fresh : List NodeId} {n : Node} (hn : n.id ∈ fresh) (hint : String)
    (st : Store) : (s.deriveLiteral fresh hint n st).2.literals.lookup n.id
      = some (s.deriveLiteral fresh hint n st).1 := by
  cases hlookup : st.literals.lookup n.id with
  | some known => rw [deriveLiteral_of_lookup s hlookup, hlookup]
  | none =>
    rw [deriveLiteral_of_lookup_none s hlookup, if_pos hn]
    exact List.lookup_cons_self

/-- Deriving a literal always gives a layout, and is done by its own recursion. -/
theorem determine_literal {id : NodeId} {n : Node} (hn : s.program.node? id = some n)
    (hcollection : n.isCollection = true) (hint : String) (st : Store) :
    s.determine hint id st = (some (s.deriveAny hint n st).1, (s.deriveAny hint n st).2) := by
  rw [determine, determineWith, hn]
  simp only [hcollection, if_true]
  rfl

/-- The layout of a literal is there and the state is well formed. -/
def HasLiteral (id : NodeId) (st : State) : Prop :=
  st.WellFormed ∧ ∃ l, st.literals.lookup id = some l

variable {n : Node}

/-- The step at a literal derives it. -/
theorem collectNode_literal (hp : s.program.Numbered) (hn : n ∈ s.program.nodes.toList)
    (hcollection : n.isCollection = true) (hsupported : n.unsupported = false) :
    Leads State.WellFormed (HasLiteral n.id) (s.collectNode n) := by
  intro st hst
  have hnode := hp.node?_of_mem hn
  have hsound := ((walks_collects hp).collectNode n st hst).sound
  refine ⟨hsound, (s.deriveAny "" n st.toStore).1, ?_⟩
  have hstep : (s.collectNode n st).2.toStore = (s.determine "" n.id st.toStore).2 := by
    rw [collectNode, hsupported]
    rcases n.isCollection_iff.mp hcollection with hkind | hkind <;> rw [hkind] <;> rfl
  rw [hstep, determine_literal hnode hcollection]
  exact lookup_deriveLiteral (hp.mem_ids hnode) "" st.toStore

/-- After the walk every literal has a layout. -/
theorem collect_literals {source : Source} {script : Script}
    (hscript : Program.ofScript source script = .ok s.program) (hn : n ∈ s.program.nodes.toList)
    (hcollection : n.isCollection = true) : ∃ l, s.collect.literals.lookup n.id = some l := by
  have hp := Program.ofScript_numbered hscript
  have hsupported : n.unsupported = false := by
    refine Program.supported_of_kind hscript hn ?_
    rcases n.isCollection_iff.mp hcollection with hkind | hkind <;> simp [hkind]
  have hwalk (ns : List Node) (st : State) (hst : st.WellFormed) :=
    (walks_collects hp).collectNodes ns st hst
  refine (collect_leads hn (fun ns st hst => ⟨(hwalk ns st hst).sound, trivial⟩)
    (collectNode_literal hp hn hcollection hsupported) (fun ns st hst => ⟨⟨?_, ?_⟩, trivial⟩)
    initialState_wellFormed).2
  · exact (hwalk ns st hst.1).sound
  · obtain ⟨l, hl⟩ := hst.2
    exact ⟨l, (hwalk ns st hst.1).grows.store.literals _ _ hl⟩

/-- Resolving takes nothing out of the store. -/
theorem resolve_grown (hp : s.program.Numbered) (bound : Nat) :
    s.collect.toStore ≤ (s.resolve bound).state.toStore := by
  have hcollapse : Keeps (fun st => st.Regular ∧ s.collect.toStore ≤ st.toStore) (fun _ => True)
      collapsePhase := by
    intro st hst
    have hspec := collapsePhase_spec hst.1.wellFormed
    exact ⟨⟨hspec.regular hst.1, hst.2.trans hspec.grows.store⟩, trivial⟩
  refine (resolve_keeps (J := fun st => st.Regular ∧ s.collect.toStore ≤ st.toStore) ?_ hcollapse
    (fun st hst => ⟨⟨settleReturns_regular hst.1, hst.2⟩, trivial⟩) (fun _ _ st hst => ?_) ?_ bound).2
  · intro st hst
    obtain ⟨⟨hregular, hle⟩, -⟩ := hcollapse st hst
    have hadvances := promisePhase_advances hp hregular
    rw [pass_apply]
    exact ⟨⟨hadvances.regular hregular, hle.trans hadvances.grows.store⟩, trivial⟩
  · exact ⟨⟨⟨⟨⟨hst.1.wellFormed.store.registry, hst.1.wellFormed.store.literals⟩,
      hst.1.wellFormed.vars, hst.1.wellFormed.routines⟩, hst.1.nodup⟩,
      hst.2.registry, hst.2.literals⟩, trivial⟩
  · exact ⟨collect_regular hp, le_refl _⟩

end Subject

/-- Behind a result every literal has the layout that it got first. -/
theorem Result.finalStore_literals {s : Subject} (hp : s.program.Numbered) (bound : Nat) {id : NodeId}
    {l : Layout} (hl : s.collect.literals.lookup id = some l) :
    (finalStore s (s.resolve bound)).literals.lookup id = some l :=
  (le_finalStore s _).literals id l ((Subject.resolve_grown hp bound).literals id l hl)

end LayoutInference
