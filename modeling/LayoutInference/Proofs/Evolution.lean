import Mathlib
import LayoutInference.Proofs.EvidenceInvariants

/-!
# Variables over a run

The evidence about a variable changes from step to step. Three things stay: where the variable is
declared, the marks that its use gives it, and its promises, which keep their places and are at most
settled. `Variable.Evolves` says so of a variable at two times, and `State.Evolves` of all variables.

No step of a run does anything else, neither of the walk (`Subject.walks_evolving`) nor of a pass
(`Subject.settles_evolves`), so the relation holds between any two times: `Subject.after_evolves`.
-/

namespace LayoutInference

/-! ## Promises -/

/-- The promises `ps` stand at their places in `ps'`, some of them settled by then. -/
def Promise.Stay (ps ps' : List Promise) : Prop :=
  ∀ (i : Nat) (q : Promise), ps[i]? = some q → ∃ resolved, ps'[i]? = some { q with resolved }

namespace Promise.Stay

variable {ps ps' ps'' : List Promise}

/-- Promises stay where they are. -/
theorem refl (ps : List Promise) : Stay ps ps := fun _ q hq => ⟨q.resolved, hq⟩

/-- Promises that stay twice have stayed. -/
theorem trans (h : Stay ps ps') (h' : Stay ps' ps'') : Stay ps ps'' := by
  intro i q hq
  obtain ⟨_, hlater⟩ := h i q hq
  obtain ⟨resolved, hlast⟩ := h' i _ hlater
  exact ⟨resolved, hlast⟩

/-- Promises stay when others are put behind them. -/
theorem append (ps more : List Promise) : Stay ps (ps ++ more) := by
  intro i q hq
  obtain ⟨hi, -⟩ := List.getElem?_eq_some_iff.mp hq
  exact ⟨q.resolved, (List.getElem?_append_left hi).trans hq⟩

/-- A promise in front may be settled while those behind it stay. -/
theorem cons (q : Promise) (resolved : Bool) (h : Stay ps ps') :
    Stay (q :: ps) ({ q with resolved } :: ps') := by
  intro i p hp
  cases i with
  | zero =>
    obtain rfl : q = p := Option.some.inj hp
    exact ⟨resolved, rfl⟩
  | succ i => exact h i p hp

/-- One promise is settled, or not yet. -/
theorem settle (done : List Promise) (q : Promise) (ps : List Promise) (resolved : Bool) :
    Stay (done ++ q :: ps) (done ++ { q with resolved } :: ps) := by
  induction done with
  | nil => exact cons q resolved (.refl ps)
  | cons p done ih => exact cons p p.resolved ih

/-- Promises stay when each is at most settled. -/
theorem map {change : Promise → Promise} (hchange : ∀ q, ∃ resolved, change q = { q with resolved })
    (ps : List Promise) : Stay ps (ps.map change) := by
  intro i q hq
  obtain ⟨resolved, hresolved⟩ := hchange q
  exact ⟨resolved, by rw [List.getElem?_map, hq, Option.map_some, hresolved]⟩

end Promise.Stay

/-! ## Variables -/

namespace Variable

/-- The variable `v'` is what has become of `v`: declared where `v` is, with the marks of `v` and with
its promises. -/
structure Evolves (v v' : Variable) : Prop where
  decl : v'.decl = v.decl
  marks : ∀ m, v.marked m = true → v'.marked m = true
  promises : Promise.Stay v.promises v'.promises

namespace Evolves

variable {v v' v'' : Variable}

/-- A variable is what has become of itself. -/
theorem refl (v : Variable) : v.Evolves v := ⟨rfl, fun _ h => h, .refl _⟩

/-- What becomes of a variable in two steps is what has become of it. -/
theorem trans (h : v.Evolves v') (h' : v'.Evolves v'') : v.Evolves v'' :=
  ⟨h'.decl.trans h.decl, fun m hm => h'.marks m (h.marks m hm), h.promises.trans h'.promises⟩

/-- Marks that are the same are kept. -/
theorem of_eq (hdecl : v'.decl = v.decl) (hgrowing : v'.growing = v.growing)
    (hdictionary : v'.dictionary = v.dictionary) (hpromises : Promise.Stay v.promises v'.promises) :
    v.Evolves v' := by
  refine ⟨hdecl, fun m hm => ?_, hpromises⟩
  cases m with
  | growing => exact hgrowing.trans hm
  | dictionary => exact hdictionary.trans hm

end Evolves

/-- A promise is put behind those that are there. -/
theorem evolves_addPromise (v : Variable) (q : Promise) : v.Evolves (v.addPromise q) :=
  .of_eq rfl rfl rfl (.append v.promises [q])

/-- The written properties do not count for what a variable has become. -/
theorem evolves_added (v : Variable) (added : List Added) : v.Evolves { v with added } :=
  .of_eq rfl rfl rfl (.refl _)

/-- The candidates do not count for what a variable has become. -/
theorem evolves_candidates (v : Variable) (candidates : List Layout) :
    v.Evolves { v with candidates } :=
  .of_eq rfl rfl rfl (.refl _)

/-- A variable with one more candidate is what has become of it. -/
theorem evolves_addCandidate (v : Variable) (l : Layout) : v.Evolves (v.addCandidate l) := by
  rw [addCandidate]
  split
  · exact v.evolves_candidates _
  · exact .refl v

/-- A variable that is marked as growing is what has become of it. -/
theorem evolves_growing (v : Variable) : v.Evolves { v with growing := true } := by
  refine ⟨rfl, fun m hm => ?_, .refl _⟩
  cases m with
  | growing => rfl
  | dictionary => exact hm

/-- A dictionary is marked as one. -/
theorem marked_makeDictionary (v : Variable) : v.makeDictionary.marked .dictionary = true := by
  rw [makeDictionary]
  split
  · assumption
  · rfl

/-- A dictionary made of a variable is what has become of it. -/
theorem evolves_makeDictionary (v : Variable) : v.Evolves v.makeDictionary := by
  refine ⟨v.decl_makeDictionary, fun m hm => ?_, ?_⟩
  · cases m with
    | growing =>
      rw [makeDictionary]
      split <;> exact hm
    | dictionary => exact v.marked_makeDictionary
  · rw [makeDictionary]
    split
    · exact .refl _
    · refine .map (fun q => ?_) v.promises
      split
      · exact ⟨q.resolved, rfl⟩
      · exact ⟨true, rfl⟩

/-- Refining the elements of a variable lets it evolve. -/
theorem evolves_refineElements (v : Variable) (l : Layout) (r : Registry) :
    v.Evolves (v.refineElements l r).1.1 := by
  unfold refineElements
  split
  · exact .refl v
  · exact v.evolves_candidates _

/-- Noting a pushed element lets a variable evolve. -/
theorem evolves_addPushed (v : Variable) (l : Layout) (r : Registry) :
    v.Evolves (v.addPushed l r).1 := by
  unfold addPushed
  simp only
  split
  · exact v.evolves_candidates _
  · exact v.evolves_addCandidate _

/-- Using a layout for a promise lets a variable evolve. -/
theorem evolves_apply (v : Variable) (q : Promise) (l : Layout) (r : Registry) :
    v.Evolves (v.apply q l r).1.1 := by
  unfold apply
  split
  · split
    · exact v.evolves_added _
    · exact v.evolves_addCandidate l
  · split
    · exact .refl v
    · exact v.evolves_addCandidate _
  · split
    · exact v.evolves_added _
    · exact v.evolves_addPushed l r
  · exact v.evolves_addCandidate _
  · exact v.evolves_refineElements l r

/-- Picking a winner lets a variable evolve. -/
theorem evolves_collapse (v : Variable) (r : Registry) : v.Evolves (v.collapse r).1.1 := by
  rw [collapse_eq]
  exact .of_eq rfl rfl rfl (.refl _)

end Variable

/-! ## States -/

namespace State

/-- Every variable of `st'` is what has become of one of `st`. -/
def Evolves (st st' : State) : Prop := ∀ v' ∈ st'.vars, ∃ v ∈ st.vars, v.Evolves v'

namespace Evolves

variable {st st' st'' : State}

/-- States with the same variables evolve into each other. -/
theorem of_vars_eq (h : st'.vars = st.vars) : st.Evolves st' :=
  fun v' hv' => ⟨v', h ▸ hv', .refl v'⟩

/-- A state that has evolved twice has evolved. -/
theorem trans (h : st.Evolves st') (h' : st'.Evolves st'') : st.Evolves st'' := by
  intro v'' hv''
  obtain ⟨v', hv', hlast⟩ := h' v'' hv''
  obtain ⟨v, hv, hfirst⟩ := h v' hv'
  exact ⟨v, hv, hfirst.trans hlast⟩

end Evolves

/-- Whatever state the computation starts in, variables do no more than evolve. -/
def Evolving {α : Type} (m : StateM State α) : Prop := ∀ st : State, st.Evolves (m st).2

namespace Evolving

variable {α β : Type}

/-- An answer alone lets variables evolve. -/
theorem pure (a : α) : Evolving (Pure.pure a) := fun _ => .of_vars_eq rfl

/-- Two computations that let variables evolve do so one after the other. -/
theorem bind {m : StateM State α} {f : α → StateM State β} (hm : Evolving m)
    (hf : ∀ a, Evolving (f a)) : Evolving (m >>= f) :=
  fun st => (hm st).trans (hf _ _)

/-- Reading the state lets variables evolve if what follows does. -/
theorem read {f : State → StateM State β} (hf : ∀ st, Evolving (f st)) : Evolving (get >>= f) :=
  fun st => hf st st

/-- A step of the store leaves variables alone. -/
theorem withStore (step : StateM Store α) : Evolving (State.withStore step) :=
  fun _ => .of_vars_eq rfl

/-- A change of a function leaves variables alone. -/
theorem changeRoutine (fn : NodeId) (change : Routine → Routine) :
    Evolving (State.changeRoutine fn change) :=
  fun _ => .of_vars_eq rfl

/-- A change that lets a variable evolve lets all of them evolve. -/
theorem changeVariable (decl : NodeId) {change : Variable → Variable}
    (hchange : ∀ v : Variable, v.Evolves (change v)) :
    Evolving (State.changeVariable decl change) := by
  intro st v' hv'
  obtain ⟨v, hv, rfl⟩ := List.mem_map.mp hv'
  refine ⟨v, hv, ?_⟩
  split
  · exact hchange v
  · exact .refl v

/-- A change that may also register layouts lets variables evolve if it lets the one evolve. -/
theorem changeVariableWith (decl : NodeId) {change : Variable → Registry → Variable × Registry}
    (hchange : ∀ (v : Variable) r, v.Evolves (change v r).1) :
    Evolving (State.changeVariableWith decl change) := by
  intro st
  rw [State.changeVariableWith, get_bind_apply]
  cases hfind : st.vars.find? (·.decl = decl) with
  | none => exact .of_vars_eq rfl
  | some v =>
    intro v' hv'
    obtain ⟨u, hu, rfl⟩ := List.mem_map.mp hv'
    split
    · exact ⟨v, List.mem_of_find?_eq_some hfind, hchange v _⟩
    · exact ⟨u, hu, .refl u⟩

end Evolving

end State

/-! ## The walk -/

namespace Subject

open State (Evolving)

variable {s : Subject}

/-- Using a derived layout lets variables evolve if both branches do. -/
theorem withLayout_evolving (hint : String) (value : NodeId) {absent : StateM State Unit}
    {present : Layout → StateM State Unit} (habsent : Evolving absent)
    (hpresent : ∀ l, Evolving (present l)) :
    Evolving (s.withLayout hint value absent present) := by
  refine (Evolving.withStore _).bind fun answer => ?_
  cases answer with
  | none => exact habsent
  | some l => exact hpresent l

/-- Under every kind of step of the walk variables do no more than evolve. -/
theorem walks_evolving (s : Subject) : s.Walks Evolving where
  pure := .pure
  bind := .bind
  read := .read
  note _ _ := .withStore _
  derive _ _ := .withStore _
  object d := .changeVariable d fun _ => .of_eq rfl rfl rfl (.refl _)
  growing d := .changeVariable d (·.evolves_growing)
  dictionary d := .changeVariable d (·.evolves_makeDictionary)
  key d := .changeVariable d (·.evolves_addCandidate _)
  promise d q _ := .changeVariable d (·.evolves_addPromise q)
  value d hint id := withLayout_evolving hint id (.changeVariable d (·.evolves_addPromise _))
    fun l => .changeVariable d (·.evolves_addCandidate l)
  keyed d id := withLayout_evolving "" id (.changeVariable d (·.evolves_addPromise _))
    fun _ => .changeVariableWith d fun v _ => v.evolves_addCandidate _
  element d id := withLayout_evolving "" id (.changeVariable d (·.evolves_addPromise _))
    fun l => .changeVariableWith d fun v r => v.evolves_refineElements l r
  pushed d id := withLayout_evolving "" id (.changeVariable d (·.evolves_addPromise _))
    fun l => .changeVariableWith d fun v r => v.evolves_addPushed l r
  self d _ _ := .changeVariable d (·.evolves_added _)
  property d name _ id := by
    refine withLayout_evolving name id (.changeVariable d fun v => ?_) fun l => ?_
    · exact (v.evolves_added _).trans ((v.reserve name).evolves_addPromise _)
    · exact .changeVariable d (·.evolves_added _)
  propertyPushed d name _ id := by
    refine withLayout_evolving "" id (.changeVariable d fun v => ?_) fun l => ?_
    · exact (v.evolves_added _).trans ((v.reserve name).evolves_addPromise _)
    · exact .changeVariableWith d fun v _ => v.evolves_added _
  mark fn _ _ := .changeRoutine fn _
  argument fn _ _ id := withLayout_evolving _ id (.changeRoutine fn _) fun _ => .changeRoutine fn _
  returned fn id settled _ _ _ := by
    refine (Evolving.withStore _).bind fun answer => ?_
    simp only
    repeat' split
    · exact .changeRoutine fn _
    · exact .pure ()
    · exact .changeRoutine fn _

/-! ## Passes -/

/-- In a pass variables do no more than evolve. -/
theorem settles_evolves (s : Subject) (vars : List Variable) :
    s.Settles (fun _ => True) (fun _ => True) (fun v => ∃ u ∈ vars, u.Evolves v) fun _ => True := by
  refine settles_of_rel .trans Variable.evolves_collapse (fun v done q ps l r => ?_)
    Variable.evolves_addCandidate vars
  have hv := v.evolves_apply q l r
  exact ⟨hv.decl, hv.marks, .settle done q ps _⟩

/-- The phase that picks winners lets variables evolve. -/
theorem collapsePhase_evolves (s : Subject) (st : State) : st.Evolves (collapsePhase st).2 :=
  ((s.settles_evolves st.vars).collapsePhase (.of_vars _) st (State.Evolves.of_vars_eq rfl)).1

/-- Any number of passes lets variables evolve. -/
theorem after_evolves (st : State) (k : Nat) : st.Evolves (s.after st k) :=
  (s.settles_evolves st.vars).after (.of_vars _) (State.Evolves.of_vars_eq rfl) k

/-- Variables are in the end what has become of those that the walk leaves. -/
theorem resolve_evolves (s : Subject) (bound : Nat) : s.collect.Evolves (s.resolve bound).state :=
  (s.settles_evolves s.collect.vars).resolve (.of_vars _) (fun _ _ _ _ => ⟨trivial, trivial⟩)
    (State.Evolves.of_vars_eq rfl) bound

end Subject

end LayoutInference
