import Mathlib
import LayoutInference.Proofs.FittingDerivation
import LayoutInference.Proofs.LawfulRuns

/-!
# Literals fit throughout a run

The walk over a program derives literals wherever a value is looked at. Each literal gets a layout that
fits, and the other steps of the walk at most register more layouts: `Subject.walks_keepsFitting`. After
the walk all literals have their layouts and keep them, so these fit in every store that has grown from
there (`Subject.literalsFit_of_grown`), the stores of passes and of questions included.
-/

namespace LayoutInference

/-- Layouts may have been registered, but none was kept for a literal. -/
structure Store.Widens (st st' : Store) : Prop where
  registry : st.registry ≤ st'.registry
  literals : st'.literals = st.literals

/-- A store in which nothing was done has widened. -/
theorem Store.Widens.refl (st : Store) : st.Widens st := ⟨le_refl _, rfl⟩

namespace Subject

variable {s : Subject}

/-- The layouts of a state keep to the laws, and those of self-contained literals fit. -/
structure FittingState (s : Subject) (st : State) : Prop where
  wellFormed : st.WellFormed
  obeys : st.Obeys (fun l => l.isPlain = true) fun r => r.Plain ∧ r.Bodied
  tracks : st.Tracks AllSealed s.program.propertyNames []
  literals : s.LiteralsFit st.toStore

/-- The store of a fitting state is fitting. -/
theorem FittingState.store {st : State} (h : s.FittingState st) : s.Fitting st.toStore :=
  ⟨h.wellFormed.store, h.obeys.store, h.tracks.store, h.literals⟩

/-- A step of the walk that keeps to the laws. -/
def Lawful (s : Subject) {α : Type} (m : StateM State α) : Prop :=
  Collects m
    ∧ Keeps (State.Obeys (fun l => l.isPlain = true) fun r => r.Plain ∧ r.Bodied) (fun _ => True) m
    ∧ s.KeepsTrack AllSealed [] (fun _ => True) m

/-- A step of the walk after which the state is fitting if it was before. -/
abbrev KeepsFitting (s : Subject) {α : Type} (m : StateM State α) : Prop :=
  Keeps s.FittingState (fun _ => True) m

namespace Lawful

variable {α : Type} {m : StateM State α}

/-- A lawful step keeps states fitting if the literals fit afterwards. -/
theorem keepsFitting (h : s.Lawful m)
    (hliterals : ∀ st, s.FittingState st → s.LiteralsFit (m st).2.toStore) : s.KeepsFitting m := by
  obtain ⟨hcollects, hobeys, htracks⟩ := h
  exact fun st hst => ⟨⟨(hcollects st hst.wellFormed).sound, (hobeys st hst.obeys).1,
    (htracks st hst.tracks).1, hliterals st hst⟩, trivial⟩

/-- A step that leaves the store as it is. -/
theorem of_toStore_eq (h : s.Lawful m) (hstore : ∀ st, (m st).2.toStore = st.toStore) :
    s.KeepsFitting m :=
  h.keepsFitting fun st hst => (hstore st).symm ▸ hst.literals

variable (hs : s.Ruled) (hnamed : s.Named AllSealed)

include hs hnamed

/-- A step that puts a derived layout to use. -/
theorem of_derived {hint : String} {id : NodeId} {f : Option Layout → StateM State α}
    (h : s.Lawful (s.derived hint id >>= f))
    (hf : ∀ answer (st : State), st.WellFormed → (∀ l, answer = some l → st.registry.Knows l) →
      st.toStore.Widens (f answer st).2.toStore) : s.KeepsFitting (s.derived hint id >>= f) := by
  refine h.keepsFitting fun st hst => ?_
  have hyields := determine_yields hs hnamed hint id hst.store
  have hsound := (State.withStore_runs hst.wellFormed
    (determine_runs hs.numbered hint id hst.wellFormed.store)).sound
  have hwidens := hf (s.derived hint id st).1 (s.derived hint id st).2 hsound fun l hl =>
    (hyields.holds l hl).known
  exact hyields.fitting.literals.mono hwidens.registry hwidens.literals

/-- Using a derived layout keeps states fitting if the use keeps no literal. -/
theorem of_withLayout {hint : String} {id : NodeId} {absent : StateM State Unit}
    {present : Layout → StateM State Unit} (h : s.Lawful (s.withLayout hint id absent present))
    (habsent : ∀ st, (absent st).2.toStore = st.toStore)
    (hpresent : ∀ l (st : State), st.WellFormed → st.registry.Knows l →
      st.toStore.Widens (present l st).2.toStore) :
    s.KeepsFitting (s.withLayout hint id absent present) := by
  refine of_derived hs hnamed h fun answer st hst hknown => ?_
  cases answer with
  | none => exact (habsent st).symm ▸ .refl _
  | some l => exact hpresent l st hst (hknown l rfl)

end Lawful

/-- Changing a variable by an operation that lets the registry grow. -/
theorem changeVariableWith_widens {decl : NodeId}
    {change : Variable → Registry → Variable × Registry} {st : State}
    (h : ∀ v ∈ st.vars, st.registry ≤ (change v st.registry).2) :
    st.toStore.Widens (State.changeVariableWith decl change st).2.toStore := by
  rw [State.changeVariableWith, get_bind_apply]
  cases hfind : st.vars.find? (·.decl = decl) with
  | none => exact .refl _
  | some v => exact ⟨h v (List.mem_of_find?_eq_some hfind), rfl⟩

section

variable (hs : s.Ruled) (hnamed : s.Named AllSealed)

include hs hnamed

/-- All steps of the walk keep to the laws. -/
theorem walks_lawful : s.Walks fun {α : Type} (m : StateM State α) => s.Lawful m :=
  (walks_collects hs.numbered).and
    ((walks_obeys Registry.bodied_law s).and (walks_tracks hnamed))

open Lawful in
/-- Every kind of step of the walk keeps states fitting. -/
theorem walks_keepsFitting (h : s.Walks fun {α : Type} (m : StateM State α) => s.Lawful m) :
    s.Walks fun {α : Type} (m : StateM State α) => s.KeepsFitting m where
  pure _ := .pure trivial
  bind hm hf := hm.bind fun a _ => hf a
  read hf := .read fun st _ => hf st
  note notice node := (h.note notice node).keepsFitting fun _ hst =>
    (Store.note_yields hst.store _ _ _).fitting.literals
  derive hint id := (h.derive hint id).keepsFitting fun _ hst =>
    (determine_yields hs hnamed hint id hst.store).fitting.literals
  object d := (h.object d).of_toStore_eq fun _ => rfl
  growing d := (h.growing d).of_toStore_eq fun _ => rfl
  dictionary d := (h.dictionary d).of_toStore_eq fun _ => rfl
  key d := (h.key d).of_toStore_eq fun _ => rfl
  promise d q hq := (h.promise d q hq).of_toStore_eq fun _ => rfl
  value d hint id :=
    of_withLayout hs hnamed (h.value d hint id) (fun _ => rfl) fun _ _ _ _ => .refl _
  keyed d id := of_withLayout hs hnamed (h.keyed d id) (fun _ => rfl) fun _ _ hst hl =>
    changeVariableWith_widens fun _ _ =>
      (Registry.dictionary_runs hst.store.registry hl False).grows
  element d id := of_withLayout hs hnamed (h.element d id) (fun _ => rfl) fun _ _ hst hl =>
    changeVariableWith_widens fun v hv =>
      (Variable.refineElements_runs hst.store.registry (hst.vars v hv) hl False).grows
  pushed d id := of_withLayout hs hnamed (h.pushed d id) (fun _ => rfl) fun _ _ hst hl =>
    changeVariableWith_widens fun v hv =>
      (Variable.addPushed_runs hst.store.registry (hst.vars v hv) hl False).grows
  self d _ hname := (h.self d hname).of_toStore_eq fun _ => rfl
  property d _ hname id :=
    of_withLayout hs hnamed (h.property d hname id) (fun _ => rfl) fun _ _ _ _ => .refl _
  propertyPushed d _ hname id :=
    of_withLayout hs hnamed (h.propertyPushed d hname id) (fun _ => rfl) fun _ _ hst hl =>
      changeVariableWith_widens fun _ _ =>
        (Registry.dynamicArray_runs hst.store.registry hl False).grows
  mark fn _ hchange := (h.mark fn hchange).of_toStore_eq fun _ => rfl
  argument fn index hint id :=
    of_withLayout hs hnamed (h.argument fn index hint id) (fun _ => rfl) fun _ _ _ _ => .refl _
  returned fn id settled _ _ hretProps := by
    refine of_derived hs hnamed (h.returned fn id settled hretProps) fun answer st _ _ => ?_
    by_cases hfallback : (answer.getD .missing).isFallback = true
    · simp only [hfallback, if_true]
      exact .refl _
    · by_cases hsettled : settled
      · simp only [hfallback, hsettled, if_true]
        exact .refl _
      · simp only [hfallback, hsettled, if_false]
        exact .refl _

/-- After the walk the layouts of self-contained literals fit. -/
theorem collect_literalsFit : s.LiteralsFit s.collect.toStore := by
  have hinitial : s.FittingState s.initialState :=
    { wellFormed := initialState_wellFormed
      obeys := initialState_obeys Registry.bodied_law
      tracks := initialState_tracks AllSealed s _
      literals := fun _ _ _ _ _ _ hl => by cases hl }
  have hwalk := walks_keepsFitting hs hnamed (walks_lawful hs hnamed)
  exact (hwalk.collectNodes s.program.nodes.toList _ hinitial).1.literals

/-- All literals have their layouts after the walk and keep them, so the layouts fit in all stores that
have grown from there. -/
theorem literalsFit_of_grown {source : Source} {script : Script}
    (hscript : Program.ofScript source script = .ok s.program) {st : Store}
    (hle : s.collect.toStore ≤ st) : s.LiteralsFit st := by
  intro id n l hn hcollection hid hl
  obtain ⟨first, hfirst⟩ := collect_literals hscript (Program.mem_nodes hn) hcollection
  rw [hs.numbered.id_eq hn] at hfirst
  have hsame : l = first := Option.some.inj (hl.symm.trans (hle.literals id first hfirst))
  exact hsame ▸ (collect_literalsFit hs hnamed id n first hn hcollection hid hfirst).mono hle.registry

end

end Subject

end LayoutInference
