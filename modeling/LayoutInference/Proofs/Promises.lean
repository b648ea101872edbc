import Mathlib
import LayoutInference.Proofs.Winners

/-!
# Keeping promises

What one round over the promises of a variable or a function does. Three things are shown of each
round, all of them by `Runs`: the round could be repeated at any later time; the number of promises
that wait goes down when the round reports progress and never goes up; and a round that reports no
progress leaves the evidence as it was, because none of the waiting promises can be kept.
-/

namespace LayoutInference

/-- The number of promises that wait. -/
def waiting (ps : List Promise) : Nat := ps.countP (!·.resolved)

@[simp] theorem waiting_nil : waiting [] = 0 := rfl

/-- The promises of two lists wait together. -/
@[simp] theorem waiting_append (ps qs : List Promise) :
    waiting (ps ++ qs) = waiting ps + waiting qs :=
  List.countP_append

/-- One more promise counts if it waits. -/
theorem waiting_cons (p : Promise) (ps : List Promise) :
    waiting (p :: ps) = waiting ps + (!p.resolved).toNat := by
  rw [waiting, List.countP_cons, waiting]
  cases p.resolved <;> rfl

/-- A promise that was looked at is counted unless it was kept. -/
theorem waiting_cons_resolved (p : Promise) (kept : Bool) (ps : List Promise) :
    waiting ({ p with resolved := kept } :: ps) + kept.toNat = waiting ps + 1 := by
  rw [waiting_cons]
  cases kept <;> rfl

/-- A waiting promise that is kept is one less. -/
theorem waiting_resolve (done : List Promise) {p : Promise} (hp : p.resolved = false)
    (ps : List Promise) :
    waiting (done ++ [{ p with resolved := true }] ++ ps) + 1 = waiting (done ++ p :: ps) := by
  simp [waiting_cons, hp]
  omega

/-- Two reports taken together count for no more than the two one by one. -/
theorem toNat_or_le (a b : Bool) : (a || b).toNat ≤ a.toNat + b.toNat := by
  cases a <;> cases b <;> decide

namespace View

/-- The layout that a promise asks for; none for one that does not wait. -/
def asked (view : View) (p : Promise) : StateM Store Layout :=
  if p.resolved then pure .missing else view.layoutOf p.node

/-- The layout of a node is not known, now and later, as long as the evidence stays the same. -/
def Unknown (view : View) (id : NodeId) (st : Store) : Prop :=
  ∀ st' : Store, st'.WellFormed → st ≤ st' → (view.layoutOf id st').1 = .missing

/-- What is unknown stays unknown in a greater store. -/
theorem Unknown.mono {view : View} {id : NodeId} {st st' : Store} (h : view.Unknown id st)
    (hle : st ≤ st') : view.Unknown id st' :=
  fun st'' hst'' hle' => h st'' hst'' (hle.trans hle')

variable {view : View} (hp : view.program.Numbered)

include hp

/-- Asking for a layout: what the answer `missing` means, and that no other answer comes from a
promise that does not wait. -/
theorem asked_runs (p : Promise) {st : Store} (hst : st.WellFormed) (hview : view.Known st) :
    Runs True (fun l st' => Store.Known l st'
      ∧ (l ≠ .missing → p.resolved = false)
      ∧ (l = .missing → p.resolved = false → view.Unknown p.node st')
      ∧ (p.resolved = false → ∀ st'' : Store, st''.WellFormed → st' ≤ st'' →
        (view.layoutOf p.node st'').1 = l)) (view.asked p) st := by
  by_cases hresolved : p.resolved = true
  · rw [asked, if_pos hresolved]
    exact .pure hst ⟨Registry.knows_missing _, fun h => absurd rfl h,
      fun _ h => absurd (hresolved.symm.trans h) (by simp),
      fun h => absurd (hresolved.symm.trans h) (by simp)⟩
  · rw [asked, if_neg hresolved]
    have hruns := layoutOf_runs hp p.node hst hview
    have hlater (st'' : Store) (hst'' : st''.WellFormed) (hle : (view.layoutOf p.node st).2 ≤ st'') :
        (view.layoutOf p.node st'').1 = (view.layoutOf p.node st).1 := by
      rw [hruns.repeats trivial st'' hst'' hle]
    refine hruns.imp fun hknown => ⟨hknown, fun _ => by simpa using hresolved, ?_, fun _ => hlater⟩
    intro hmissing _ st'' hst'' hle
    rw [hlater st'' hst'' hle, hmissing]

end View

/-! ## Promises of variables -/

namespace Variable

/-- A candidate that was not refined is as it was. -/
theorem refineCandidate_of_unchanged {l c : Layout} {r : Registry}
    (h : (refineCandidate l r c).1.2 = false) : (refineCandidate l r c).1.1 = c := by
  unfold refineCandidate at h ⊢
  split at h
  · split at h
    · cases h
    · rw [if_neg (by assumption)]
  · split at h
    · cases h
    · rw [if_neg (by assumption)]
  · rfl

/-- Candidates of which none was refined are as they were. -/
theorem refineCandidates_of_unchanged {l : Layout} {cs : List Layout} {r : Registry}
    (h : (refineCandidates l r cs).1.2 = false) : (refineCandidates l r cs).1.1 = cs := by
  induction cs generalizing r with
  | nil => rfl
  | cons c cs ih =>
    obtain ⟨hc, hcs⟩ := Bool.or_eq_false_iff.mp h
    exact congrArg₂ List.cons (refineCandidate_of_unchanged hc) (ih hcs)

/-- A promise that a layout does not keep leaves the variable as it is. -/
theorem apply_of_not_kept {v : Variable} {p : Promise} {l : Layout} {r : Registry}
    (h : (v.apply p l r).1.2 = false) : (v.apply p l r).1.1 = v := by
  -- Only elements that are not known and candidates that cannot be refined leave a promise waiting.
  cases huse : p.use with
  | same =>
    simp only [apply, huse] at h
    split at h <;> cases h
  | elementOf =>
    simp only [apply, huse] at h ⊢
    split at h
    · rw [if_pos (by assumption)]
    · cases h
  | arrayOf =>
    simp only [apply, huse] at h
    split at h <;> cases h
  | dictOf =>
    simp only [apply, huse] at h
    cases h
  | indexed =>
    simp only [apply, huse, refineElements] at h ⊢
    split at h
    · rw [if_pos (by assumption)]
    · rw [if_neg (by assumption)]
      simp only at h ⊢
      rw [refineCandidates_of_unchanged h]

/-- The elements that a loop walks over are known if the container is. -/
theorem knows_walkedElement {r : Registry} {l : Layout} (hl : r.Knows l) :
    r.Knows (walkedElement l) := by
  unfold walkedElement
  split
  · exact Registry.knows_scalar r _
  · split
    · exact hl.elem
    · exact Registry.knows_missing r

/-- Using a known layout for a promise updates the evidence, and the same when it is used again. -/
theorem apply_runs {r : Registry} (hr : r.WellFormed) {v : Variable} (hv : v.Known r) (p : Promise)
    {l : Layout} (hl : r.Knows l) :
    Runs True (fun a r' => v.Updates a.1 r') (v.apply p l) r := by
  unfold apply
  cases p.use with
  | same =>
    by_cases hproperty : p.property ≠ ""
    · simp only [if_pos hproperty]
      exact .pure hr ⟨rfl, hv.write p.property hl⟩
    · simp only [if_neg hproperty]
      exact .pure hr ⟨v.decl_addCandidate l, hv.addCandidate hl⟩
  | elementOf =>
    by_cases helement : (walkedElement l).isFallback = true
    · simp only [if_pos helement]
      exact .pure hr ⟨rfl, hv⟩
    · simp only [if_neg helement]
      exact .pure hr ⟨v.decl_addCandidate _, hv.addCandidate (knows_walkedElement hl)⟩
  | arrayOf =>
    by_cases hproperty : p.property ≠ ""
    · simp only [if_pos hproperty]
      refine (Registry.dynamicArray_runs hr hl True).bind
        (f := fun array => pure (v.write p.property array, true)) ?_
      exact fun array r' hr' hle harray => .pure hr' ⟨rfl, (hv.mono hle).write p.property harray⟩
    · simp only [if_neg hproperty]
      exact (addPushed_runs hr hv hl True).map (·, true) fun _ _ h => h
  | dictOf =>
    refine (Registry.dictionary_runs hr hl True).bind
      (f := fun dict => pure (v.addCandidate dict, true)) ?_
    exact fun dict r' hr' hle hdict =>
      .pure hr' ⟨v.decl_addCandidate dict, (hv.mono hle).addCandidate hdict⟩
  | indexed => exact refineElements_runs hr hv hl True

/-- A layout that does not keep a promise never will. -/
theorem apply_rests {r : Registry} (hr : r.WellFormed) {v : Variable} (hv : v.Known r) (p : Promise)
    {l : Layout} (hl : r.Knows l) :
    Runs True (fun a r' => v.Updates a.1 r' ∧ (a.2 = false → a.1 = v ∧
      ∀ r'' : Registry, r''.WellFormed → r' ≤ r'' → (v.apply p l r'').1.2 = false))
      (v.apply p l) r := by
  have hruns := apply_runs hr hv p hl
  refine hruns.imp fun hupdates => ⟨hupdates, fun hkept => ⟨apply_of_not_kept hkept, ?_⟩⟩
  intro r'' hr'' hle
  rw [hruns.repeats trivial r'' hr'' hle]
  exact hkept

/-- A waiting promise cannot be kept, now and later, as long as the evidence stays the same: its node
has no layout, or one that the promise cannot use. -/
def Stuck (view : View) (v : Variable) (p : Promise) (st : Store) : Prop :=
  ∀ st' : Store, st'.WellFormed → st ≤ st' → (view.layoutOf p.node st').1 = .missing
    ∨ (v.apply p (view.layoutOf p.node st').1 st'.registry).1.2 = false

/-- A promise that is stuck stays stuck in a greater store. -/
theorem Stuck.mono {view : View} {v : Variable} {p : Promise} {st st' : Store}
    (h : Stuck view v p st) (hle : st ≤ st') : Stuck view v p st' :=
  fun st'' hst'' hle' => h st'' hst'' (hle.trans hle')

/-- What a round over promises of a variable ends in: the variable, the promises, and whether any
promise was kept. -/
structure Discharged (view : View) (v : Variable) (ps : List Promise)
    (a : Variable × List Promise × Bool) (st : Store) : Prop where
  updates : v.Updates a.1 st.registry
  waiting : waiting a.2.1 + a.2.2.toNat ≤ waiting ps
  rests : a.2.2 = false →
    a.1 = v ∧ a.2.1 = ps ∧ ∀ p ∈ ps, p.resolved = false → Stuck view v p st

/-- The first promise is settled if there is a layout for it, and then the others are gone through. -/
theorem dischargePromises_cons (view : View) (v : Variable) (p : Promise) (ps : List Promise) :
    v.dischargePromises view (p :: ps) = (do
      let l ← view.asked p
      if l = .missing then
        let (v, ps, progressed) ← v.dischargePromises view ps
        return (v, p :: ps, progressed)
      else
        let (v, applied) ← Store.withRegistry (v.apply p l)
        let (v, ps, progressed) ← v.dischargePromises view ps
        return (v, { p with resolved := applied } :: ps, applied || progressed)) := by
  rw [dischargePromises, View.asked]
  split <;> rfl

/-- The promises of all variables. -/
def promisesOf (vars : List Variable) : List Promise := vars.flatMap (·.promises)

@[simp] theorem promisesOf_cons (v : Variable) (vs : List Variable) :
    promisesOf (v :: vs) = v.promises ++ promisesOf vs := rfl

/-- What a round over the promises of all variables ends in. -/
structure AllDischarged (view : View) (vars : List Variable) (a : List Variable × Bool)
    (st : Store) : Prop where
  updates : List.Forall₂ (fun v v' => v.Updates v' st.registry) vars a.1
  waiting : waiting (promisesOf a.1) + a.2.toNat ≤ waiting (promisesOf vars)
  rests : a.2 = false → a.1 = vars ∧
    ∀ v ∈ vars, ∀ p ∈ v.promises, p.resolved = false → Stuck view v p st

/-- Updated evidence stays about known records as the registry grows. -/
theorem Updates.mono {v v' : Variable} {r r' : Registry} (h : v.Updates v' r) (hle : r ≤ r') :
    v.Updates v' r' :=
  ⟨h.decl, h.known.mono hle⟩

variable {view : View} (hp : view.program.Numbered)

include hp

/-- A round over promises of a variable ends as described, and the same when it is made again. -/
theorem dischargePromises_runs (ps : List Promise) {v : Variable} {st : Store} (hst : st.WellFormed)
    (hview : view.Known st) (hv : v.Known st.registry) :
    Runs True (Discharged view v ps) (v.dischargePromises view ps) st := by
  induction ps generalizing v st with
  | nil => exact .pure hst ⟨⟨rfl, hv⟩, le_refl _, fun _ => ⟨rfl, rfl, by simp⟩⟩
  | cons p ps ih =>
    rw [dischargePromises_cons]
    refine (View.asked_runs hp p hst hview).bind ?_
    rintro l st₁ hst₁ hle₁ ⟨hl, hwaits, hunknown, hlater⟩
    have hview₁ := hview.mono hle₁
    have hv₁ := hv.mono hle₁.registry
    split
    · -- There is no layout to ask for, and the promise is put back.
      next hmissing =>
      refine (ih hst₁ hview₁ hv₁).bind ?_
      rintro ⟨v', ps', progressed⟩ st₂ hst₂ hle₂ ⟨hupdates, hwaiting, hrests⟩
      refine .pure hst₂ ⟨hupdates, ?_, fun hquiet => ?_⟩
      · simp only [waiting_cons] at hwaiting ⊢
        omega
      · obtain ⟨rfl, rfl, hstuck⟩ := hrests hquiet
        refine ⟨rfl, rfl, List.forall_mem_cons.mpr ⟨fun hwait => ?_, hstuck⟩⟩
        exact fun st' hst' hle => .inl (hunknown hmissing hwait st' hst' (hle₂.trans hle))
    · -- There is a layout, which the promise may still have no use for.
      next hknown =>
      have hwait : p.resolved = false := hwaits hknown
      refine (Store.withRegistry_runs hst₁ (apply_rests hst₁.registry hv₁ p hl)).bind ?_
      rintro ⟨v', applied⟩ st₂ hst₂ hle₂ ⟨hupdates, hrest⟩
      refine (ih hst₂ (hview₁.mono hle₂) hupdates.known).bind ?_
      rintro ⟨v'', ps', progressed⟩ st₃ hst₃ hle₃ ⟨hupdates', hwaiting, hrests⟩
      refine .pure hst₃ ⟨⟨hupdates'.decl.trans hupdates.decl, hupdates'.known⟩, ?_, fun hquiet => ?_⟩
      · have hcount := waiting_cons_resolved p applied ps'
        have hflags := toNat_or_le applied progressed
        simp only [waiting_cons p, hwait, Bool.not_false, Bool.toNat_true] at hwaiting ⊢
        omega
      · obtain ⟨rfl, rfl⟩ := Bool.or_eq_false_iff.mp hquiet
        obtain ⟨hsame, hnever⟩ := hrest rfl
        obtain rfl : v' = v := hsame
        obtain ⟨rfl, rfl, hstuck⟩ := hrests rfl
        have hp' : ({ p with resolved := false } : Promise) = p := by rw [← hwait]
        refine ⟨rfl, by rw [hp'], List.forall_mem_cons.mpr ⟨fun _ => ?_, hstuck⟩⟩
        intro st' hst' hle
        have hle' := hle₂.trans (hle₃.trans hle)
        rw [hlater hwait st' hst' hle']
        exact .inr (hnever st'.registry hst'.registry (hle₃.trans hle).registry)

/-- A round over the promises of a variable lets fewer of them wait for each that it reports. -/
theorem discharge_runs {v : Variable} {st : Store} (hst : st.WellFormed) (hview : view.Known st)
    (hv : v.Known st.registry) :
    Runs True (fun a st' => v.Updates a.1 st'.registry
      ∧ waiting a.1.promises + a.2.toNat ≤ waiting v.promises
      ∧ (a.2 = false → a.1 = v ∧ ∀ p ∈ v.promises, p.resolved = false → Stuck view v p st'))
      (v.discharge view) st := by
  refine (dischargePromises_runs hp v.promises hst hview hv).bind ?_
  rintro ⟨v', ps, progressed⟩ st' hst' _ ⟨hupdates, hwaiting, hrests⟩
  have hknown := hupdates.known
  refine .pure hst' ⟨⟨hupdates.decl, hknown.candidates, hknown.added, hknown.winner⟩, hwaiting, ?_⟩
  intro hquiet
  obtain ⟨hsame, hps, hstuck⟩ := hrests hquiet
  simp only at hsame hps
  subst hsame hps
  exact ⟨rfl, hstuck⟩

/-- A round over the promises of all variables ends as described, and the same when it is made again. -/
theorem dischargeAll_runs {vars : List Variable} {st : Store} (hst : st.WellFormed)
    (hview : view.Known st) (hvars : ∀ v ∈ vars, v.Known st.registry) :
    Runs True (AllDischarged view vars) (dischargeAll view vars) st := by
  induction vars generalizing st with
  | nil => exact .pure hst ⟨.nil, le_refl _, fun _ => ⟨rfl, by simp⟩⟩
  | cons v vs ih =>
    obtain ⟨hv, hvs⟩ := List.forall_mem_cons.mp hvars
    refine (discharge_runs hp hst hview hv).bind ?_
    rintro ⟨v', progressed⟩ st₁ hst₁ hle₁ ⟨hupdates, hwaiting, hrests⟩
    refine (ih hst₁ (hview.mono hle₁) fun v hv => (hvs v hv).mono hle₁.registry).bind ?_
    rintro ⟨vs', progressedLater⟩ st₂ hst₂ hle₂ ⟨hupdates', hwaiting', hrests'⟩
    refine .pure hst₂ ⟨.cons (hupdates.mono hle₂.registry) hupdates', ?_, fun hquiet => ?_⟩
    · simp only [promisesOf_cons, waiting_append] at hwaiting hwaiting' ⊢
      have hflags := toNat_or_le progressed progressedLater
      omega
    · obtain ⟨rfl, rfl⟩ := Bool.or_eq_false_iff.mp hquiet
      obtain ⟨hsame, hstuck⟩ := hrests rfl
      obtain ⟨hsames, hstucks⟩ := hrests' rfl
      simp only at hsame hsames
      subst hsame hsames
      refine ⟨rfl, List.forall_mem_cons.mpr ⟨fun p hpmem hwait => ?_, hstucks⟩⟩
      exact (hstuck p hpmem hwait).mono hle₂

end Variable

/-! ## Promises of functions -/

/-- None of the waiting promises has a layout to ask for. -/
def View.AllUnknown (view : View) (ps : List Promise) (st : Store) : Prop :=
  ∀ p ∈ ps, p.resolved = false → view.Unknown p.node st

/-- Promises without a layout to ask for have none in a greater store. -/
theorem View.AllUnknown.mono {view : View} {ps : List Promise} {st st' : Store}
    (h : view.AllUnknown ps st) (hle : st ≤ st') : view.AllUnknown ps st' :=
  fun p hp hwait => (h p hp hwait).mono hle

namespace Slot

/-- What a round over promises of a slot ends in: the slot, and whether any promise was kept. -/
structure Discharged (view : View) (layout : Layout) (ps : List Promise) (a : Slot × Bool)
    (st : Store) : Prop where
  known : a.1.Known st.registry
  waiting : waiting a.1.promises + a.2.toNat ≤ waiting ps
  rests : a.2 = false → a.1 = ⟨layout, ps⟩ ∧ view.AllUnknown ps st

/-- The first promise of an argument is settled if there is a layout for it, and then the others are gone
through. -/
theorem discharge_cons (view : View) (layout : Layout) (p : Promise) (ps : List Promise) :
    discharge view layout (p :: ps) = (do
      let l ← view.asked p
      if l = .missing then
        let (slot, progressed) ← discharge view layout ps
        return ({ slot with promises := p :: slot.promises }, progressed)
      else
        let (slot, _) ← discharge view (if layout = .missing then l else layout) ps
        return ({ slot with promises := { p with resolved := true } :: slot.promises }, true)) := by
  rw [discharge, View.asked]
  split <;> rfl

/-- The promises of all slots. -/
def promisesOf (slots : List Slot) : List Promise := slots.flatMap (·.promises)

@[simp] theorem promisesOf_cons (slot : Slot) (slots : List Slot) :
    promisesOf (slot :: slots) = slot.promises ++ promisesOf slots := rfl

/-- What a round over the promises of all slots ends in. -/
structure AllDischarged (view : View) (slots : List Slot) (a : List Slot × Bool) (st : Store) :
    Prop where
  known : ∀ slot ∈ a.1, slot.Known st.registry
  empty : List.Forall₂ (fun slot slot' => slot = {} → slot' = {}) slots a.1
  waiting : waiting (promisesOf a.1) + a.2.toNat ≤ waiting (promisesOf slots)
  rests : a.2 = false → a.1 = slots ∧ view.AllUnknown (promisesOf slots) st

variable {view : View} (hp : view.program.Numbered)

include hp

/-- A round over promises of an argument ends as described, and the same when it is made again. -/
theorem discharge_runs (ps : List Promise) {layout : Layout} {st : Store} (hst : st.WellFormed)
    (hview : view.Known st) (hlayout : st.registry.Knows layout) :
    Runs True (Discharged view layout ps) (discharge view layout ps) st := by
  induction ps generalizing layout st with
  | nil => exact .pure hst ⟨hlayout, le_refl _, fun _ => ⟨rfl, fun _ h => absurd h (by simp)⟩⟩
  | cons p ps ih =>
    rw [discharge_cons]
    refine (View.asked_runs hp p hst hview).bind ?_
    rintro l st₁ hst₁ hle₁ ⟨hl, hwaits, hunknown, -⟩
    have hview₁ := hview.mono hle₁
    have hlayout₁ := hlayout.mono hle₁.registry
    split
    · next hmissing =>
      refine (ih hst₁ hview₁ hlayout₁).bind ?_
      rintro ⟨slot, progressed⟩ st₂ hst₂ hle₂ ⟨hknown, hwaiting, hrests⟩
      refine .pure hst₂ ⟨hknown, ?_, fun hquiet => ?_⟩
      · simp only [waiting_cons] at hwaiting ⊢
        omega
      · obtain ⟨hsame, hrest⟩ := hrests hquiet
        simp only at hsame
        subst hsame
        refine ⟨rfl, List.forall_mem_cons.mpr ⟨fun hwait => ?_, hrest⟩⟩
        exact (hunknown hmissing hwait).mono hle₂
    · next hlknown =>
      have hfirst : st₁.registry.Knows (if layout = .missing then l else layout) := by
        split
        · exact hl
        · exact hlayout₁
      refine (ih hst₁ hview₁ hfirst).bind ?_
      rintro ⟨slot, progressed⟩ st₂ hst₂ hle₂ ⟨hknown, hwaiting, -⟩
      refine .pure hst₂ ⟨hknown, ?_, fun hquiet => by cases hquiet⟩
      have hcount := waiting_cons_resolved p true slot.promises
      simp only [Bool.toNat_true] at hcount
      simp only [waiting_cons p, hwaits hlknown, Bool.not_false, Bool.toNat_true] at hwaiting ⊢
      omega

/-- A round over the promises of all arguments ends as described, and the same when it is made again. -/
theorem dischargeAll_runs {slots : List Slot} {st : Store} (hst : st.WellFormed)
    (hview : view.Known st) (hslots : ∀ slot ∈ slots, slot.Known st.registry) :
    Runs True (AllDischarged view slots) (dischargeAll view slots) st := by
  induction slots generalizing st with
  | nil =>
    exact .pure hst
      ⟨by simp, .nil, le_refl _, fun _ => ⟨rfl, fun _ h => absurd h (by simp [promisesOf])⟩⟩
  | cons slot slots ih =>
    obtain ⟨hslot, hslots⟩ := List.forall_mem_cons.mp hslots
    refine (discharge_runs hp slot.promises hst hview hslot).bind ?_
    rintro ⟨slot', progressed⟩ st₁ hst₁ hle₁ ⟨hknown, hwaiting, hrests⟩
    refine (ih hst₁ (hview.mono hle₁) fun slot hslot => (hslots slot hslot).mono hle₁.registry).bind ?_
    rintro ⟨slots', progressedLater⟩ st₂ hst₂ hle₂ ⟨hknown', hempty', hwaiting', hrests'⟩
    refine .pure hst₂ ⟨List.forall_mem_cons.mpr ⟨hknown.mono hle₂.registry, hknown'⟩,
      .cons ?_ hempty', ?_, fun hquiet => ?_⟩
    · -- A slot without promises makes no progress.
      rintro rfl
      have hflag : LayoutInference.waiting slot'.promises = 0 ∧ progressed = false := by
        simpa using hwaiting
      exact (hrests hflag.2).1
    · simp only [promisesOf_cons, waiting_append] at hwaiting hwaiting' ⊢
      have hflags := toNat_or_le progressed progressedLater
      omega
    · obtain ⟨rfl, rfl⟩ := Bool.or_eq_false_iff.mp hquiet
      obtain ⟨hsame, hrest⟩ := hrests rfl
      obtain ⟨hsames, hrest'⟩ := hrests' rfl
      simp only at hsame hsames
      subst hsame hsames
      refine ⟨rfl, List.forall_mem_append.mpr ⟨hrest.mono hle₂, hrest'⟩⟩

end Slot

namespace View

/-- A view is known with a function in its place that returns a known layout. -/
theorem Known.withRoutine {view : View} {st : Store} (h : view.Known st) {r : Routine}
    (hr : st.registry.Knows r.ret) : (view.withRoutine r).Known st := by
  refine ⟨h.vars, fun r' hr' => ?_⟩
  obtain ⟨other, hother, rfl⟩ := List.mem_map.mp hr'
  split
  · exact hr
  · exact h.routines other hother

end View

namespace Routine

/-- Shaping what a function returns changes its returned layout alone. -/
theorem shape_runs {st : Store} (hst : st.WellFormed) {r : Routine} (hr : r.Known st.registry)
    (property : String) {l : Layout} (hl : st.registry.Knows l) :
    Runs True (fun r' st' => ∃ ret, r' = { r with ret } ∧ st'.registry.Knows ret)
      (r.shape property l) st := by
  unfold shape
  split
  · next id hret =>
    have hid : id ∈ st.registry.ids := by
      rw [← Registry.knows_record, ← hret]
      exact hr.ret
    have hadded : ∀ f ∈ [Field.mk property l], st.registry.Knows f.layout := by simpa using hl
    refine (Store.withRegistry_runs hst (Registry.extend_runs hst.registry hid hadded True)).bind ?_
    intro out st' hst' _ hout
    exact .pure hst' ⟨_, rfl, (Registry.knows_record _ _).mpr hout⟩
  · exact .pure hst ⟨r.ret, rfl, hr.ret⟩

/-- The first of the returned properties shapes the record if there is a layout for it. -/
theorem dischargeProps_cons (view : View) (r : Routine) (done : List Promise) (p : Promise)
    (ps : List Promise) :
    r.dischargeProps view done (p :: ps) = (do
      let l ← (view.withRoutine { r with retProps := done ++ p :: ps }).asked p
      if l = .missing then r.dischargeProps view (done ++ [p]) ps
      else
        let r ← r.shape p.property l
        let (r, _) ← r.dischargeProps view (done ++ [{ p with resolved := true }]) ps
        return (r, true)) := by
  rw [dischargeProps, View.asked]
  split <;> rfl

/-- The first of the returned values is taken if there is a layout for it. -/
theorem dischargeReturns_cons (view : View) (r : Routine) (done : List Promise) (p : Promise)
    (ps : List Promise) :
    r.dischargeReturns view done (p :: ps) = (do
      let l ← (view.withRoutine r).asked p
      if l = .missing then r.dischargeReturns view (done ++ [p]) ps
      else
        let r := if r.ret = .missing then { r with ret := l } else r
        let (r, _) ← r.dischargeReturns view (done ++ [{ p with resolved := true }]) ps
        return (r, true)) := by
  rw [dischargeReturns, View.asked]
  split <;> rfl

/-- What a round over the returned properties ends in, those of `done` being behind. -/
structure PropsDischarged (r : Routine) (done ps : List Promise) (a : Routine × Bool) (st : Store) :
    Prop where
  frame : ∃ ret, a.1 = { r with ret, retProps := a.1.retProps } ∧ st.registry.Knows ret
  waiting : waiting a.1.retProps + a.2.toNat ≤ waiting (done ++ ps)
  rests : a.2 = false → a.1 = { r with retProps := done ++ ps }

/-- What a round over the returned values ends in, those of `done` being behind. -/
structure ReturnsDischarged (view : View) (r : Routine) (done ps : List Promise)
    (a : Routine × Bool) (st : Store) : Prop where
  frame : ∃ ret, a.1 = { r with ret, retPromises := a.1.retPromises } ∧ st.registry.Knows ret
  waiting : waiting a.1.retPromises + a.2.toNat ≤ waiting (done ++ ps)
  rests : a.2 = false →
    a.1 = { r with retPromises := done ++ ps } ∧ (view.withRoutine r).AllUnknown ps st

/-- The promises of a function. -/
def promises (r : Routine) : List Promise := Slot.promisesOf r.args ++ r.retProps ++ r.retPromises

/-- A function is being shaped exactly if returned properties wait. -/
theorem shaping_iff (r : Routine) : r.shaping = true ↔ 0 < LayoutInference.waiting r.retProps := by
  rw [shaping, List.any_eq_true, LayoutInference.waiting, List.countP_pos_iff]

/-- What a round over the promises of a function ends in: the function, and whether any promise was
kept. -/
structure Discharged (view : View) (r : Routine) (a : Routine × Bool) (st : Store) : Prop where
  node : a.1.node = r.node
  params : a.1.params = r.params
  known : a.1.Known st.registry
  empty : List.Forall₂ (fun slot slot' => slot = {} → slot' = {}) r.args a.1.args
  waiting : waiting a.1.promises + a.2.toNat ≤ waiting r.promises
  shaping : a.1.shaping = true → r.shaping = true
  rests : a.2 = false → a.1 = r ∧ view.AllUnknown (Slot.promisesOf r.args) st
    ∧ (view.withRoutine r).AllUnknown r.retPromises st

variable {view : View} (hp : view.program.Numbered)

include hp

/-- A round over the returned properties ends as described, and the same when it is made again. -/
theorem dischargeProps_runs (ps : List Promise) (done : List Promise) {r : Routine} {st : Store}
    (hst : st.WellFormed) (hview : view.Known st) (hr : r.Known st.registry) :
    Runs True (PropsDischarged r done ps) (r.dischargeProps view done ps) st := by
  induction ps generalizing done r st with
  | nil =>
    refine .pure hst ⟨⟨r.ret, rfl, hr.ret⟩, ?_, fun _ => ?_⟩
    · simp
    · simp
  | cons p ps ih =>
    rw [dischargeProps_cons]
    have hshown : (view.withRoutine { r with retProps := done ++ p :: ps }).Known st :=
      hview.withRoutine hr.ret
    have hprogram : (view.withRoutine { r with retProps := done ++ p :: ps }).program.Numbered := hp
    refine (View.asked_runs hprogram p hst hshown).bind ?_
    rintro l st₁ hst₁ hle₁ ⟨hl, hwaits, -, -⟩
    have hview₁ := hview.mono hle₁
    have hr₁ := hr.mono hle₁.registry
    split
    · next hmissing =>
      refine (ih (done ++ [p]) hst₁ hview₁ hr₁).imp ?_
      rintro ⟨hframe, hwaiting, hrests⟩
      exact ⟨hframe, by simpa using hwaiting, by simpa using hrests⟩
    · next hknown =>
      refine (shape_runs hst₁ hr₁ p.property hl).bind ?_
      rintro r' st₂ hst₂ hle₂ ⟨ret, rfl, hret⟩
      have hr₂ : Known st₂.registry { r with ret } := ⟨(hr₁.mono hle₂.registry).args, hret⟩
      refine (ih _ hst₂ (hview₁.mono hle₂) hr₂).bind ?_
      rintro ⟨r'', progressed⟩ st₃ hst₃ hle₃ ⟨⟨ret', hframe, hret'⟩, hwaiting, -⟩
      refine .pure hst₃ ⟨⟨ret', hframe, hret'⟩, ?_, fun hquiet => by cases hquiet⟩
      have hcount := waiting_resolve done (hwaits hknown) ps
      simp only [Bool.toNat_true] at hwaiting ⊢
      omega

/-- A round over the returned values ends as described, and the same when it is made again. -/
theorem dischargeReturns_runs (ps : List Promise) (done : List Promise) {r : Routine} {st : Store}
    (hst : st.WellFormed) (hview : view.Known st) (hr : r.Known st.registry) :
    Runs True (ReturnsDischarged view r done ps) (r.dischargeReturns view done ps) st := by
  induction ps generalizing done r st with
  | nil =>
    refine .pure hst ⟨⟨r.ret, rfl, hr.ret⟩, ?_, fun _ => ⟨?_, fun _ h => absurd h (by simp)⟩⟩
    · simp
    · simp
  | cons p ps ih =>
    rw [dischargeReturns_cons]
    -- The promise is asked for in a view in which the function is as it stands now.
    have hshown : (view.withRoutine r).Known st := hview.withRoutine hr.ret
    have hprogram : (view.withRoutine r).program.Numbered := hp
    refine (View.asked_runs hprogram p hst hshown).bind ?_
    rintro l st₁ hst₁ hle₁ ⟨hl, hwaits, hunknown, -⟩
    have hview₁ := hview.mono hle₁
    have hr₁ := hr.mono hle₁.registry
    split
    · next hmissing =>
      have hrest := ih (done ++ [p]) hst₁ hview₁ hr₁
      refine hrest.imp ?_
      rintro ⟨hframe, hwaiting, hrests⟩
      refine ⟨hframe, by simpa using hwaiting, fun hquiet => ?_⟩
      obtain ⟨hsame, hall⟩ := hrests hquiet
      refine ⟨by simpa using hsame, List.forall_mem_cons.mpr ⟨fun hwait => ?_, hall⟩⟩
      exact (hunknown hmissing hwait).mono hrest.grows
    · next hknown =>
      -- The first value decides what the function returns.
      set r' := if r.ret = .missing then { r with ret := l } else r with hr'
      have hframe : ∃ ret, r' = { r with ret } ∧ st₁.registry.Knows ret := by
        rw [hr']
        split
        · exact ⟨l, rfl, hl⟩
        · exact ⟨r.ret, rfl, hr₁.ret⟩
      obtain ⟨ret, heq, hret⟩ := hframe
      rw [heq]
      refine (ih (done ++ [{ p with resolved := true }]) (r := { r with ret }) hst₁ hview₁
        ⟨hr₁.args, hret⟩).bind ?_
      rintro ⟨r'', progressed⟩ st₂ hst₂ hle₂ ⟨⟨ret', hframe', hret'⟩, hwaiting, -⟩
      refine .pure hst₂ ⟨⟨ret', hframe', hret'⟩, ?_, fun hquiet => by cases hquiet⟩
      have hcount := waiting_resolve done (hwaits hknown) ps
      simp only [Bool.toNat_true] at hwaiting ⊢
      omega

/-- A round over the promises of a function ends as described, and the same when it is made again. -/
theorem discharge_runs {r : Routine} {st : Store} (hst : st.WellFormed) (hview : view.Known st)
    (hr : r.Known st.registry) : Runs True (Discharged view r) (r.discharge view) st := by
  refine (Slot.dischargeAll_runs hp hst hview hr.args).bind ?_
  rintro ⟨args, settledArgs⟩ st₁ hst₁ hle₁ ⟨hargs, hempty, hwaitingArgs, hrestsArgs⟩
  have hview₁ := hview.mono hle₁
  have hr₁ : Known st₁.registry { r with args } := ⟨hargs, hr.ret.mono hle₁.registry⟩
  refine (dischargeProps_runs hp r.retProps [] hst₁ hview₁ hr₁).bind ?_
  rintro ⟨r₂, settledProps⟩ st₂ hst₂ hle₂ ⟨⟨ret₂, hframe₂, hret₂⟩, hwaitingProps, hrestsProps⟩
  simp only [List.nil_append] at hframe₂ hwaitingProps hrestsProps
  have hr₂ : r₂.Known st₂.registry := by
    rw [hframe₂]
    exact ⟨fun slot hslot => (hargs slot hslot).mono hle₂.registry, hret₂⟩
  refine (dischargeReturns_runs hp r₂.retPromises [] hst₂ (hview₁.mono hle₂) hr₂).bind ?_
  rintro ⟨r₃, settledReturns⟩ st₃ hst₃ hle₃ ⟨⟨ret₃, hframe₃, hret₃⟩, hwaitingReturns, hrestsReturns⟩
  simp only [List.nil_append] at hframe₃ hwaitingReturns hrestsReturns
  -- Each of the three rounds touches a part of the promises of its own.
  have hargs₃ : r₃.args = args := by rw [hframe₃, hframe₂]
  have hprops₃ : r₃.retProps = r₂.retProps := by rw [hframe₃]
  have hreturns₂ : r₂.retPromises = r.retPromises := by rw [hframe₂]
  refine .pure hst₃ ⟨by rw [hframe₃, hframe₂], by rw [hframe₃, hframe₂], ⟨?_, ?_⟩,
    by rwa [hargs₃], ?_, ?_, ?_⟩
  · intro slot hslot
    rw [hargs₃] at hslot
    exact (hargs slot hslot).mono (hle₂.trans hle₃).registry
  · rw [hframe₃]
    exact hret₃
  · simp only [promises, waiting_append, hargs₃, hprops₃]
    have hflags := toNat_or_le (settledArgs || settledProps) settledReturns
    have hflags' := toNat_or_le settledArgs settledProps
    rw [hreturns₂] at hwaitingReturns
    simp only at hwaitingArgs
    omega
  · rw [shaping_iff, shaping_iff, hprops₃]
    omega
  · intro hquiet
    simp only [Bool.or_eq_false_iff] at hquiet
    obtain ⟨⟨rfl, rfl⟩, rfl⟩ := hquiet
    obtain ⟨hsameArgs, hunknownArgs⟩ := hrestsArgs rfl
    obtain ⟨hsame, hunknown⟩ := hrestsReturns rfl
    have hsameProps := hrestsProps rfl
    simp only at hsameArgs
    subst hsameArgs
    obtain rfl : r₂ = r := hsameProps
    exact ⟨hsame, hunknownArgs.mono (hle₂.trans hle₃), hunknown⟩

end Routine

end LayoutInference
