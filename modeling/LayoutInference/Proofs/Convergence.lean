import Mathlib
import LayoutInference.Inference
import LayoutInference.Proofs.Passes

/-!
# Convergence

Passes come to an end. `State.waiting`, the number of promises that wait, goes down in every pass that
changes evidence, apart from the first one; a pass that changes winners alone is followed by one that
changes nothing; and returned properties are given up once.
-/

namespace LayoutInference

namespace State

/-- All winners stay as they are while the evidence does. -/
def Settled (st : State) : Prop := ∀ v ∈ st.vars, v.Settled st.registry

end State

namespace Subject

/-! ## Picking winners -/

/-- What picking all winners does. -/
structure Collapsed (st st' : State) : Prop where
  sound : st'.WellFormed
  grows : st ≤ st'
  settled : st'.Settled
  routines : st'.routines = st.routines
  vars : List.Forall₂ Variable.SameEvidence st.vars st'.vars

/-- Picking all winners leaves a state in which they are settled, with the same functions and evidence. -/
theorem collapsePhase_spec {st : State} (hst : st.WellFormed) :
    Collapsed st (collapsePhase st).2 := by
  obtain ⟨hr, hle, hsame, hknown, hsettled⟩ := Variable.collapseAll_spec hst.store.registry hst.vars
  have hstore : st.toStore ≤ (collapsePhase st).2.toStore := ⟨hle, fun _ _ h => h⟩
  refine ⟨⟨⟨hr, fun id l hl => (hst.store.literals id l hl).mono hle⟩, hknown, ?_⟩, ⟨hstore, ?_, rfl⟩,
    hsettled, rfl, hsame⟩
  · exact fun r hr => (hst.routines r hr).mono hle
  · refine map_eq_map_of_forall₂ hsame ?_
    rintro v v' ⟨d, rfl⟩
    rfl

namespace Collapsed

variable {st st' : State} (h : Collapsed st st')

include h

/-- A regular state is still regular. -/
theorem regular (hst : st.Regular) : st'.Regular :=
  ⟨h.sound, by rw [h.routines]; exact hst.nodup⟩

/-- As many promises wait as before. -/
theorem waiting : st'.waiting = st.waiting := by
  have hmap : st'.vars.map (·.promises) = st.vars.map (·.promises) := by
    refine map_eq_map_of_forall₂ h.vars ?_
    rintro v v' ⟨d, rfl⟩
    rfl
  simp only [State.waiting, State.promises, Variable.promisesOf, List.flatMap_def, hmap, h.routines]

/-- Returned properties wait exactly if some did before. -/
theorem shaping : st'.shaping = st.shaping := by rw [State.shaping, h.routines, State.shaping]

/-- Arguments that were handed on still are. -/
theorem propagated {p : Program} (hst : st.Propagated p) : st'.Propagated p := by
  intro r hr a ha v' hv' hdecl
  rw [h.routines] at hr
  obtain ⟨v, hv, d, rfl⟩ := exists_of_mem_right h.vars hv'
  exact hst r hr a ha v hv hdecl

end Collapsed

/-- Settled winners are left as they are. -/
theorem collapsePhase_of_settled {st : State} (hst : st.WellFormed) (h : st.Settled) :
    collapsePhase st = (false, st) := by
  have hall := Variable.collapseAll_of_settled hst.store.registry h
  show ((Variable.collapseAll st.registry st.vars).1.2, { st with
    vars := (Variable.collapseAll st.registry st.vars).1.1
    registry := (Variable.collapseAll st.registry st.vars).2 }) = _
  rw [hall]

/-! ## Single passes -/

variable {s : Subject} (hp : s.program.Numbered) {st : State}

/-- A state that passes leave alone: picking winners and asking for layouts gives what it gave
before, in the store as it is and in every greater one. -/
structure AtRest (s : Subject) (st : State) : Prop where
  settled : st.Settled
  promises : ∀ store : Store, store.WellFormed → st.toStore ≤ store →
    s.promisePhase (st.withOther store) = (false, st.withOther store)

/-- A state at rest is at rest in every greater store. -/
theorem AtRest.withOther (h : s.AtRest st) {store : Store} (hle : st.toStore ≤ store) :
    s.AtRest (st.withOther store) :=
  ⟨fun v hv => (h.settled v hv).mono hle.registry,
    fun store' hstore' hle' => h.promises store' hstore' (hle.trans hle')⟩

/-- A pass leaves a state at rest as it is, and reports no change. -/
theorem AtRest.pass_eq (h : s.AtRest st) (hst : st.WellFormed) : s.pass st = (false, st) := by
  have hpromises : s.promisePhase st = (false, st) := h.promises st.toStore hst.store (le_refl _)
  rw [pass_apply, collapsePhase_of_settled hst h.settled, hpromises]
  rfl

include hp

/-- A pass keeps a state regular. -/
theorem pass_regular (hst : st.Regular) : (s.pass st).2.Regular := by
  have hcollapsed := collapsePhase_spec hst.wellFormed
  have hregular := hcollapsed.regular hst
  rw [pass_apply]
  exact (promisePhase_advances hp hregular).regular hregular

/-- After a pass all argument layouts are handed on. -/
theorem pass_propagated (hst : st.Regular) : (s.pass st).2.Propagated s.program := by
  have hregular := (collapsePhase_spec hst.wellFormed).regular hst
  rw [pass_apply]
  exact promisePhase_propagates hp hregular

/-- No pass adds a promise that waits. -/
theorem pass_waiting (hst : st.Regular) : (s.pass st).2.waiting ≤ st.waiting := by
  have hcollapsed := collapsePhase_spec hst.wellFormed
  have hregular := hcollapsed.regular hst
  rw [pass_apply, ← hcollapsed.waiting]
  exact (promisePhase_advances hp hregular).waiting

/-- A pass starts no shaping. -/
theorem pass_shaping (hst : st.Regular) (h : (s.pass st).2.shaping = true) : st.shaping = true := by
  have hcollapsed := collapsePhase_spec hst.wellFormed
  have hregular := hcollapsed.regular hst
  rw [pass_apply] at h
  rw [← hcollapsed.shaping]
  exact (promisePhase_advances hp hregular).shaping h

/-- A pass that changes no evidence, winners apart, brings the state to rest. -/
theorem pass_atRest (hst : st.Regular) (hquiet : (s.promisePhase (collapsePhase st).2).1 = false) :
    s.AtRest (s.pass st).2 := by
  have hcollapsed := collapsePhase_spec hst.wellFormed
  have hregular := hcollapsed.regular hst
  obtain ⟨store, hstore, hle, heq, hagain⟩ :=
    (promisePhase_advances hp hregular).quiet hquiet
  rw [pass_apply, heq]
  exact ⟨fun v hv => (hcollapsed.settled v hv).mono hle.registry, hagain⟩

/-- What a pass comes to when all argument layouts are handed over: a promise less, or rest. -/
theorem pass_progress (hst : st.Regular) (hpropagated : st.Propagated s.program) :
    (s.pass st).1 = true ∧ (s.pass st).2.waiting < st.waiting ∨ s.AtRest (s.pass st).2 := by
  have hcollapsed := collapsePhase_spec hst.wellFormed
  have hregular := hcollapsed.regular hst
  by_cases hloud : (s.promisePhase (collapsePhase st).2).1 = true
  · left
    have hfewer := (promisePhase_advances hp hregular).loud
      (hcollapsed.propagated hpropagated) hloud
    rw [hcollapsed.waiting] at hfewer
    rw [pass_apply]
    exact ⟨by rw [hloud, Bool.or_true], hfewer⟩
  · exact .inr (pass_atRest hp hst (by simpa using hloud))

/-! ## Giving up returned properties -/

omit hp

/-- Giving up settles the returned properties of every function, and reports whether one waited. -/
theorem settleReturns_apply (st : State) :
    settleReturns st = (st.shaping, { st with routines := st.routines.map Routine.settle }) := rfl

/-- The promises that wait are counted function by function. -/
theorem waiting_flatMap (rs : List Routine) :
    waiting (rs.flatMap Routine.promises) = (rs.map fun r => waiting r.promises).sum := by
  rw [waiting, List.countP_flatMap]
  rfl

/-- Giving up takes the returned properties that wait from those a function waits for. -/
theorem waiting_settle (r : Routine) :
    waiting r.settle.promises + waiting r.retProps = waiting r.promises := by
  have hkept : waiting r.settle.retProps = 0 := by
    rw [waiting, List.countP_eq_zero]
    intro p hmem
    obtain ⟨q, -, rfl⟩ := List.mem_map.mp hmem
    simp
  simp only [Routine.promises, waiting_append, hkept]
  simp only [Routine.settle]
  omega

/-- A function that is not being shaped has nothing to give up. -/
theorem settle_of_not_shaping {r : Routine} (h : r.shaping = false) : r.settle = r := by
  have hprops : (r.retProps.map fun p => { p with resolved := true }) = r.retProps := by
    refine (List.map_congr_left fun p hp => ?_).trans (List.map_id r.retProps)
    have hresolved : p.resolved = true := by simpa using List.any_eq_false.mp h p hp
    show ({ p with resolved := true } : Promise) = p
    rw [← hresolved]
  rw [Routine.settle, hprops]

/-- A function that gave up is no longer being shaped. -/
theorem shaping_settle (r : Routine) : r.settle.shaping = false := by
  rw [Routine.shaping, List.any_eq_false]
  intro p hmem
  obtain ⟨q, -, rfl⟩ := List.mem_map.mp hmem
  simp

/-- Giving up is final, and it is reported exactly when there was something to give up. -/
theorem settleReturns_waiting (h : st.shaping = true) :
    (settleReturns st).2.waiting < st.waiting := by
  obtain ⟨r, hr, hshaping⟩ := List.any_eq_true.mp h
  -- No function has more to wait for than before, and this one has less.
  have hle : ∀ r ∈ st.routines, waiting r.settle.promises ≤ waiting r.promises :=
    fun r _ => by have := waiting_settle r; omega
  have hlt : waiting r.settle.promises < waiting r.promises := by
    have hpos := (Routine.shaping_iff r).mp hshaping
    have := waiting_settle r
    omega
  have hsum := List.sum_lt_sum _ _ hle ⟨r, hr, hlt⟩
  simp only [settleReturns_apply, State.waiting, State.promises, waiting_append, waiting_flatMap,
    List.map_map, Function.comp_def]
  omega

/-- After giving up nothing is being shaped. -/
theorem settleReturns_shaping (st : State) : (settleReturns st).2.shaping = false := by
  rw [settleReturns_apply, State.shaping, List.any_eq_false]
  intro r hmem
  obtain ⟨r', -, rfl⟩ := List.mem_map.mp hmem
  simp [shaping_settle]

/-- Giving up keeps a state regular. -/
theorem settleReturns_regular (hst : st.Regular) : (settleReturns st).2.Regular := by
  refine ⟨⟨hst.wellFormed.store, hst.wellFormed.vars, fun r' hr' => ?_⟩, ?_⟩
  · obtain ⟨r, hr, rfl⟩ := List.mem_map.mp hr'
    have hknown := hst.wellFormed.routines r hr
    exact ⟨hknown.args, hknown.ret⟩
  · rw [settleReturns_apply, List.map_map]
    exact hst.nodup

/-- Giving up keeps argument layouts handed on. -/
theorem settleReturns_propagated {p : Program} (hst : st.Propagated p) :
    (settleReturns st).2.Propagated p := by
  intro r' hr'
  obtain ⟨r, hr, rfl⟩ := List.mem_map.mp hr'
  exact hst r hr

/-- With nothing to give up the state stays as it is. -/
theorem settleReturns_of_not_shaping (h : (settleReturns st).1 = false) :
    (settleReturns st).2 = st := by
  have hroutines : st.routines.map Routine.settle = st.routines := by
    refine (List.map_congr_left fun r hr => ?_).trans (List.map_id st.routines)
    exact settle_of_not_shaping (by simpa using List.any_eq_false.mp h r hr)
  rw [settleReturns_apply, hroutines]

/-! ## Series of passes -/

/-- A pass, followed by giving up returned properties when it changed nothing. -/
def round (s : Subject) (st : State) : Bool × State :=
  if (s.pass st).1 then s.pass st else settleReturns (s.pass st).2

/-- The state after a number of passes. -/
def after (s : Subject) (st : State) (k : Nat) : State := (fun st => (s.round st).2)^[k] st

/-- The passes behind the first start from where it led. -/
theorem after_succ (s : Subject) (st : State) (k : Nat) :
    s.after st (k + 1) = s.after (s.round st).2 k :=
  Function.iterate_succ_apply _ k st

/-- The last of a number of passes starts from where the others led. -/
theorem after_succ' (s : Subject) (st : State) (k : Nat) :
    s.after st (k + 1) = (s.round (s.after st k)).2 :=
  Function.iterate_succ_apply' _ k st

/-- A run goes on with another pass exactly while rounds change something. -/
theorem passes_succ (s : Subject) (done left : Nat) (st : State) :
    s.passes done (left + 1) st =
      if (s.round st).1 then s.passes (done + 1) left (s.round st).2
      else ⟨(s.round st).2, done + 1, true⟩ := by
  rw [passes, round]
  rcases s.pass st with ⟨changed, st'⟩
  cases changed <;> rfl

/-- The passes stop after the first one that changes nothing, or when none are left. -/
theorem passes_cases (s : Subject) (done left : Nat) (st : State) :
    (∃ k < left, (∀ j < k, (s.round (s.after st j)).1 = true) ∧ (s.round (s.after st k)).1 = false
        ∧ s.passes done left st = ⟨s.after st (k + 1), done + (k + 1), true⟩)
      ∨ (∀ j < left, (s.round (s.after st j)).1 = true)
        ∧ s.passes done left st = s.passes (done + left) 0 (s.after st left) := by
  induction left generalizing done st with
  | zero => exact .inr ⟨fun j hj => absurd hj (by omega), rfl⟩
  | succ left ih =>
    by_cases hchanged : (s.round st).1 = true
    · rw [passes_succ, if_pos hchanged]
      -- Passes from the next state are those from this one, counted from one.
      have hearlier {k : Nat} (h : ∀ j < k, (s.round (s.after (s.round st).2 j)).1 = true) :
          ∀ j < k + 1, (s.round (s.after st j)).1 = true := by
        intro j hj
        cases j with
        | zero => exact hchanged
        | succ j =>
          rw [after_succ]
          exact h j (by omega)
      rcases ih (done + 1) (s.round st).2 with ⟨k, hk, hbefore, hstop, heq⟩ | ⟨hbefore, heq⟩
      · refine .inl ⟨k + 1, by omega, hearlier hbefore, by rwa [after_succ], ?_⟩
        rw [heq, after_succ s st (k + 1)]
        congr 1
        omega
      · refine .inr ⟨hearlier hbefore, ?_⟩
        rw [heq, after_succ, Nat.add_right_comm, Nat.add_assoc]
    · refine .inl ⟨0, by omega, fun j hj => absurd hj (by omega), ?_, ?_⟩
      · exact Bool.not_eq_true _ ▸ hchanged
      · rw [passes_succ, if_neg hchanged]
        rfl

/-- One of the first `n` passes from `st` changes nothing. -/
def Ends (s : Subject) (st : State) (n : Nat) : Prop :=
  ∃ k < n, (s.round (s.after st k)).1 = false

/-- A run that ends among some passes ends among more. -/
theorem Ends.mono {m n : Nat} (h : s.Ends st m) (hle : m ≤ n) : s.Ends st n := by
  obtain ⟨k, hk, hstop⟩ := h
  exact ⟨k, by omega, hstop⟩

/-- A round without a change ends a run at once. -/
theorem ends_one (h : (s.round st).1 = false) : s.Ends st 1 := ⟨0, by omega, h⟩

/-- A run that ends after its first round ends one pass later. -/
theorem Ends.succ {n : Nat} (h : s.Ends (s.round st).2 n) : s.Ends st (n + 1) := by
  obtain ⟨k, hk, hstop⟩ := h
  exact ⟨k + 1, by omega, by rwa [after_succ]⟩

/-- A pass that changes something is the whole round. -/
theorem round_of_changed (h : (s.pass st).1 = true) : s.round st = (true, (s.pass st).2) := by
  rw [round, if_pos h]
  exact Prod.ext h rfl

/-- A pass that changes nothing is followed by giving up. -/
theorem round_of_unchanged (h : (s.pass st).1 = false) :
    s.round st = settleReturns (s.pass st).2 := by
  rw [round, h]
  rfl

include hp

/-- The bound on the number of passes once all argument layouts are handed over. -/
theorem ends_of_propagated (hst : st.Regular) (hpropagated : st.Propagated s.program) :
    s.Ends st (st.waiting + 2 + st.shaping.toNat) := by
  -- The induction is on the promises that wait; a pass without progress brings the state to rest.
  induction hwaiting : st.waiting using Nat.strong_induction_on generalizing st with | _ w ih
  subst hwaiting
  have hregular := pass_regular hp hst
  have hpropagated' := pass_propagated hp hst
  have hfewer := pass_waiting hp hst
  have hshaping : (s.pass st).2.shaping.toNat ≤ st.shaping.toNat := by
    have hmono := pass_shaping hp hst
    cases hs : (s.pass st).2.shaping with
    | false => exact Nat.zero_le _
    | true => rw [hmono hs]
  rcases pass_progress hp hst hpropagated with ⟨hchanged, hlt⟩ | hrest
  · have hlater := ih _ hlt hregular hpropagated' rfl
    have hround := round_of_changed hchanged
    refine Ends.mono (Ends.succ (n := (s.pass st).2.waiting + 2 + (s.pass st).2.shaping.toNat) ?_) ?_
    · rw [hround]
      exact hlater
    · omega
  · have hpass := hrest.pass_eq hregular.wellFormed
    -- From here on only returned properties can be given up, which happens once.
    have hsettle (st₀ : State) (hround : s.round st₀ = settleReturns (s.pass st).2) :
        s.Ends st₀ (st.waiting + 1 + (s.pass st).2.shaping.toNat) := by
      cases hs : (s.pass st).2.shaping with
      | false => exact (ends_one (by rw [hround]; exact hs)).mono (by omega)
      | true =>
        have hlt := settleReturns_waiting hs
        have hlater := ih (settleReturns (s.pass st).2).2.waiting (by omega)
          (settleReturns_regular hregular) (settleReturns_propagated hpropagated') rfl
        rw [settleReturns_shaping] at hlater
        rw [← hround] at hlater hlt
        refine hlater.succ.mono ?_
        simp only [Bool.toNat_false, Bool.toNat_true]
        omega
    cases hchanged : (s.pass st).1 with
    | false => exact (hsettle st (round_of_unchanged hchanged)).mono (by omega)
    | true =>
      have hround : s.round (s.pass st).2 = settleReturns (s.pass st).2 := by
        rw [round_of_unchanged (by rw [hpass]), hpass]
      have hlater := hsettle (s.pass st).2 hround
      refine Ends.mono (Ends.succ (n := st.waiting + 1 + (s.pass st).2.shaping.toNat) ?_) (by omega)
      rw [round_of_changed hchanged]
      exact hlater

/-- The bound on the number of passes. The first pass hands the argument layouts over. -/
theorem ends_of_regular (hst : st.Regular) : s.Ends st (st.waiting + 4) := by
  have hfewer := pass_waiting hp hst
  have hpropagated := pass_propagated hp hst
  have hregular := pass_regular hp hst
  cases hchanged : (s.pass st).1 with
  | true =>
    -- This pass may have handed over without keeping a promise; no later one does.
    have hlater := ends_of_propagated hp hregular hpropagated
    have hflag := Bool.toNat_le (s.pass st).2.shaping
    refine Ends.mono (Ends.succ (n := st.waiting + 3) ?_) (by omega)
    rw [round_of_changed hchanged]
    exact hlater.mono (by omega)
  | false =>
    have hround := round_of_unchanged hchanged
    cases hs : (s.pass st).2.shaping with
    | false => exact (ends_one (by rw [hround]; exact hs)).mono (by omega)
    | true =>
      have hlt := settleReturns_waiting hs
      have hlater := ends_of_propagated hp (settleReturns_regular hregular)
        (settleReturns_propagated hpropagated)
      rw [settleReturns_shaping] at hlater
      rw [← hround] at hlater hlt
      refine hlater.succ.mono ?_
      simp only [Bool.toNat_false]
      omega

/-- The state after the walk is regular. -/
theorem collect_regular : s.collect.Regular :=
  ⟨collect_wellFormed hp, collect_nodup_nodes hp⟩

omit hp

/-- No more promises wait than there are. -/
theorem waiting_le_length (st : State) : st.waiting ≤ st.promises.length :=
  List.countP_le_length

include hp

/-- Within four passes more than there are promises, one pass changes nothing. -/
theorem resolve_stops {bound : Nat} (hbound : s.collect.promises.length + 4 ≤ bound) :
    ∃ k < s.collect.promises.length + 4, (s.round (s.after s.collect k)).1 = false
      ∧ s.resolve bound = ⟨s.after s.collect (k + 1), k + 1, true⟩ := by
  have hwaiting := waiting_le_length s.collect
  obtain ⟨k, hk, hstop⟩ := ends_of_regular hp (collect_regular hp)
  rcases s.passes_cases 0 bound s.collect with ⟨k', -, hbefore, hstop', heq⟩ | ⟨hbefore, -⟩
  · refine ⟨k', ?_, hstop', ?_⟩
    · -- The run stops at the first quiet pass, so it is not past pass `k`.
      by_contra hlarge
      rw [hbefore k (by omega)] at hstop
      cases hstop
    · rw [resolve, heq, Nat.zero_add]
  · rw [hbefore k (by omega)] at hstop
    cases hstop

omit hp

/-- A round changes nothing exactly if neither the pass nor giving up does. -/
theorem round_eq_false_iff :
    (s.round st).1 = false ↔ (s.pass st).1 = false ∧ (settleReturns (s.pass st).2).1 = false := by
  cases hchanged : (s.pass st).1 with
  | true => simp [round_of_changed hchanged]
  | false => simp [round_of_unchanged hchanged]

/-- The last pass reports no change, and there are no returned properties left to give up. -/
theorem round_of_stop (hstop : (s.round st).1 = false) :
    (s.round st).2 = (s.pass st).2 ∧ (s.promisePhase (collapsePhase st).2).1 = false := by
  obtain ⟨hpass, hsettle⟩ := round_eq_false_iff.mp hstop
  rw [round_of_unchanged hpass, settleReturns_of_not_shaping hsettle]
  rw [pass_apply] at hpass
  exact ⟨rfl, (Bool.or_eq_false_iff.mp hpass).2⟩

/-- A run that converges ends with the first pass that changes nothing. -/
theorem resolve_of_converged {bound : Nat} (h : (s.resolve bound).converged = true) :
    ∃ k, (s.round (s.after s.collect k)).1 = false
      ∧ s.resolve bound = ⟨s.after s.collect (k + 1), k + 1, true⟩ := by
  rcases s.passes_cases 0 bound s.collect with ⟨k, -, -, hstop, heq⟩ | ⟨-, heq⟩
  · refine ⟨k, hstop, ?_⟩
    rw [resolve, heq, Nat.zero_add]
  · rw [resolve, heq] at h
    cases h

end Subject

/-! ## Runs -/

/-- A result is given unless a container clashed on the way. -/
theorem infer_eq (p : Program) (max : Int) :
    infer p max = match (runInference p max).state.registry.clash with
      | some clash => .error clash
      | none => .ok (runInference p max) := rfl

/-- A run has a result unless containers clashed. -/
theorem infer_eq_ok_iff {p : Program} {max : Int} {r : Result} :
    infer p max = .ok r
      ↔ r = runInference p max ∧ (runInference p max).state.registry.clash = none := by
  rw [infer_eq]
  cases (runInference p max).state.registry.clash with
  | none => simpa using eq_comm
  | some clash => simp

/-- Inference fails exactly with the clash that was met. -/
theorem infer_eq_error_iff {p : Program} {max : Int} {clash : Clash} :
    infer p max = .error clash ↔ (runInference p max).state.registry.clash = some clash := by
  rw [infer_eq]
  cases (runInference p max).state.registry.clash <;> simp

/-- Resolving always comes to an end: of the first passes, four more than there are promises, one
picks no new winner, keeps no promise, hands over no argument layout and gives up no returned
property. A run that is allowed that many passes converges, and it has a result unless two
containers clashed on the way. -/
theorem resolve_converges {source : Source} {script : Script} {p : Program}
    (hp : Program.ofScript source script = .ok p) {max : Int}
    (hmax : ((Subject.of p).collect.promises.length + 4 : Nat) ≤ max) :
    let s := Subject.of p
    let bound := s.collect.promises.length + 4
    (∃ k < bound, (s.pass (s.after s.collect k)).1 = false
        ∧ (Subject.settleReturns (s.pass (s.after s.collect k)).2).1 = false
        ∧ s.resolve max.toNat = ⟨s.after s.collect (k + 1), k + 1, true⟩)
      ∧ (∀ r, infer p max = .ok r → r.converged = true ∧ r.iterations ≤ bound)
      ∧ ∀ clash, infer p max = .error clash
        ↔ (s.resolve max.toNat).state.registry.clash = some clash := by
  intro s bound
  have hnumbered : s.program.Numbered := Program.ofScript_numbered hp
  have hmax : (s.collect.promises.length + 4 : Nat) ≤ max := hmax
  have hbound : s.collect.promises.length + 4 ≤ max.toNat := by omega
  obtain ⟨k, hk, hstop, heq⟩ := Subject.resolve_stops hnumbered hbound
  have hrun : runInference p max = Result.ofOutcome s (s.resolve max.toNat) := by
    rw [runInference, if_neg (by omega)]
  obtain ⟨hpass, hsettle⟩ := Subject.round_eq_false_iff.mp hstop
  refine ⟨⟨k, hk, hpass, hsettle, heq⟩, fun r hr => ?_, fun clash => ?_⟩
  · rw [(infer_eq_ok_iff.mp hr).1, hrun, heq]
    exact ⟨rfl, by show k + 1 ≤ bound; omega⟩
  · rw [infer_eq_error_iff, hrun]
    rfl

/-! ### Two scripts

Spans play no part here, so all of them are empty. -/

namespace Script

/-- `function f(p) { return p; } let x = []; x.push(1); let y = f(x);` -/
def passedArray : Script :=
  ⟨[.function ⟨0, 0⟩ "f" [.mk (.name ⟨0, 0⟩ "p") none] none
      (.mk ⟨0, 0⟩ [.ret ⟨0, 0⟩ (some (nameOf "p"))]),
    declares "x" (arrayOf []), pushes "x" (numberOf "1"),
    declares "y" (.call ⟨0, 0⟩ (nameOf "f") [nameOf "x"])]⟩

/-- `let b = []; b.push([1, 2]); let a = [null]; a[0] = b; let c = []; c.push([[1, 2]]);` -/
def collidingArrays : Script :=
  ⟨[declares "b" (arrayOf []), pushes "b" (arrayOf [numberOf "1", numberOf "2"]),
    declares "a" (arrayOf [.null ⟨0, 0⟩]),
    assigns (.bracket ⟨0, 0⟩ (nameOf "a") (numberOf "0")) (nameOf "b"),
    declares "c" (arrayOf []), pushes "c" (arrayOf [arrayOf [numberOf "1", numberOf "2"]])]⟩

end Script

/-- Three promises, so that seven passes are enough; it takes five. -/
theorem resolve_converges_passedArray :
    Program.ofScript ⟨"main.js", []⟩ Script.passedArray = .ok Script.passedArray.program
      ∧ (Subject.of Script.passedArray.program).collect.promises.length = 3
      ∧ ∀ r, infer Script.passedArray.program 7 = .ok r → r.converged = true ∧ r.iterations ≤ 7 := by
  have hscript := Script.ofScript_eq_ok Script.passedArray (by decide +kernel)
  have hlength : (Subject.of Script.passedArray.program).collect.promises.length = 3 := by
    decide +kernel
  have hmax : ((Subject.of Script.passedArray.program).collect.promises.length + 4 : Nat)
      ≤ (7 : Int) := by
    rw [hlength]
    decide
  obtain ⟨-, hresult, -⟩ := resolve_converges hscript hmax
  refine ⟨hscript, hlength, fun r hr => ?_⟩
  rw [hlength] at hresult
  exact hresult r hr

/-- The arrays of `a` and `c` have one key. Collecting the evidence goes well; when the elements of
`a` get their layout, the two clash, and the run has no result. -/
theorem collidingArrays_clash :
    Program.ofScript ⟨"main.js", []⟩ Script.collidingArrays = .ok Script.collidingArrays.program
      ∧ (Subject.of Script.collidingArrays.program).collect.promises.length + 4 ≤ 64
      ∧ (Subject.of Script.collidingArrays.program).collect.registry.clash = none
      ∧ infer Script.collidingArrays.program 64 = .error ⟨some .dynamic, some .fixed⟩ := by
  refine ⟨Script.ofScript_eq_ok _ (by decide +kernel), by decide +kernel, by decide +kernel, ?_⟩
  rw [infer_eq_error_iff]
  decide +kernel

end LayoutInference
