import Mathlib
import LayoutInference.Proofs.FixedPoint

/-!
# Copies

A variable that only takes the value of another one is promised the layout of that one. The promise is
kept once, in the first pass in which the other variable has a layout that says something, and the
layout it is kept with is never looked at again. So a copy has the layout that its source had then,
which need not be the one that the source has in the end.

The proof follows one variable through the passes. `Variable.Bears` says what is known about it, and
`Subject.Isolated` that nothing else reaches it.
-/

namespace LayoutInference

/-! ## Asking for a variable -/

/-- The node is a name that refers to a declaration. -/
def Program.IsName (p : Program) (id : NodeId) : Prop :=
  ∃ n ∈ p.node? id, n.kind = .identifier ∧ n.decl ≠ none

instance (p : Program) (id : NodeId) : Decidable (p.IsName id) :=
  inferInstanceAs (Decidable (∃ n ∈ p.node? id, _))

namespace View

/-- The winner of the variable that a node refers to. -/
def winnerOf (view : View) (id : NodeId) : Layout :=
  ((view.variableOf? id).map (·.winner)).getD .missing

/-- The current layout of a name is the winner of its variable. -/
theorem current_name {view : View} {id : NodeId} (hid : view.program.IsName id) :
    view.current id = pure (view.winnerOf id) := by
  obtain ⟨n, hn, hkind, hdecl⟩ := hid
  rw [current]
  split
  · next hnone =>
    rw [hn] at hnone
    cases hnone
  · next n' hn' =>
    obtain rfl : n = n' := Option.some.inj (hn.symm.trans hn')
    simp only [hkind, winnerOf]
    cases view.variableOf? id with
    | some owner => rfl
    | none => simp [hdecl]

/-- The layout of a name is the winner of its variable, if that says something. -/
theorem layoutOf_name {view : View} {id : NodeId} (hid : view.program.IsName id) :
    view.layoutOf id
      = pure (if (view.winnerOf id).isFallback then .missing else view.winnerOf id) := by
  rw [layoutOf, current_name hid]
  rfl

end View

/-! ## One promise -/

namespace Variable

/-- The evidence about `v` is one promise and a list of candidates. -/
structure Bears (p : Promise) (candidates : List Layout) (v : Variable) : Prop where
  promises : v.promises = [p]
  candidates : v.candidates = candidates
  added : v.added = []
  growing : v.growing = false
  dictionary : v.dictionary = false

instance (p : Promise) (cs : List Layout) : DecidablePred (Bears p cs) := fun v =>
  decidable_of_iff (v.promises = [p] ∧ v.candidates = cs ∧ v.added = [] ∧ v.growing = false
      ∧ v.dictionary = false)
    ⟨fun ⟨h₁, h₂, h₃, h₄, h₅⟩ => ⟨h₁, h₂, h₃, h₄, h₅⟩, fun ⟨h₁, h₂, h₃, h₄, h₅⟩ => ⟨h₁, h₂, h₃, h₄, h₅⟩⟩

variable {v : Variable} {p : Promise} {cs : List Layout}

/-- A verdict on a variable leaves what is known about it. -/
theorem Bears.decided (h : v.Bears p cs) (d : Verdict) : (v.decided d).Bears p cs :=
  ⟨h.promises, h.candidates, h.added, h.growing, h.dictionary⟩

/-- The only candidate is the winner. -/
theorem Bears.winner_verdict {l : Layout} (h : v.Bears p [l]) (hl : l.isFallback = false)
    (r : Registry) : (v.verdict r).1.winner = l := by
  have hsurvivors : v.survivors r = ([l], r) := by
    simp [survivors, h.candidates, keepCandidate, h.growing, h.dictionary, hl, appendDistinct, hasSame]
  rw [verdict, hsurvivors]
  cases l with
  | record id => simp [judge, extendRecord, h.added, Registry.extend]
  | missing | scalar | fixed | dynamic | dict => rfl

/-- A winner that stays is what the evidence decides. -/
theorem Settled.winner_eq {r : Registry} (h : v.Settled r) (hr : r.WellFormed) :
    v.winner = (v.verdict r).1.winner := by
  have hsame := h r hr (le_refl r)
  rw [collapse_eq] at hsame
  exact (congrArg (·.1.1.winner) hsame).symm

/-- What a round over the only promise of a variable does. -/
theorem discharge_of_promises {view : View} {st : Store} {l : Layout} (hp : v.promises = [p])
    (hl : view.asked p st = (l, st)) :
    (v.discharge view st).1.1 = if l = .missing then v else
      { (v.apply p l st.registry).1.1 with
        promises := [{ p with resolved := (v.apply p l st.registry).1.2 }] } := by
  have hround : v.dischargePromises view [p] st = if l = .missing then ((v, [p], false), st) else
      (((v.apply p l st.registry).1.1, [{ p with resolved := (v.apply p l st.registry).1.2 }],
        (v.apply p l st.registry).1.2 || false),
        { st with registry := (v.apply p l st.registry).2 }) := by
    rw [dischargePromises_cons, bind_apply, hl]
    split <;> rfl
  show ({ (v.dischargePromises view v.promises st).1.1 with
    promises := (v.dischargePromises view v.promises st).1.2.1 } : Variable) = _
  rw [hp, hround]
  split
  · rw [← hp]
  · rfl

/-- A promise that was kept is not looked at again. -/
theorem Bears.discharge_kept (h : v.Bears p cs) (hkept : p.resolved = true) (view : View)
    (st : Store) : (v.discharge view st).1.1.Bears p cs := by
  have hasked : view.asked p st = (.missing, st) := by
    rw [View.asked, if_pos hkept]
    rfl
  rw [discharge_of_promises h.promises hasked, if_pos rfl]
  exact h

section Name

variable {view : View} {e : NodeId} (he : view.program.IsName e)

include he

/-- A promise that waits for a name gets the winner of its variable. -/
theorem asked_name (st : Store) : view.asked { node := e } st
    = (if (view.winnerOf e).isFallback then .missing else view.winnerOf e, st) := by
  rw [View.asked, if_neg (by simp), View.layoutOf_name he]
  rfl

/-- A promise to be like another variable waits while the winner there says nothing. -/
theorem Bears.discharge_waits (hwinner : (view.winnerOf e).isFallback = true)
    (h : v.Bears { node := e } []) (st : Store) :
    (v.discharge view st).1.1.Bears { node := e } [] := by
  rw [discharge_of_promises h.promises (asked_name he st), if_pos hwinner, if_pos rfl]
  exact h

/-- When the winner there says something, it becomes a candidate. -/
theorem Bears.discharge_keeps (hwinner : (view.winnerOf e).isFallback = false)
    (h : v.Bears { node := e } []) (st : Store) :
    (v.discharge view st).1.1.Bears { node := e, resolved := true } [view.winnerOf e] := by
  have hne : view.winnerOf e ≠ .missing := by
    intro hmissing
    rw [hmissing] at hwinner
    cases hwinner
  have haccepts : v.accepts (view.winnerOf e) = true := by
    simp [accepts, hne, h.candidates, hasSame]
  have hasked : view.asked { node := e } st = (view.winnerOf e, st) := by
    rw [asked_name he, if_neg (by simp [hwinner])]
  rw [discharge_of_promises h.promises hasked, if_neg hne]
  simp only [apply, ne_eq, not_true_eq_false, if_false, addCandidate, haccepts, if_true]
  exact ⟨rfl, by rw [h.candidates]; rfl, h.added, h.growing, h.dictionary⟩

end Name

/-- Every variable after promises were settled is one from before, settled in some store. -/
theorem exists_of_mem_dischargeAll {view : View} (hp : view.program.Numbered) {vars : List Variable}
    {st : Store} (hst : st.WellFormed) (hview : view.Known st)
    (hvars : ∀ v ∈ vars, v.Known st.registry) {v' : Variable}
    (hv' : v' ∈ (dischargeAll view vars st).1.1) :
    ∃ v ∈ vars, ∃ st', v'.decl = v.decl ∧ v' = (v.discharge view st').1.1 := by
  induction vars generalizing st with
  | nil => exact absurd hv' (by simp [dischargeAll, pure, StateT.pure])
  | cons v vs ih =>
    obtain ⟨hv, hvs⟩ := List.forall_mem_cons.mp hvars
    have hruns := discharge_runs hp hst hview hv
    have hmem : v' ∈ (v.discharge view st).1.1
        :: (dischargeAll view vs (v.discharge view st).2).1.1 := hv'
    rcases List.mem_cons.mp hmem with rfl | hlater
    · exact ⟨v, List.mem_cons_self .., st, hruns.holds.1.decl, rfl⟩
    · obtain ⟨u, hu, hrest⟩ := ih hruns.sound (hview.mono hruns.grows)
        (fun u hu => (hvs u hu).mono hruns.grows.registry) hlater
      exact ⟨u, List.mem_cons_of_mem _ hu, hrest⟩

end Variable

/-! ## Isolated variables -/

namespace Routine

/-- Handing over leaves a variable alone about which there is no argument layout. -/
theorem mem_of_mem_propagate {p : Program} {params : List NodeId} {slots : List Slot}
    {vars : List Variable} {v : Variable} (hv : v ∈ (propagate p params slots vars).1)
    (hslots : ∀ a ∈ params.zip slots, p.declaration a.1 = some v.decl → a.2.layout = .missing) :
    v ∈ vars := by
  induction params generalizing slots vars with
  | nil => exact hv
  | cons param params ih =>
    cases slots with
    | nil => exact hv
    | cons slot slots =>
      obtain ⟨hslot, hslots⟩ := List.forall_mem_cons.mp hslots
      have hmem : v ∈ (handOver p param slot vars).1 := ih hv hslots
      unfold handOver at hmem
      split at hmem
      · exact hmem
      · next decl hdecl =>
        obtain ⟨v', hv', heq⟩ := List.mem_map.mp hmem
        split at heq
        · next hsame =>
          -- An argument handed to the variable itself has no layout, so nothing is added.
          have hmissing : slot.layout = .missing := by
            refine hslot ?_
            rw [← heq, Variable.decl_addCandidate, hsame]
            exact hdecl
          have hnot : v'.accepts slot.layout = false := by simp [Variable.accepts, hmissing]
          rw [Variable.addCandidate_of_not_accepts hnot] at heq
          rwa [← heq]
        · rwa [← heq]

/-- What is said about parameters by no call stays so. -/
theorem forall_mem_zip_of_empty {P : NodeId → Prop} {slots slots' : List Slot}
    (h : List.Forall₂ (fun slot slot' => slot = {} → slot' = {}) slots slots')
    {params : List NodeId} (hslots : ∀ a ∈ params.zip slots, P a.1 → a.2 = {}) :
    ∀ a ∈ params.zip slots', P a.1 → a.2 = {} := by
  induction h generalizing params with
  | nil => exact fun a ha => absurd ha (by simp)
  | cons hslot _ ih =>
    cases params with
    | nil => exact fun a ha => absurd ha (by simp)
    | cons param params =>
      obtain ⟨hfirst, hrest⟩ := List.forall_mem_cons.mp hslots
      exact List.forall_mem_cons.mpr ⟨fun hparam => hslot (hfirst hparam), ih hrest⟩

end Routine

namespace Subject

/-- No call says anything about the variable `y`, and what is known about it satisfies `E`. -/
structure Isolated (s : Subject) (y : NodeId) (E : Variable → Prop) (st : State) : Prop where
  evidence : ∀ v ∈ st.vars, v.decl = y → E v
  arguments : ∀ r ∈ st.routines, ∀ a ∈ r.params.zip r.args, s.program.declaration a.1 = some y →
    a.2 = {}

instance (s : Subject) (y : NodeId) (E : Variable → Prop) [DecidablePred E] (st : State) :
    Decidable (s.Isolated y E st) :=
  decidable_of_iff ((∀ v ∈ st.vars, v.decl = y → E v) ∧ ∀ r ∈ st.routines,
      ∀ a ∈ r.params.zip r.args, s.program.declaration a.1 = some y → a.2 = {})
    ⟨fun ⟨h₁, h₂⟩ => ⟨h₁, h₂⟩, fun ⟨h₁, h₂⟩ => ⟨h₁, h₂⟩⟩

variable {s : Subject} {y : NodeId} {E : Variable → Prop} {st : State}

/-- Picking winners keeps a variable isolated. -/
theorem Isolated.collapsed {st' : State} (h : s.Isolated y E st) (hcollapsed : Collapsed st st')
    (hE : ∀ v d, E v → E (v.decided d)) : s.Isolated y E st' := by
  refine ⟨fun v' hv' hy => ?_, ?_⟩
  · obtain ⟨v, hv, d, rfl⟩ := exists_of_mem_right hcollapsed.vars hv'
    exact hE v d (h.evidence v hv hy)
  · rw [hcollapsed.routines]
    exact h.arguments

/-- Giving up returned properties keeps a variable isolated. -/
theorem Isolated.settleReturns (h : s.Isolated y E st) :
    s.Isolated y E (Subject.settleReturns st).2 := by
  refine ⟨h.evidence, fun r' hr' => ?_⟩
  obtain ⟨r, hr, rfl⟩ := List.mem_map.mp hr'
  exact h.arguments r hr

/-- A round over the promises of all variables changes what is known about `y` in the way it changes
that variable. -/
theorem Isolated.discharged {E' : Variable → Prop} (hp : s.program.Numbered) (hst : st.WellFormed)
    (hE : ∀ v store, E v → E' (v.discharge (st.view s) store).1.1) (h : s.Isolated y E st) :
    s.Isolated y E' (s.dischargePhase st).2 := by
  refine ⟨fun v' hv' hy => ?_, h.arguments⟩
  have hview : (st.view s).program.Numbered := hp
  obtain ⟨v, hv, store, hdecl, rfl⟩ :=
    Variable.exists_of_mem_dischargeAll hview hst.store (view_known hst) hst.vars hv'
  exact hE v store (h.evidence v hv (hdecl.symm.trans hy))

/-- The step of a pass for one function keeps a variable isolated. -/
theorem Isolated.routineStep (hp : s.program.Numbered) (hst : st.WellFormed) {r : Routine}
    (hr : r ∈ st.routines) (h : s.Isolated y E st) : s.Isolated y E (s.routineStep r st).2 := by
  obtain ⟨-, hparams, -, hempty, -⟩ := (routine_runs hp hst hr).holds
  have hargs := Routine.forall_mem_zip_of_empty (P := fun param =>
    s.program.declaration param = some y) hempty (h.arguments r hr)
  rw [← hparams] at hargs
  rw [routineStep_apply]
  refine ⟨fun v hv hy => h.evidence v (Routine.mem_of_mem_propagate hv ?_) hy, ?_⟩
  · intro a ha hdecl
    rw [hargs a ha (hy ▸ hdecl)]
  · exact Routine.forall_mem_replaceIn hargs h.arguments

/-- The steps of a pass for functions keep a variable isolated. -/
theorem Isolated.routinePhase (hp : s.program.Numbered) {rs : List Routine} (hdue : Due st rs)
    (h : s.Isolated y E st) : s.Isolated y E (s.routinePhase rs st).2 := by
  induction rs generalizing st with
  | nil => exact h
  | cons r rs ih =>
    rw [routinePhase_cons, andThen_apply]
    exact ih (hdue.step hp) (h.routineStep hp hdue.regular.wellFormed hdue.head)

/-- The winner of a name's variable in a pass, the first one having number zero. -/
def winnerIn (s : Subject) (k : Nat) (id : NodeId) : Layout :=
  ((collapsePhase (s.after s.collect k)).2.view s).winnerOf id

/-- What a pass makes of the evidence about an isolated variable. -/
theorem Isolated.round (hp : s.program.Numbered) (hst : st.Regular) {p p' : Promise}
    {cs cs' : List Layout} (h : s.Isolated y (Variable.Bears p cs) st)
    (hstep : ∀ (v : Variable) store, v.Bears p cs →
      (v.discharge ((collapsePhase st).2.view s) store).1.1.Bears p' cs') :
    s.Isolated y (Variable.Bears p' cs') (s.round st).2 := by
  have hcollapsed := collapsePhase_spec hst.wellFormed
  have hregular := hcollapsed.regular hst
  have hwinners := h.collapsed hcollapsed fun v d hv => hv.decided d
  have hkept := hwinners.discharged hp hregular.wellFormed hstep
  have hpass : s.Isolated y (Variable.Bears p' cs') (s.pass st).2 :=
    hkept.routinePhase hp (due_dischargePhase hp hregular)
  cases hchanged : (s.pass st).1 with
  | true =>
    rw [round_of_changed hchanged]
    exact hpass
  | false =>
    rw [round_of_unchanged hchanged]
    exact hpass.settleReturns

/-- All that is known about the variable `y` is that it gets the value of the name `e`. -/
structure OnlyCopies (s : Subject) (y e : NodeId) : Prop where
  source : s.program.IsName e
  isolated : s.Isolated y (Variable.Bears { node := e } []) s.collect

instance (s : Subject) (y e : NodeId) : Decidable (s.OnlyCopies y e) :=
  decidable_of_iff (s.program.IsName e ∧ s.Isolated y (Variable.Bears { node := e } []) s.collect)
    ⟨fun ⟨h₁, h₂⟩ => ⟨h₁, h₂⟩, fun ⟨h₁, h₂⟩ => ⟨h₁, h₂⟩⟩

variable {e : NodeId} (hp : s.program.Numbered) (hcopy : s.OnlyCopies y e)

include hp hcopy

/-- The promise waits as long as the source says nothing. -/
theorem OnlyCopies.waits {k : Nat} (hk : ∀ j < k, (s.winnerIn j e).isFallback = true) :
    s.Isolated y (Variable.Bears { node := e } []) (s.after s.collect k) := by
  induction k with
  | zero => exact hcopy.isolated
  | succ k ih =>
    rw [after_succ']
    refine (ih fun j hj => hk j (by omega)).round hp (after_regular hp k) fun v store hv => ?_
    exact hv.discharge_waits hcopy.source (hk k (by omega)) store

/-- The promise is kept when the source says something, and stays so. -/
theorem OnlyCopies.keeps {k m : Nat} (hbefore : ∀ j < k, (s.winnerIn j e).isFallback = true)
    (hk : (s.winnerIn k e).isFallback = false) (hm : k < m) :
    s.Isolated y (Variable.Bears { node := e, resolved := true } [s.winnerIn k e])
      (s.after s.collect m) := by
  induction m, hm using Nat.le_induction with
  | base =>
    rw [after_succ']
    refine (hcopy.waits hp hbefore).round hp (after_regular hp k) fun v store hv => ?_
    exact hv.discharge_keeps hcopy.source hk store
  | succ m _ ih =>
    rw [after_succ']
    exact ih.round hp (after_regular hp m) fun v store hv => hv.discharge_kept rfl _ store

omit hp hcopy

/-- The pass that changes nothing leaves the winners as they are. -/
theorem winnerIn_last (hp : s.program.Numbered) {k : Nat}
    (hstop : (s.round (s.after s.collect k)).1 = false) (id : NodeId) :
    ((s.after s.collect (k + 1)).view s).winnerOf id = s.winnerIn k id := by
  have hregular := after_regular hp k
  have hcollapsed := (collapsePhase_spec hregular.wellFormed).regular hregular
  obtain ⟨hround, hquiet⟩ := round_of_stop hstop
  obtain ⟨store, -, -, heq, -⟩ :=
    (promisePhase_advances hp hcollapsed).quiet hquiet
  rw [after_succ', hround, pass_apply, heq]
  rfl

end Subject

/-! ## Results -/

/-- A binding that says something shows the winner. -/
theorem Variable.layout_binding {p : Program} {v : Variable}
    (hknown : (v.binding p).layout.isFallback = false) : (v.binding p).layout = v.winner := by
  by_cases hmissing : v.winner = .missing
  · rw [binding, if_pos hmissing] at hknown
    cases hknown
  · exact if_neg hmissing

/-- A binding shows the variable that a node refers to. -/
theorem Result.exists_of_binding? {s : Subject} {outcome : Subject.Outcome} {id : NodeId}
    {b : Binding} (hb : (ofOutcome s outcome).binding? id = some b) :
    ∃ v ∈ outcome.state.vars, s.program.declaration id = some v.decl
      ∧ (outcome.state.view s).variableOf? id = some v ∧ b = v.binding s.program := by
  obtain ⟨decl, hdecl, hfind⟩ := Option.bind_eq_some_iff.mp hb
  have hbindings : (ofOutcome s outcome).bindings = outcome.state.vars.map (·.binding s.program) := rfl
  rw [hbindings, List.find?_map] at hfind
  obtain ⟨v, hv, rfl⟩ := Option.map_eq_some_iff.mp hfind
  have hsame : v.decl = decl := by simpa [Variable.binding] using List.find?_some hv
  exact ⟨v, List.mem_of_find?_eq_some hv, hsame ▸ hdecl,
    Option.bind_eq_some_iff.mpr ⟨decl, hdecl, hv⟩, rfl⟩

/-- What a result shows for the variable that a node refers to, if it says anything. -/
theorem Result.layout_of_binding? {s : Subject} {outcome : Subject.Outcome} {id : NodeId}
    {b : Binding} (hb : (ofOutcome s outcome).binding? id = some b)
    (hknown : b.layout.isFallback = false) : b.layout = (outcome.state.view s).winnerOf id := by
  obtain ⟨v, -, -, hv, rfl⟩ := exists_of_binding? hb
  rw [View.winnerOf, hv]
  exact Variable.layout_binding hknown

/-- A variable that only gets the value of another one has the layout which that one had in the first
pass in which it said something. What the result shows for the other variable is its layout in the last
pass; where the two are the same, the copy has the layout of its source. -/
theorem copy_keeps_first_layout {source : Source} {script : Script} {p : Program}
    (hp : Program.ofScript source script = .ok p) {max : Int} {r : Result}
    (hr : infer p max = .ok r) (hconverged : r.converged = true) {copy original : Binding}
    {e : NodeId} (hcopy : copy ∈ r.bindings) (honly : (Subject.of p).OnlyCopies copy.decl e)
    (horiginal : r.binding? e = some original) (hknown : original.layout.isFallback = false) :
    ∃ k < r.iterations, (∀ j < k, ((Subject.of p).winnerIn j e).isFallback = true)
      ∧ ((Subject.of p).winnerIn k e).isFallback = false
      ∧ copy.layout = (Subject.of p).winnerIn k e
      ∧ original.layout = (Subject.of p).winnerIn (r.iterations - 1) e := by
  set s := Subject.of p
  have hnumbered : s.program.Numbered := Program.ofScript_numbered hp
  obtain ⟨bound, rfl⟩ : ∃ bound, r = Result.ofOutcome s (s.resolve bound) :=
    ⟨_, (infer_eq_ok_iff.mp hr).1⟩
  obtain ⟨last, hstop, hends⟩ := Subject.resolve_of_converged hconverged
  have hwinner : original.layout = s.winnerIn last e := by
    have hlayout := Result.layout_of_binding? horiginal hknown
    rw [hends] at hlayout
    rw [hlayout, ← Subject.winnerIn_last hnumbered hstop]
  -- The pass in which the source says something for the first time.
  have hexists : ∃ k, (s.winnerIn k e).isFallback = false := ⟨last, by rwa [← hwinner]⟩
  have hfirst := Nat.find_spec hexists
  have hbefore : ∀ j < Nat.find hexists, (s.winnerIn j e).isFallback = true := by
    intro j hj
    simpa using Nat.find_min hexists hj
  have hle : Nat.find hexists ≤ last := Nat.find_min' hexists (by rwa [← hwinner])
  have hiterations : (Result.ofOutcome s (s.resolve bound)).iterations = last + 1 := by
    rw [hends]
    rfl
  refine ⟨Nat.find hexists, by omega, hbefore, hfirst, ?_, by rwa [hiterations]⟩
  -- From then on that layout is the only candidate of the copy, and candidates decide winners.
  have hbears := honly.keeps hnumbered hbefore hfirst (Nat.lt_succ_of_le hle)
  obtain ⟨hregular, hsettled, -⟩ := Subject.resolve_ends hnumbered bound
  rw [hends] at hcopy hregular hsettled
  obtain ⟨v, hv, rfl⟩ := List.mem_map.mp hcopy
  have hlayout : v.winner = s.winnerIn (Nat.find hexists) e := by
    rw [(hsettled v hv).winner_eq hregular.wellFormed.store.registry]
    exact (hbears.evidence v hv rfl).winner_verdict hfirst _
  have hne : v.winner ≠ .missing := by
    intro hmissing
    rw [← hlayout, hmissing] at hfirst
    cases hfirst
  exact (if_neg hne).trans hlayout

namespace Script

/-- `function f(p) { let q = p; return q; } let x = []; x.push(1); let y = f(x);` -/
def copiedParameter : Script :=
  ⟨[.function ⟨0, 0⟩ "f" [.mk (.name ⟨0, 0⟩ "p") none] none
      (.mk ⟨0, 0⟩ [declares "q" (nameOf "p"), .ret ⟨0, 0⟩ (some (nameOf "q"))]),
    declares "x" (arrayOf []), pushes "x" (numberOf "1"),
    declares "y" (.call ⟨0, 0⟩ (nameOf "f") [nameOf "x"])]⟩

/-- `let a = [1]; let x = {}; let y = x; x.b = a;` -/
def copiedRecord : Script :=
  ⟨[declares "a" (arrayOf [numberOf "1"]), declares "x" (.object ⟨0, 0⟩ []),
    declares "y" (nameOf "x"), assigns (.dot ⟨0, 0⟩ (nameOf "x") "b") (nameOf "a")]⟩

end Script

/-- The copy `q` of the parameter `p`, to which node 7 refers, gets its layout in the second pass; in the
first one the parameter has none. -/
theorem copy_keeps_first_layout_copiedParameter :
    let s := Subject.of Script.copiedParameter.program
    ∃ r, infer Script.copiedParameter.program 64 = .ok r ∧ r.converged = true
      ∧ ∃ q ∈ r.bindings, s.OnlyCopies q.decl 7 ∧ ∃ p ∈ r.binding? 7, p.layout.isFallback = false
        ∧ (s.winnerIn 0 7).isFallback = true
        ∧ ∃ k < r.iterations, q.layout = s.winnerIn k 7
          ∧ p.layout = s.winnerIn (r.iterations - 1) 7 := by
  intro s
  have hscript := Script.ofScript_eq_ok Script.copiedParameter (by decide +kernel)
  have hrun : infer Script.copiedParameter.program 64
      = .ok (runInference Script.copiedParameter.program 64) :=
    infer_eq_ok_iff.mpr ⟨rfl, by decide +kernel⟩
  have hconverged : (runInference Script.copiedParameter.program 64).converged = true := by
    decide +kernel
  have hcopies : ∃ q ∈ (runInference Script.copiedParameter.program 64).bindings,
      s.OnlyCopies q.decl 7 ∧ ∃ p ∈ (runInference Script.copiedParameter.program 64).binding? 7,
        p.layout.isFallback = false := by
    decide +kernel
  obtain ⟨q, hq, honly, p, hp, hknown⟩ := hcopies
  obtain ⟨k, hk, -, -, hcopy, horiginal⟩ :=
    copy_keeps_first_layout hscript hrun hconverged hq honly hp hknown
  exact ⟨_, hrun, hconverged, q, hq, honly, p, hp, hknown, by decide +kernel, k, hk, hcopy, horiginal⟩

/-- The record of `x`, to which node 11 refers, gets the property `b` after `y` has taken it. The run
converges, and `y` still has the record without properties. -/
theorem copiedRecord_stale :
    Program.ofScript ⟨"main.js", []⟩ Script.copiedRecord = .ok Script.copiedRecord.program
      ∧ ∃ r, infer Script.copiedRecord.program 64 = .ok r ∧ r.converged = true
        ∧ ∃ y ∈ r.bindings, (Subject.of Script.copiedRecord.program).OnlyCopies y.decl 11
          ∧ ∃ x ∈ r.binding? 11, x.layout.isFallback = false ∧ y.layout.same x.layout = false := by
  have hrun : infer Script.copiedRecord.program 64
      = .ok (runInference Script.copiedRecord.program 64) :=
    infer_eq_ok_iff.mpr ⟨rfl, by decide +kernel⟩
  exact ⟨Script.ofScript_eq_ok _ (by decide +kernel), _, hrun, by decide +kernel, by decide +kernel⟩

end LayoutInference
