import Mathlib
import LayoutInference.Proofs.Growth
import LayoutInference.Proofs.Numbering

/-!
# The cache of apparent types

Apparent types are evaluated with a cache that is filled from inside other evaluations. This module
shows that it cannot be noticed: every answer is the value of the same walk without a cache
(`Program.apparentOf`), whatever was asked before.

## Shape of the proof

The rules for apparent types are written for any monad. `Relator` is a relation between two monads that
`pure` and `bind` keep, and `Relator.apparent` says that the rules keep it too. All comparisons of two
ways of looking types up are instances of this one lemma.

An answer is kept only if no circular reference was met on the way, so each of them follows by the rules
from those kept before it (`Program.Settled`). Answers that hang together in this way hold in every walk
that may still visit their nodes (`Settled.apparentOf_eq`): no walk that is under way can be met again
while they are worked out, since none was met the first time. The induction over the nodes that are not
being evaluated (`Program.evaluate_follows`) then gives the value of an evaluation and what it keeps at
the same time.

`Program.visit` is the evaluation as a machine with a set of nodes that are being visited and a bound
on the depth of the walk; `Program.visit_simulates` shows that it gives the same answers, that it ends,
and that it leaves the set as it found it.
-/

namespace LayoutInference

/-! ## Rules in two monads -/

/-- A relation between the computations of two monads that `pure` and `bind` keep. -/
structure Relator (m m' : Type → Type) [Monad m] [Monad m'] where
  rel : {α : Type} → m α → m' α → Prop
  pure : ∀ {α : Type} (a : α), rel (Pure.pure a) (Pure.pure a)
  bind : ∀ {α β : Type} {x : m α} {y : m' α} {f : α → m β} {g : α → m' β},
    rel x y → (∀ a, rel (f a) (g a)) → rel (x >>= f) (y >>= g)

namespace Relator

variable {m m' : Type → Type} [Monad m] [Monad m'] (R : Relator m m')

section Lists

variable {α : Type} {look : α → m Apparent} {look' : α → m' Apparent}
  (h : ∀ x, R.rel (look x) (look' x))
include h

/-- Comparing types with a first one keeps related lookups related. -/
theorem agreeWith (first : Apparent) (xs : List α) :
    R.rel (agreeWith look first xs) (agreeWith look' first xs) := by
  induction xs with
  | nil => exact R.pure first
  | cons x xs ih =>
    refine R.bind (h x) fun a => ?_
    split
    · exact ih
    · exact R.pure _

/-- The common type of a list keeps related lookups related. -/
theorem agreement (default : Apparent) (xs : List α) :
    R.rel (agreement look default xs) (agreement look' default xs) := by
  cases xs with
  | nil => exact R.pure default
  | cons x xs => exact R.bind (h x) fun first => R.agreeWith h first xs

/-- Looking up a list keeps related lookups related. -/
theorem mapM [LawfulMonad m] [LawfulMonad m'] (xs : List α) :
    R.rel (xs.mapM look) (xs.mapM look') := by
  induction xs with
  | nil =>
    rw [List.mapM_nil, List.mapM_nil]
    exact R.pure _
  | cons x xs ih =>
    rw [List.mapM_cons, List.mapM_cons]
    exact R.bind (h x) fun a => R.bind ih fun as => R.pure _

end Lists

variable {look : NodeId → m Apparent} {look' : NodeId → m' Apparent}
  (h : ∀ id, R.rel (look id) (look' id))
include h

/-- Looking up what may not be there keeps related lookups related. -/
theorem lookOpt (id : Option NodeId) : R.rel (lookOpt look id) (lookOpt look' id) := by
  cases id with
  | none => exact R.pure _
  | some id => exact h id

/-- The rule for operators keeps related lookups related. -/
theorem operation (operator : String) (left right : Option NodeId) :
    R.rel (operation look operator left right) (operation look' operator left right) := by
  unfold LayoutInference.operation
  split
  · refine R.bind (R.lookOpt h left) fun l => R.bind (R.lookOpt h right) fun r => ?_
    split
    · exact R.pure _
    · split <;> exact R.pure _
  · exact R.pure _
  · exact R.pure _
  · exact R.agreement h _ _
  · exact R.pure _

variable (p : Program)

/-- The rule for declarations keeps related lookups related. -/
theorem declaredType (n : Node) : R.rel (declaredType p look n) (declaredType p look' n) := by
  unfold LayoutInference.declaredType
  split
  · split
    · exact R.pure _
    · split
      · exact R.bind (R.lookOpt h _) fun a => R.pure _
      · exact R.lookOpt h _
  · exact R.lookOpt h _

/-- The rule for returned values keeps related lookups related. -/
theorem returnedType (fn : NodeId) : R.rel (returnedType p look fn) (returnedType p look' fn) := by
  refine R.agreement (fun ret => ?_) .void (p.returns fn)
  split
  · exact h _
  · exact R.pure _

/-- The rule for calls keeps related lookups related. -/
theorem callType (n : Node) : R.rel (callType p look n) (callType p look' n) := by
  unfold LayoutInference.callType
  split
  · exact R.pure _
  · split
    · split
      · exact R.pure _
      · split
        · exact R.pure _
        · refine R.bind (h _) fun a => ?_
          split <;> exact R.pure _
    · split
      · exact R.returnedType h p _
      · split <;> exact R.pure _

/-- The rule for object literals keeps related lookups related. -/
theorem memberTypes (ids : List NodeId) :
    R.rel (memberTypes p look ids) (memberTypes p look' ids) := by
  induction ids with
  | nil => exact R.pure _
  | cons id ids ih =>
    unfold LayoutInference.memberTypes
    split
    · exact ih
    · split
      · exact R.bind (R.lookOpt h _) fun type => R.bind ih fun members => R.pure _
      · exact ih

/-- The apparent type of a node is related if those of the others are. -/
theorem apparent (n : Node) : R.rel (n.apparent p look) (n.apparent p look') := by
  unfold Node.apparent
  cases n.kind with
  | identifier =>
    dsimp only
    split
    · exact h _
    · exact R.pure _
  | «variable» => exact R.declaredType h p n
  | parameter => exact R.lookOpt h _
  | arrayLiteral => exact R.bind (R.lookOpt h _) fun elem => R.pure _
  | objectLiteral => exact R.bind (R.memberTypes h p _) fun members => R.pure _
  | propertyAccess =>
    refine R.bind (R.lookOpt h _) fun object => ?_
    split <;> exact R.pure _
  | elementAccess =>
    refine R.bind (R.lookOpt h _) fun collection => ?_
    split
    · split
      · split <;> exact R.pure _
      · exact R.pure _
    · exact R.pure _
  | call => exact R.callType h p n
  | assign =>
    dsimp only
    split
    · exact R.lookOpt h _
    · exact R.operation h _ _ _
  | binary => exact R.operation h _ _ _
  | unary =>
    dsimp only
    split <;> exact R.pure _
  | conditional => exact R.agreement h _ _
  | _ => exact R.pure _

end Relator

/-! ## The walk without a cache -/

/-- The apparent type of a node by the walk alone: a node that is being evaluated already counts as
`any`. -/
def Program.apparentOf (p : Program) (fresh : List NodeId) (id : NodeId) : Apparent :=
  match p.node? id with
  | none => .any
  | some n =>
    if _h : id ∈ fresh then
      Id.run (n.apparent p fun other => p.apparentOf (fresh.erase id) other)
    else .any
termination_by fresh.length
decreasing_by
  rw [List.length_erase_of_mem _h]
  have := List.length_pos_of_mem _h
  omega

namespace Program

variable {p : Program} {fresh : List NodeId} {id : NodeId} {n : Node}

/-- What is no node counts as any type. -/
theorem apparentOf_outside (hnode : p.node? id = none) : p.apparentOf fresh id = .any := by
  rw [apparentOf, hnode]

/-- A node that is being evaluated counts as any type. -/
theorem apparentOf_cut (hid : id ∉ fresh) : p.apparentOf fresh id = .any := by
  rw [apparentOf]
  split
  · rfl
  · exact dif_neg hid

/-- A fresh node has the type that the rules give, without a second visit of the node itself. -/
theorem apparentOf_fresh (hnode : p.node? id = some n) (hid : id ∈ fresh) :
    p.apparentOf fresh id = Id.run (n.apparent p fun other => p.apparentOf (fresh.erase id) other) := by
  rw [apparentOf, hnode]
  exact dif_pos hid

end Program

/-- A computation that may have no answer against one that has, which is the same if there is one. -/
def Relator.answered : Relator Option Id where
  rel x y := ∀ a, x = some a → Id.run y = a
  pure a b h := Option.some.inj h
  bind := by
    intro α β x y f g hxy hfg b hb
    obtain ⟨a, ha, hfa⟩ := Option.bind_eq_some_iff.mp hb
    have := hfg a b hfa
    rwa [← hxy a ha] at this

/-! ## Answers that are kept -/

namespace Program

/-- What a list of answers tells about a node. What is no node counts as `any`. -/
def remembered (p : Program) (answers : List (NodeId × Apparent)) (id : NodeId) : Option Apparent :=
  match p.node? id with
  | none => some .any
  | some _ => answers.lookup id

/-- `Settled p answers`: each of the answers follows from those kept before it. -/
inductive Settled (p : Program) : List (NodeId × Apparent) → Prop where
  | nil : Settled p []
  | cons {answers : List (NodeId × Apparent)} {id : NodeId} {n : Node} {type : Apparent}
    (h : Settled p answers) (hnode : p.node? id = some n) (hnew : answers.lookup id = none)
    (htype : n.apparent p (p.remembered answers) = some type) : Settled p ((id, type) :: answers)

variable {p : Program} {fresh : List NodeId} {answers : List (NodeId × Apparent)} {id : NodeId}
  {type : Apparent}

/-- Answers are kept about nodes only. -/
theorem Settled.node (h : Settled p answers) (hid : answers.lookup id = some type) :
    ∃ n, p.node? id = some n := by
  induction h with
  | nil => cases hid
  | cons _ hnode _ _ ih =>
    rcases lookup_cons_cases hid with hold | ⟨rfl, -⟩
    · exact ih hold
    · exact ⟨_, hnode⟩

/-- Settled answers hold in every walk that may still visit their nodes. -/
theorem Settled.apparentOf_eq (h : Settled p answers)
    (hfresh : ∀ id type, answers.lookup id = some type → id ∈ fresh)
    (hid : answers.lookup id = some type) : p.apparentOf fresh id = type := by
  induction h generalizing fresh id type with
  | nil => cases hid
  | @cons answers other n known h hnode hnew htype ih =>
    rcases lookup_cons_cases hid with hold | ⟨rfl, rfl⟩
    · exact ih (fun id type hlookup => hfresh id type (lookup_cons_of_fresh hnew _ hlookup)) hold
    · -- The node itself is visited now, but none of the earlier answers is about it.
      have hearlier (id' : NodeId) (type' : Apparent) (hlookup : answers.lookup id' = some type') :
          id' ∈ fresh.erase id := by
        have hne : id' ≠ id := by
          rintro rfl
          rw [hnew] at hlookup
          cases hlookup
        exact (List.mem_erase_of_ne hne).mpr
          (hfresh id' type' (lookup_cons_of_fresh hnew _ hlookup))
      rw [apparentOf_fresh hnode (hfresh id type List.lookup_cons_self)]
      refine Relator.answered.apparent (fun other a ha => ?_) p n type htype
      show p.apparentOf (fresh.erase id) other = a
      unfold remembered at ha
      split at ha
      case h_1 hother => rw [apparentOf_outside hother, Option.some.inj ha]
      case h_2 => exact ih hearlier ha

/-! ## Evaluating with the cache -/

/-- The cache after the evaluation of a node: the type is kept unless the walk was cut. -/
def keep (id : NodeId) (type : Apparent) (before after : Apparent.Cache) : Apparent.Cache where
  answers := if after.cut then after.answers else (id, type) :: after.answers
  cut := after.cut || before.cut

section Evaluate

variable {c : Apparent.Cache} {n : Node}

/-- A type that is kept is answered as it is. -/
theorem evaluate_known (h : c.answers.lookup id = some type) :
    p.evaluate fresh id c = (type, c) := by
  rw [evaluate]
  rw [get_bind_apply, h]
  rfl

/-- What is no node is answered at once and not kept. -/
theorem evaluate_outside (h : c.answers.lookup id = none) (hnode : p.node? id = none) :
    p.evaluate fresh id c = (.any, c) := by
  rw [evaluate]
  simp only [get_bind_apply, h, hnode]
  rfl

/-- A node that is being evaluated cuts the walk. -/
theorem evaluate_cut (h : c.answers.lookup id = none) (hnode : p.node? id = some n)
    (hid : id ∉ fresh) : p.evaluate fresh id c = (.any, { c with cut := true }) := by
  rw [evaluate]
  simp only [get_bind_apply, h, hnode, hid]
  rfl

/-- A fresh node is evaluated by the rules, and its type is kept unless the walk was cut. -/
theorem evaluate_fresh (h : c.answers.lookup id = none) (hnode : p.node? id = some n)
    (hid : id ∈ fresh) : p.evaluate fresh id c
      = let (type, after) := n.apparent p (p.evaluate (fresh.erase id)) { c with cut := false }
        (type, keep id type c after) := by
  rw [evaluate]
  simp only [get_bind_apply, h, hnode, hid]
  rfl

end Evaluate

/-- What holds of a cache while the nodes of `fresh` are not being evaluated: its answers are settled
and about such nodes only. -/
structure Kept (p : Program) (fresh : List NodeId) (c : Apparent.Cache) : Prop where
  settled : Settled p c.answers
  fresh : ∀ id type, c.answers.lookup id = some type → id ∈ fresh

/-- `Grown c c'`: the cache `c'` has all answers of `c`, and the walk is still cut if it was. -/
structure Grown (c c' : Apparent.Cache) : Prop where
  answers : ∀ id type, c.answers.lookup id = some type → c'.answers.lookup id = some type
  cut : c.cut = true → c'.cut = true

/-- Whether the answers of a walk can be had from `known`: it tells the values of the walk without a
cache, or the walk was not cut and it tells what the cache has. -/
def Explains (p : Program) (fresh : List NodeId) (known : NodeId → Option Apparent)
    (c : Apparent.Cache) : Prop :=
  (∀ id, known id = some (p.apparentOf fresh id))
    ∨ c.cut = false ∧ ∀ id type, p.remembered c.answers id = some type → known id = some type

/-- A cache has all answers that it has. -/
theorem Grown.refl (c : Apparent.Cache) : Grown c c := ⟨fun _ _ h => h, fun h => h⟩

/-- A cache that has grown twice has grown. -/
theorem Grown.trans {c c' c'' : Apparent.Cache} (h : Grown c c') (h' : Grown c' c'') : Grown c c'' :=
  ⟨fun id type hid => h'.answers id type (h.answers id type hid), fun hcut => h'.cut (h.cut hcut)⟩

/-- What explains a later cache explains an earlier one. -/
theorem Explains.mono {known : NodeId → Option Apparent} {c c' : Apparent.Cache}
    (h : p.Explains fresh known c') (hgrown : Grown c c') : p.Explains fresh known c := by
  refine h.imp_right fun ⟨hcut, hknown⟩ => ⟨?_, fun id type hid => hknown id type ?_⟩
  · cases hc : c.cut with
    | false => rfl
    | true => rw [hgrown.cut hc] at hcut; cases hcut
  · unfold remembered at hid ⊢
    split at hid
    · exact hid
    · exact hgrown.answers id type hid

/-- Computations with the cache against computations without: the cache is kept in order, and what is
answered has the answer of the other as soon as its source explains the cache. -/
def follows (p : Program) (fresh : List NodeId) (known : NodeId → Option Apparent) :
    Relator (StateM Apparent.Cache) Option where
  rel x y := ∀ c, p.Kept fresh c → p.Kept fresh (x c).2 ∧ Grown c (x c).2
    ∧ (p.Explains fresh known (x c).2 → y = some (x c).1)
  pure a c hc := ⟨hc, .refl c, fun _ => rfl⟩
  bind := by
    intro α β x y f g hxy hfg c hc
    obtain ⟨hkept, hgrown, hx⟩ := hxy c hc
    obtain ⟨hkept', hgrown', hf⟩ := hfg (x c).1 (x c).2 hkept
    refine ⟨hkept', hgrown.trans hgrown', fun hexplains => ?_⟩
    rw [hx (hexplains.mono hgrown')]
    exact hf hexplains

section Visit

variable {n : Node} {before after : Apparent.Cache}

/-- The cache at the start of the evaluation of a node it has no answer for. -/
theorem Kept.enter (h : p.Kept fresh before) (hnew : before.answers.lookup id = none) :
    p.Kept (fresh.erase id) { before with cut := false } where
  settled := h.settled
  fresh other type hother := by
    have hne : other ≠ id := by
      rintro rfl
      rw [hnew] at hother
      cases hother
    exact (List.mem_erase_of_ne hne).mpr (h.fresh other type hother)

/-- No answer is kept for a node that is being evaluated. -/
theorem Kept.lookup_erase (h : p.Kept (fresh.erase id) after) (hfresh : fresh.Nodup) :
    after.answers.lookup id = none := by
  cases hlookup : after.answers.lookup id with
  | none => rfl
  | some type => exact absurd (h.fresh id type hlookup) hfresh.not_mem_erase

/-- The cache at the end: the type is kept only if it follows from what the cache has. -/
theorem Kept.leave (h : p.Kept (fresh.erase id) after) (hfresh : fresh.Nodup) (hid : id ∈ fresh)
    (hnode : p.node? id = some n)
    (htype : after.cut = false → n.apparent p (p.remembered after.answers) = some type) :
    p.Kept fresh (keep id type before after) := by
  have hnew := h.lookup_erase hfresh
  constructor
  · unfold keep
    cases hcut : after.cut with
    | true => exact h.settled
    | false => exact .cons h.settled hnode hnew (htype hcut)
  · intro other type' hother
    unfold keep at hother
    split at hother
    · exact List.mem_of_mem_erase (h.fresh other type' hother)
    · rcases lookup_cons_cases hother with hother | ⟨rfl, -⟩
      · exact List.mem_of_mem_erase (h.fresh other type' hother)
      · exact hid

/-- The cache still has its answers when the evaluation of a node ends. -/
theorem Grown.leave (h : Grown { before with cut := false } after)
    (hnew : after.answers.lookup id = none) : Grown before (keep id type before after) where
  answers other type' hother := by
    unfold keep
    split
    · exact h.answers other type' hother
    · exact lookup_cons_of_fresh hnew _ (h.answers other type' hother)
  cut hcut := by
    rw [keep, hcut, Bool.or_true]

/-- What explains the cache at the end of an evaluation that was not cut knows the type. -/
theorem Explains.keep {known : NodeId → Option Apparent} (hnode : p.node? id = some n)
    (htype : p.apparentOf fresh id = type)
    (h : p.Explains fresh known (keep id type before after)) : known id = some type := by
  rcases h with htotal | ⟨hcut, hknown⟩
  · rw [htotal, htype]
  · refine hknown id type ?_
    have hcut' : after.cut = false := (Bool.or_eq_false_iff.mp hcut).1
    simp [remembered, hnode, Program.keep, hcut']

end Visit

/-- Evaluating a node follows any source that explains the cache afterwards. -/
theorem evaluate_follows {fresh : List NodeId} (hfresh : fresh.Nodup)
    (known : NodeId → Option Apparent) (id : NodeId) :
    (p.follows fresh known).rel (p.evaluate fresh id) (known id) := by
  intro c hc
  cases hlookup : c.answers.lookup id with
  | some type =>
    obtain ⟨n, hnode⟩ := hc.settled.node hlookup
    rw [evaluate_known hlookup]
    refine ⟨hc, .refl c, ?_⟩
    rintro (htotal | ⟨-, hknown⟩)
    · rw [htotal, hc.settled.apparentOf_eq hc.fresh hlookup]
    · exact hknown id type (by rw [remembered, hnode]; exact hlookup)
  | none =>
    cases hnode : p.node? id with
    | none =>
      rw [evaluate_outside hlookup hnode]
      refine ⟨hc, .refl c, ?_⟩
      rintro (htotal | ⟨-, hknown⟩)
      · rw [htotal, apparentOf_outside hnode]
      · exact hknown id .any (by rw [remembered, hnode])
    | some n =>
      by_cases hid : id ∈ fresh
      · -- The rules are held against two sources: the walk without a cache, which tells the type,
        -- and the answers of the cache itself, which tell that the type may be kept.
        have hrules (known' : NodeId → Option Apparent) :=
          (p.follows (fresh.erase id) known').apparent
            (fun other => evaluate_follows (hfresh.erase id) known' other) p n
            { c with cut := false } (hc.enter hlookup)
        rw [evaluate_fresh hlookup hnode hid]
        generalize n.apparent p (p.evaluate (fresh.erase id)) { c with cut := false } = outcome
          at hrules ⊢
        obtain ⟨type, after⟩ := outcome
        obtain ⟨hkept, hgrown, htotal⟩ := hrules fun other => some (p.apparentOf (fresh.erase id) other)
        have htype : p.apparentOf fresh id = type := by
          rw [apparentOf_fresh hnode hid]
          refine Relator.answered.apparent (fun other a ha => ?_) p n type
            (htotal (.inl fun other => rfl))
          exact Option.some.inj ha
        refine ⟨hkept.leave hfresh hid hnode fun hcut => ?_, hgrown.leave (hkept.lookup_erase hfresh),
          Explains.keep hnode htype⟩
        exact (hrules (p.remembered after.answers)).2.2 (.inr ⟨hcut, fun _ _ h => h⟩)
      · -- From here on the walk is cut, so only a source that is cut at the same place explains it.
        rw [evaluate_cut hlookup hnode hid]
        refine ⟨⟨hc.settled, hc.fresh⟩, ⟨fun _ _ h => h, fun _ => rfl⟩, ?_⟩
        rintro (htotal | ⟨hcut, -⟩)
        · rw [htotal, apparentOf_cut hid]
        · cases hcut
termination_by fresh.length
decreasing_by
  rw [List.length_erase_of_mem hid]
  have := List.length_pos_of_mem hid
  omega

/-- Any series of questions has the answers of the walk without a cache. -/
theorem askAll_eq (p : Program) (questions : List NodeId) :
    p.askAll questions = questions.map (p.apparentOf p.ids) := by
  have hstart : p.Kept p.ids {} := ⟨.nil, fun _ _ h => by cases h⟩
  obtain ⟨-, -, hanswers⟩ := (p.follows p.ids fun id => some (p.apparentOf p.ids id)).mapM
    (evaluate_follows p.nodup_ids _) questions {} hstart
  have htotal := hanswers (.inl fun id => rfl)
  have hmap : questions.mapM (fun id => some (p.apparentOf p.ids id))
      = some (questions.map (p.apparentOf p.ids)) := List.mapM_pure
  exact (Option.some.inj (hmap.symm.trans htotal)).symm

/-- The answer to a first question is the value of the walk without a cache. -/
theorem ask_eq (p : Program) (id : NodeId) : (p.ask id {}).1 = p.apparentOf p.ids id := by
  exact (List.cons.inj (p.askAll_eq [id])).1

end Program

/-! ## The evaluation as a machine -/

/-- The state of the machine: the answers kept, the nodes that are being visited, and whether the walk
was cut. -/
structure Apparent.Walk where
  answers : List (NodeId × Apparent) := []
  visiting : List NodeId := []
  cut : Bool := false

namespace Program

/-- The apparent type of a node, found by walks of limited depth. What is no node is visited like any
node, and its answer is kept. -/
def visit (p : Program) : Nat → NodeId → StateT Apparent.Walk Option Apparent
  | 0, _ => failure
  | depth + 1, id => do
    let before ← get
    match before.answers.lookup id with
    | some known => return known
    | none =>
      if id ∈ before.visiting then
        set { before with cut := true }
        return .any
      else
        set { before with visiting := id :: before.visiting, cut := false }
        let type ← match p.node? id with
          | none => pure .any
          | some n => n.apparent p (p.visit depth)
        modify fun after =>
          { answers := if after.cut then after.answers else (id, type) :: after.answers
            visiting := after.visiting.erase id
            cut := after.cut || before.cut }
        return type

/-- `Mirrors p visiting c w`: the machine visits the nodes given and has kept what the cache has, and
possibly that what is no node counts as `any`. -/
structure Mirrors (p : Program) (visiting : List NodeId) (c : Apparent.Cache) (w : Apparent.Walk) :
    Prop where
  visiting : w.visiting = visiting
  cut : w.cut = c.cut
  inside : ∀ id n, p.node? id = some n → w.answers.lookup id = c.answers.lookup id
  outside : ∀ id, p.node? id = none → c.answers.lookup id = none
    ∧ ∀ type, w.answers.lookup id = some type → type = .any

/-- Computations with the cache against runs of the machine, which end with the same answer. -/
def simulates (p : Program) (visiting : List NodeId) :
    Relator (StateM Apparent.Cache) (StateT Apparent.Walk Option) where
  rel x y := ∀ c w, p.Mirrors visiting c w →
    ∃ w', y w = some ((x c).1, w') ∧ p.Mirrors visiting (x c).2 w'
  pure a c w h := ⟨w, rfl, h⟩
  bind := by
    intro α β x y f g hxy hfg c w h
    obtain ⟨w', hy, h'⟩ := hxy c w h
    obtain ⟨w'', hg, h''⟩ := hfg _ _ _ h'
    refine ⟨w'', ?_, h''⟩
    show (y w).bind (fun (a, w) => g a w) = _
    rw [hy]
    exact hg

/-- The machine when the visit of a node ends. -/
def leave (id : NodeId) (type : Apparent) (before after : Apparent.Walk) : Apparent.Walk where
  answers := if after.cut then after.answers else (id, type) :: after.answers
  visiting := after.visiting.erase id
  cut := after.cut || before.cut

/-- The rules for a node, if it is one. -/
def rules (p : Program) (depth : Nat) (id : NodeId) : StateT Apparent.Walk Option Apparent :=
  match p.node? id with
  | none => pure .any
  | some n => n.apparent p (p.visit depth)

/-- The rules for a node are those of its kind. -/
theorem rules_of_node {p : Program} {depth : Nat} {id : NodeId} {n : Node}
    (hnode : p.node? id = some n) : p.rules depth id = n.apparent p (p.visit depth) := by
  rw [rules, hnode]

/-- One visit. -/
theorem visit_apply (p : Program) (depth : Nat) (id : NodeId) (w : Apparent.Walk) :
    p.visit (depth + 1) id w = match w.answers.lookup id with
      | some known => some (known, w)
      | none =>
        if id ∈ w.visiting then some (.any, { w with cut := true })
        else (p.rules depth id { w with visiting := id :: w.visiting, cut := false }).map
          fun (type, after) => (type, leave id type w after) := by
  rw [visit]
  show (match w.answers.lookup id with
    | some known => _
    | none => _ : StateT Apparent.Walk Option Apparent) w = _
  cases hlookup : w.answers.lookup id with
  | some known => rfl
  | none =>
    dsimp only
    split
    · rfl
    · rw [rules]
      cases p.node? id with
      | none => rfl
      | some n => exact (Option.map_eq_bind ..).symm

variable {p : Program} {fresh visiting : List NodeId} {id : NodeId} {type : Apparent}
  {before after : Apparent.Cache} {w w' : Apparent.Walk}

/-- A node has not the number of what is none. -/
theorem ne_of_node? {other : NodeId} {n : Node} (h : p.node? id = some n)
    (h' : p.node? other = none) : id ≠ other := by
  rintro rfl
  rw [h] at h'
  cases h'

/-- The answer that was kept for what is no node is found later. -/
theorem Mirrors.outside_kept (h : p.Mirrors visiting before w) (hnode : p.node? id = none) :
    p.Mirrors visiting before { w with answers := (id, .any) :: w.answers } where
  visiting := h.visiting
  cut := h.cut
  inside other n hother := by
    rw [List.lookup_cons, beq_eq_false_iff_ne.mpr (ne_of_node? hother hnode)]
    exact h.inside other n hother
  outside other hother := by
    refine ⟨(h.outside other hother).1, fun type htype => ?_⟩
    rcases lookup_cons_cases htype with hold | ⟨-, htype⟩
    · exact (h.outside other hother).2 type hold
    · exact htype

/-- The machine enters a node as the evaluation does. -/
theorem Mirrors.enter (h : p.Mirrors visiting before w) (id : NodeId) :
    p.Mirrors (id :: visiting) { before with cut := false }
      { w with visiting := id :: w.visiting, cut := false } :=
  ⟨congrArg (id :: ·) h.visiting, rfl, h.inside, h.outside⟩

/-- The machine leaves a node as the evaluation does. -/
theorem Mirrors.leave {n : Node} (h : p.Mirrors visiting before w)
    (h' : p.Mirrors (id :: visiting) after w') (hnode : p.node? id = some n) (type : Apparent) :
    p.Mirrors visiting (keep id type before after) (leave id type w w') where
  visiting := by rw [Program.leave, h'.visiting, List.erase_cons_head]
  cut := by rw [Program.leave, keep, h'.cut, h.cut]
  inside other m hother := by
    unfold Program.leave keep
    rw [h'.cut]
    split
    · exact h'.inside other m hother
    · simp only [List.lookup_cons]
      split
      · rfl
      · exact h'.inside other m hother
  outside other hother := by
    have hne : (other == id) = false := beq_eq_false_iff_ne.mpr (ne_of_node? hnode hother).symm
    unfold Program.leave keep
    rw [h'.cut]
    split
    · exact h'.outside other hother
    · simp only [List.lookup_cons, hne]
      exact h'.outside other hother

/-- `Divided p fresh visiting`: every node is either fresh or visited, and nothing else is visited. -/
structure Divided (p : Program) (fresh visiting : List NodeId) : Prop where
  nodup : fresh.Nodup
  fresh_iff : ∀ id n, p.node? id = some n → (id ∈ fresh ↔ id ∉ visiting)
  nodes : ∀ id ∈ visiting, ∃ n, p.node? id = some n

/-- At first all nodes are fresh. -/
theorem Divided.start (p : Program) : p.Divided p.ids [] where
  nodup := p.nodup_ids
  fresh_iff _ _ hnode := iff_of_true (mem_ids_of_node? hnode) List.not_mem_nil
  nodes _ hid := absurd hid List.not_mem_nil

/-- A node that is entered is no longer fresh. -/
theorem Divided.enter (h : p.Divided fresh visiting) {n : Node} (hnode : p.node? id = some n) :
    p.Divided (fresh.erase id) (id :: visiting) where
  nodup := h.nodup.erase id
  fresh_iff other m hother := by
    rw [h.nodup.mem_erase_iff, h.fresh_iff other m hother, List.mem_cons, not_or]
  nodes other hother := by
    rcases List.mem_cons.mp hother with rfl | hother
    · exact ⟨n, hnode⟩
    · exact h.nodes other hother

/-- Within enough depth the machine ends with the answer of the evaluation, and visits what it visited
before. -/
theorem visit_simulates {depth : Nat} (hdepth : fresh.length < depth)
    (hdivided : p.Divided fresh visiting) (id : NodeId) :
    (p.simulates visiting).rel (p.evaluate fresh id) (p.visit depth id) := by
  induction depth generalizing fresh visiting id with
  | zero => omega
  | succ depth ih =>
    intro c w h
    rw [visit_apply]
    cases hnode : p.node? id with
    | none =>
      -- What is no node has no answer in the cache; the machine may have kept one for it.
      obtain ⟨hc, hw⟩ := h.outside id hnode
      rw [evaluate_outside hc hnode]
      cases hlookup : w.answers.lookup id with
      | some known => exact ⟨w, by rw [hw known hlookup], h⟩
      | none =>
        have hid : id ∉ w.visiting := by
          intro hmem
          obtain ⟨n, hn⟩ := hdivided.nodes id (h.visiting ▸ hmem)
          exact ne_of_node? hn hnode rfl
        refine ⟨_, ?_, h.outside_kept hnode⟩
        dsimp only
        rw [if_neg hid, rules, hnode]
        simp [Program.leave, pure, StateT.pure]
    | some n =>
      rw [h.inside id n hnode]
      cases hlookup : c.answers.lookup id with
      | some known =>
        rw [evaluate_known hlookup]
        exact ⟨w, rfl, h⟩
      | none =>
        by_cases hid : id ∈ fresh
        · have hless : (fresh.erase id).length < depth := by
            rw [List.length_erase_of_mem hid]
            have := List.length_pos_of_mem hid
            omega
          have hrules := (p.simulates (id :: visiting)).apparent (ih hless (hdivided.enter hnode)) p n
            _ _ (h.enter id)
          rw [evaluate_fresh hlookup hnode hid]
          generalize n.apparent p (p.evaluate (fresh.erase id)) { c with cut := false } = outcome
            at hrules ⊢
          obtain ⟨type, after⟩ := outcome
          obtain ⟨w', hw', h'⟩ := hrules
          have hid' : id ∉ w.visiting := by
            rw [h.visiting]
            exact (hdivided.fresh_iff id n hnode).mp hid
          refine ⟨leave id type w w', ?_, h.leave h' hnode type⟩
          dsimp only
          rw [if_neg hid', rules_of_node hnode, hw', Option.map_some]
        · have hmem : id ∈ w.visiting := by
            rw [h.visiting]
            exact not_not.mp fun hv => hid ((hdivided.fresh_iff id n hnode).mpr hv)
          rw [evaluate_cut hlookup hnode hid]
          exact ⟨_, if_pos hmem, h.visiting, rfl, h.inside, h.outside⟩

/-- **The cache cannot be noticed.** Whatever is asked, known or unknown, once or again, and in any
program, each answer is the one given to the question alone, which is the value of the walk without a
cache. The machine that marks the nodes it visits ends on every series of questions, with these answers
and no node marked, if its walks may be deeper than there are nodes. -/
theorem asking_transparent (p : Program) (questions : List NodeId) :
    p.askAll questions = questions.map (fun id => (p.ask id {}).1)
      ∧ (∀ id, (p.ask id {}).1 = p.apparentOf p.ids id)
      ∧ ∀ extra : Nat, ∃ walk : Apparent.Walk,
        questions.mapM (p.visit (p.nodes.size + 1 + extra)) {} = some (p.askAll questions, walk)
          ∧ walk.visiting = [] := by
  refine ⟨?_, p.ask_eq, fun extra => ?_⟩
  · rw [askAll_eq]
    exact List.map_congr_left fun id _ => (p.ask_eq id).symm
  · have hdepth : p.ids.length < p.nodes.size + 1 + extra := by
      rw [ids, List.length_map, List.length_range]
      omega
    have hstart : p.Mirrors [] {} {} :=
      ⟨rfl, rfl, fun _ _ _ => rfl, fun _ _ => ⟨rfl, fun _ h => by cases h⟩⟩
    obtain ⟨walk, hrun, hmirrors⟩ := (p.simulates []).mapM
      (visit_simulates hdepth (.start p)) questions {} {} hstart
    exact ⟨walk, hrun, hmirrors.visiting⟩

end Program

end LayoutInference
