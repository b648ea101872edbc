import Mathlib
import LayoutInference.Inference.Resolution
import LayoutInference.Proofs.Collection

/-!
# Winners

Winner, allocation mark and conflicts of a variable are decided by its candidates, its added
properties and its marks alone: `Variable.verdict`. Picking winners again therefore changes nothing
while the evidence stays the same, whatever was registered in between: `Variable.Settled`. Candidates
that do not fit the marks do not count: `Variable.winner_verdict_fits`.
-/

namespace LayoutInference

/-- A layout is the same as itself. -/
theorem Layout.same_refl (l : Layout) : l.same l = true := by
  cases l <;> simp [Layout.same]

namespace Variable

/-- What is decided about a variable. -/
structure Verdict where
  winner : Layout
  alloc : Bool
  conflicts : List Layout

/-- What is decided when the candidates that count are `kept`. -/
def judge (v : Variable) (kept : List Layout) (registry : Registry) : Verdict × Registry :=
  match kept with
  | [] => (⟨.pointer, false, []⟩, registry)
  | [.record id] =>
    let (extended, registry) := v.extendRecord id registry
    (⟨.record extended, v.objectLiteral, []⟩, registry)
  | [winner] => (⟨winner, winner.requiresAllocation, []⟩, registry)
  | conflicts => (⟨.universal, true, conflicts⟩, registry)

/-- What the evidence about a variable decides. -/
def verdict (v : Variable) (registry : Registry) : Verdict × Registry :=
  v.judge (v.survivors registry).1 (v.survivors registry).2

/-- The variable with a verdict on it. -/
def decided (v : Variable) (d : Verdict) : Variable :=
  { v with winner := d.winner, alloc := d.alloc, conflicts := d.conflicts }

/-- Picking a winner puts the verdict on the variable, and reports whether the winner is another one. -/
theorem collapse_eq (v : Variable) (r : Registry) :
    v.collapse r = ((v.decided (v.verdict r).1, !v.winner.same (v.verdict r).1.winner),
      (v.verdict r).2) := by
  unfold collapse verdict
  rcases v.survivors r with ⟨_ | ⟨l, _ | _⟩, r'⟩
  · rfl
  · cases l <;> rfl
  · cases l <;> rfl

/-- A verdict does not depend on earlier ones. -/
theorem verdict_decided (v : Variable) (d : Verdict) (r : Registry) :
    (v.decided d).verdict r = v.verdict r := rfl

/-- Of two verdicts the last one counts. -/
theorem decided_decided (v : Variable) (d d' : Verdict) :
    (v.decided d).decided d' = v.decided d' := rfl

/-- Going over a known candidate keeps known ones, and the same when it is done again. -/
theorem keepCandidate_runs {r : Registry} (hr : r.WellFormed) (v : Variable) {kept : List Layout}
    (hkept : ∀ l ∈ kept, r.Knows l) {c : Layout} (hc : r.Knows c) :
    Runs True (fun kept' r' => ∀ l ∈ kept', r'.Knows l) (fun r => v.keepCandidate (kept, r) c) r := by
  have happend {r : Registry} {c : Layout} (hkept : ∀ l ∈ kept, r.Knows l) (hc : r.Knows c) :
      ∀ l ∈ appendDistinct kept c, r.Knows l := by
    intro l hl
    rcases mem_appendDistinct hl with hl | rfl
    · exact hkept l hl
    · exact hc
  by_cases hdrop : (c.isFallback || (v.dictionary && c.isRecord)) = true
  · simp only [keepCandidate, if_pos hdrop]
    exact .pure hr hkept
  · simp only [keepCandidate, if_neg hdrop]
    split
    · refine (Registry.dynamicArray_runs hr (Registry.Knows.elem hc) True).bind
        (f := fun array => pure (appendDistinct kept array)) ?_
      intro array r' hr' hle harray
      exact .pure hr' (happend (fun l hl => (hkept l hl).mono hle) harray)
    · exact .pure hr (happend hkept hc)

/-- The candidates that survive are known, and the same when asked for again. -/
theorem survivors_runs {r : Registry} (hr : r.WellFormed) {v : Variable} (hv : v.Known r) :
    Runs True (fun kept r' => ∀ l ∈ kept, r'.Knows l) v.survivors r := by
  have hfold (cs kept : List Layout) {r : Registry} (hr : r.WellFormed)
      (hkept : ∀ l ∈ kept, r.Knows l) (hcs : ∀ c ∈ cs, r.Knows c) :
      Runs True (fun kept' r' => ∀ l ∈ kept', r'.Knows l)
        (fun r => cs.foldl v.keepCandidate (kept, r)) r := by
    induction cs generalizing kept r with
    | nil => exact .pure hr hkept
    | cons c cs ih =>
      obtain ⟨hc, hcs⟩ := List.forall_mem_cons.mp hcs
      refine (keepCandidate_runs hr v hkept hc).bind
        (f := fun kept' r => cs.foldl v.keepCandidate (kept', r)) ?_
      intro kept' r' hr' hle hkept'
      exact ih kept' hr' hkept' fun c hc => (hcs c hc).mono hle
  exact hfold v.candidates [] hr (by simp) hv.candidates

/-- Extending a record by the properties of a variable gives a registered record, and the same one again.
-/
theorem extendRecord_runs {r : Registry} (hr : r.WellFormed) {v : Variable} (hv : v.Known r)
    {id : RecordId} (hid : id ∈ r.ids) :
    Runs True (fun id r' => id ∈ r'.ids) (v.extendRecord id) r := by
  have hadded : ∀ f ∈ (v.added.filter fun a => !a.self && a.layout ≠ .missing).map
      (fun a => Field.mk a.name a.layout), r.Knows f.layout := by
    intro f hf
    obtain ⟨a, ha, rfl⟩ := List.mem_map.mp hf
    exact hv.added a (List.mem_of_mem_filter ha)
  refine Runs.read (g := fun r : Registry => r.hint id) (k := fun hint (r : Registry) => r.extend id
    (if hint = "" then v.name else hint) _ _) (Registry.extend_runs hr hid hadded True) ?_
  exact fun _ r' hle => hle.hint id hid

/-- The winner of a judgement on known candidates is known, and the same when judged again. -/
theorem judge_runs {r : Registry} (hr : r.WellFormed) {v : Variable} (hv : v.Known r)
    {kept : List Layout} (hkept : ∀ l ∈ kept, r.Knows l) :
    Runs True (fun d r' => r'.Knows d.winner) (v.judge kept) r := by
  match kept with
  | [] => exact .pure hr (Registry.knows_scalar r _)
  | [.record id] =>
    have hid : id ∈ r.ids := (Registry.knows_record r id).mp (hkept _ (List.mem_singleton_self _))
    exact (extendRecord_runs hr hv hid).map (fun id => Verdict.mk (.record id) v.objectLiteral [])
      (R := fun d r' => r'.Knows d.winner) fun id r' hid => (Registry.knows_record r' id).mpr hid
  | [.missing] | [.scalar _] | [.fixed _ _] | [.dynamic _] | [.dict _] =>
    exact .pure hr (hkept _ (List.mem_singleton_self _))
  | l :: _ :: _ => cases l <;> exact .pure hr (Registry.knows_scalar r _)

/-- The winner of a verdict is known, and the same when asked for again. -/
theorem verdict_runs {r : Registry} (hr : r.WellFormed) {v : Variable} (hv : v.Known r) :
    Runs True (fun d r' => r'.Knows d.winner) v.verdict r := by
  refine (survivors_runs hr hv).bind (f := v.judge) ?_
  intro kept r' hr' hle hkept
  exact judge_runs hr' (hv.mono hle) hkept

/-! ## Settled variables -/

/-- Picking the winner of `v` changes nothing, now and later. -/
def Settled (v : Variable) (r : Registry) : Prop :=
  ∀ r' : Registry, r'.WellFormed → r ≤ r' → v.collapse r' = ((v, false), r')

/-- A settled variable stays settled as the registry grows. -/
theorem Settled.mono {v : Variable} {r r' : Registry} (h : v.Settled r) (hle : r ≤ r') :
    v.Settled r' :=
  fun r'' hr'' hle' => h r'' hr'' (hle.trans hle')

/-- The variable `v'` has the evidence of `v`; verdicts may differ. -/
def SameEvidence (v v' : Variable) : Prop := ∃ d, v' = v.decided d

/-- What picking a winner does. -/
theorem collapse_spec {r : Registry} (hr : r.WellFormed) {v : Variable} (hv : v.Known r) :
    (v.collapse r).2.WellFormed ∧ r ≤ (v.collapse r).2
      ∧ v.SameEvidence (v.collapse r).1.1
      ∧ (v.collapse r).1.1.Known (v.collapse r).2
      ∧ (v.collapse r).1.1.Settled (v.collapse r).2 := by
  have hruns := verdict_runs hr hv
  have hmono := hv.mono hruns.grows
  rw [collapse_eq]
  refine ⟨hruns.sound, hruns.grows, ⟨_, rfl⟩, ⟨hmono.candidates, hmono.added, hruns.holds⟩, ?_⟩
  intro r' hr' hle
  -- The new verdict is on the same evidence, and the earlier winner has no say in it.
  have hagain : v.verdict r' = ((v.verdict r).1, r') := hruns.repeats trivial r' hr' hle
  rw [collapse_eq, verdict_decided, hagain, decided_decided]
  show ((_, !(v.verdict r).1.winner.same (v.verdict r).1.winner), r') = _
  rw [Layout.same_refl]
  rfl

/-- Picking all winners leaves the evidence and settles every variable. -/
theorem collapseAll_spec {r : Registry} (hr : r.WellFormed) {vars : List Variable}
    (hvars : ∀ v ∈ vars, v.Known r) :
    (collapseAll r vars).2.WellFormed ∧ r ≤ (collapseAll r vars).2
      ∧ List.Forall₂ SameEvidence vars (collapseAll r vars).1.1
      ∧ (∀ v ∈ (collapseAll r vars).1.1, v.Known (collapseAll r vars).2)
      ∧ ∀ v ∈ (collapseAll r vars).1.1, v.Settled (collapseAll r vars).2 := by
  induction vars generalizing r with
  | nil => exact ⟨hr, le_refl r, .nil, by simp [collapseAll], by simp [collapseAll]⟩
  | cons v vs ih =>
    obtain ⟨hv, hvs⟩ := List.forall_mem_cons.mp hvars
    obtain ⟨hr', hle, hsame, hknown, hsettled⟩ := collapse_spec hr hv
    obtain ⟨hr'', hle', hsames, hknowns, hsettleds⟩ := ih hr' fun v hv => (hvs v hv).mono hle
    refine ⟨hr'', hle.trans hle', .cons hsame hsames, ?_, ?_⟩
    · exact List.forall_mem_cons.mpr ⟨hknown.mono hle', hknowns⟩
    · exact List.forall_mem_cons.mpr ⟨hsettled.mono hle', hsettleds⟩

/-- Picking winners that are settled changes nothing. -/
theorem collapseAll_of_settled {r : Registry} (hr : r.WellFormed) {vars : List Variable}
    (hvars : ∀ v ∈ vars, v.Settled r) : collapseAll r vars = ((vars, false), r) := by
  induction vars with
  | nil => rfl
  | cons v vs ih =>
    obtain ⟨hv, hvs⟩ := List.forall_mem_cons.mp hvars
    rw [collapseAll, hv r hr (le_refl r)]
    simp only
    rw [ih hvs]
    rfl

end Variable

/-! ## Marks -/

/-- What use tells about a variable. -/
inductive Mark where
  /-- Elements are pushed or popped. -/
  | growing
  /-- Elements are written under computed keys. -/
  | dictionary
deriving DecidableEq, Repr

/-- Whether a layout does not fit a mark: an array of fixed length does not grow, and a record is no
dictionary. -/
def Mark.excludes : Mark → Layout → Bool
  | .growing, .fixed _ _ => true
  | .dictionary, .record _ => true
  | _, _ => false

namespace Variable

/-- Whether the variable has a mark. -/
def marked (v : Variable) : Mark → Bool
  | .growing => v.growing
  | .dictionary => v.dictionary

/-- A growing array is asked for, and one is answered. -/
theorem excludes_dynamicArray (m : Mark) (r : Registry) (elem : Layout) :
    m.excludes (r.dynamicArray elem).1 = false := by
  have hkind := r.container?_intern (.dynamic elem)
  rw [Registry.dynamicArray]
  generalize (r.intern (.dynamic elem)).1 = array at hkind ⊢
  cases array with
  | dynamic => cases m <;> rfl
  | _ => cases hkind

/-- Going over a candidate keeps none that a mark excludes. -/
theorem keepCandidate_fits {v : Variable} {m : Mark} (hm : v.marked m = true)
    {kept : List Layout × Registry} (hkept : ∀ l ∈ kept.1, m.excludes l = false) (c : Layout) :
    ∀ l ∈ (v.keepCandidate kept c).1, m.excludes l = false := by
  have happend {c : Layout} (hc : m.excludes c = false) :
      ∀ l ∈ appendDistinct kept.1 c, m.excludes l = false := by
    intro l hl
    rcases mem_appendDistinct hl with hl | rfl
    · exact hkept l hl
    · exact hc
  unfold keepCandidate
  split
  · exact hkept
  · next hcounts =>
    split
    · exact happend (excludes_dynamicArray m kept.2 _)
    · next c _ _ hother =>
      -- Records do not pass the test for dictionaries, nor arrays of fixed length that for growth.
      refine happend ?_
      cases m with
      | growing =>
        cases c with
        | fixed elem capacity => exact absurd rfl (hother elem capacity hm)
        | _ => rfl
      | dictionary =>
        have hdictionary : v.dictionary = true := hm
        cases c with
        | record id => simp [hdictionary, Layout.isRecord] at hcounts
        | _ => rfl

/-- The candidates that count fit the marks. -/
theorem survivors_fit {v : Variable} {m : Mark} (hm : v.marked m = true) (r : Registry) :
    ∀ l ∈ (v.survivors r).1, m.excludes l = false := by
  have hfold (cs : List Layout) {kept : List Layout × Registry}
      (hkept : ∀ l ∈ kept.1, m.excludes l = false) :
      ∀ l ∈ (cs.foldl v.keepCandidate kept).1, m.excludes l = false := by
    induction cs generalizing kept with
    | nil => exact hkept
    | cons c cs ih => exact ih (keepCandidate_fits hm hkept c)
  exact hfold v.candidates (by simp)

/-- What the evidence decides fits the marks. -/
theorem winner_verdict_fits {v : Variable} {m : Mark} (hm : v.marked m = true) (r : Registry) :
    m.excludes (v.verdict r).1.winner = false := by
  have hsurvivors := survivors_fit hm r
  rw [verdict]
  generalize v.survivors r = outcome at hsurvivors ⊢
  obtain ⟨_ | ⟨l, _ | ⟨l', rest⟩⟩, r'⟩ := outcome
  · cases m <;> rfl
  · have hl := hsurvivors l (List.mem_singleton_self l)
    cases l with
    | record id =>
      -- A record wins as its extension, and there is no mark that excludes only one of the two.
      cases m with
      | growing => rfl
      | dictionary => cases hl
    | _ => exact hl
  · cases l <;> cases m <;> rfl

end Variable

end LayoutInference
