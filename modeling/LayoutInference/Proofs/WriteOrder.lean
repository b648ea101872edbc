import Mathlib
import LayoutInference.Proofs.LayoutMerging
import LayoutInference.Proofs.PropertyWrites

/-!
# The order of property writes

A variable keeps for each property a layout or the mark that it holds its owner, and merges what is
written into that. This module says when the order of the writes does not matter: which writes leave
the same behind in every order (`Standing.confluent_iff`), one property at a time, since a write to one
property changes nothing about the others (`Variable.standing_putAll`).

Two things can go wrong. A record written before the owner conflicts with it, while a property that
holds its owner takes any record. And layouts that conflict with each other may both give way to a
third one, which hides the conflict if it comes first: two arrays of unknown elements conflict, but not
after an array of known ones.
-/

namespace LayoutInference

/-! ## Writes to a property -/

/-- Two different members of a list can be put in front. -/
theorem exists_perm_pair {α : Type} [DecidableEq α] {ls : List α} {x y : α} (hx : x ∈ ls)
    (hy : y ∈ ls) (hne : x ≠ y) : ∃ rest, (x :: y :: rest).Perm ls := by
  have hy : y ∈ ls.erase x := (List.mem_erase_of_ne hne.symm).mpr hy
  exact ⟨(ls.erase x).erase y,
    ((List.perm_cons_erase hy).symm.cons x).trans (List.perm_cons_erase hx).symm⟩

/-- A write to a property: a known layout, or its owner. -/
inductive Write where
  | layout (l : Layout)
  | owner
deriving DecidableEq, Repr

/-- The layouts that a list of writes brings. -/
def Write.layouts (ws : List Write) : List Layout :=
  ws.filterMap fun
    | .layout l => some l
    | .owner => none

/-- What is recorded about a property of a variable. -/
inductive Standing where
  /-- The property was never met. -/
  | blank
  /-- The property holds its owner. -/
  | owner
  /-- The property has a layout, `missing` if only its place is fixed. -/
  | has (l : Layout)
deriving DecidableEq, Repr

namespace Write

/-- A layout is among those that writes bring if it is written. -/
@[simp] theorem mem_layouts {ws : List Write} {l : Layout} : l ∈ layouts ws ↔ .layout l ∈ ws := by
  rw [layouts, List.mem_filterMap]
  constructor
  · rintro ⟨_ | _, hmem, heq⟩
    · exact Option.some.inj heq ▸ hmem
    · cases heq
  · exact fun hmem => ⟨.layout l, hmem, rfl⟩

/-- The layouts that writes bring are permuted with the writes. -/
theorem layouts_perm {ws ws' : List Write} (h : ws.Perm ws') : (layouts ws).Perm (layouts ws') :=
  h.filterMap _

/-- Writes without the owner are the writes of their layouts. -/
theorem map_layouts {ws : List Write} (h : .owner ∉ ws) : (layouts ws).map .layout = ws := by
  induction ws with
  | nil => rfl
  | cons w ws ih =>
    rw [List.mem_cons, not_or] at h
    cases w with
    | layout l => exact congrArg (.layout l :: ·) (ih h.2)
    | owner => exact absurd rfl h.1

end Write

namespace Standing

/-- What is recorded about a property after a write. -/
def put : Standing → Write → Standing
  | .blank, .layout l => .has l
  | .blank, .owner => .owner
  | .owner, .layout l => if l.isRecord then .owner else .has .universal
  | .owner, .owner => .owner
  | .has m, .layout l => .has (m.merge l)
  | .has m, .owner => if m = .missing then .owner else .has .universal

/-- What is recorded about a property after a list of writes. -/
def putAll (s : Standing) (ws : List Write) : Standing := ws.foldl put s

/-- Both properties hold their owner, or have layouts with the same key, or were never met. -/
def Agrees : Standing → Standing → Prop
  | .blank, .blank => True
  | .owner, .owner => True
  | .has l, .has l' => l.same l' = true
  | _, _ => False

/-- A standing agrees with itself. -/
theorem Agrees.refl (s : Standing) : s.Agrees s := by
  cases s with
  | blank | owner => trivial
  | has l => exact Layout.same_refl l

/-- The first of a list of writes is made first. -/
theorem putAll_cons (s : Standing) (w : Write) (ws : List Write) :
    s.putAll (w :: ws) = (s.put w).putAll ws := rfl

/-- Lists of writes are made one after the other. -/
theorem putAll_append (s : Standing) (ws ws' : List Write) :
    s.putAll (ws ++ ws') = (s.putAll ws).putAll ws' := List.foldl_append

/-- Layouts written over a layout are merged. -/
theorem has_putAll (u : Layout) (ls : List Layout) :
    (has u).putAll (ls.map .layout) = .has (u.mergeAll ls) := by
  induction ls generalizing u with
  | nil => rfl
  | cons l ls ih => exact ih (u.merge l)

/-- A property that was never met starts from the first layout written. -/
theorem blank_putAll (u : Layout) (ls : List Layout) :
    blank.putAll ((u :: ls).map .layout) = .has (u.mergeAll ls) := has_putAll u ls

/-- A universal property stays universal. -/
theorem universal_putAll (ws : List Write) : (has .universal).putAll ws = .has .universal := by
  induction ws with
  | nil => rfl
  | cons w ws ih =>
    cases w with
    | layout l => rw [putAll_cons, put, Layout.universal_merge, ih]
    | owner => exact ih

/-! ## Orders of layouts -/

/-- The layouts that a property can start from when the given ones are written to it. -/
def starts : Standing → List Layout → List Layout
  | .blank, ls => ls
  | .owner, _ => []
  | .has u, _ => [u]

/-- The writes conflict in every order, or in none. -/
def Merges (s : Standing) (ls : List Layout) : Prop :=
  ∀ u ∈ s.starts ls, ∀ t, u.RestsAt ls t → ∀ u' ∈ s.starts ls, u'.Nests ls

section Orders

variable {s : Standing} {u t : Layout} {ls ls' : List Layout}

/-- Where a property can start from does not depend on the order of the writes. -/
theorem starts_perm (hperm : ls.Perm ls') : (s.starts ls).Perm (s.starts ls') := by
  cases s with
  | blank => exact hperm
  | owner | has => exact .rfl

/-- What all writes give way to from one start is the top of all starts and writes. -/
theorem top_of_start (hu : u ∈ s.starts ls) (h : Layout.Top (u :: ls) t) :
    Layout.Top (s.starts ls ++ ls) t := by
  cases s with
  | owner => cases hu
  | has u' => exact List.mem_singleton.mp hu ▸ h
  | blank =>
    have hmem (x : Layout) : x ∈ ls ++ ls ↔ x ∈ u :: ls := by
      rw [List.mem_append, or_self, List.mem_cons]
      exact ⟨.inr, fun hx => hx.elim (· ▸ hu) id⟩
    exact ⟨(hmem t).mpr h.1, fun x hx => h.2 x ((hmem x).mp hx)⟩

/-- A run of layouts starts from one of them or from what was there. -/
theorem putAll_layouts_cases (hs : s ≠ .owner) (ls : List Layout) :
    s = .blank ∧ ls = []
      ∨ ∃ u ∈ s.starts ls, s.putAll (ls.map .layout) = .has (u.mergeAll ls) := by
  cases s with
  | owner => exact absurd rfl hs
  | has u => exact .inr ⟨u, List.mem_singleton_self u, has_putAll u ls⟩
  | blank =>
    cases ls with
    | nil => exact .inl ⟨rfl, rfl⟩
    | cons u ls =>
      refine .inr ⟨u, List.mem_cons_self, ?_⟩
      rw [blank_putAll, Layout.mergeAll_cons, Layout.merge_of_yieldsTo (.refl u)]

/-- Every layout at which the property can rest is reached in some order. -/
theorem exists_perm_of_restsAt (hu : u ∈ s.starts ls) (ht : u.RestsAt ls t) :
    ∃ one : List Layout, one.Perm ls ∧ s.putAll (one.map .layout) = .has t := by
  cases s with
  | owner => cases hu
  | has u' =>
    obtain rfl := List.mem_singleton.mp hu
    obtain ⟨one, hperm, hone⟩ := ht.exists_perm
    exact ⟨one, hperm, by rw [has_putAll, hone]⟩
  | blank =>
    obtain ⟨one, hperm, hone⟩ := ht.erase_start.exists_perm
    refine ⟨u :: one, (hperm.cons u).trans (List.perm_cons_erase hu).symm, ?_⟩
    rw [blank_putAll, hone]

/-- Writes that do not nest conflict in some order. -/
theorem exists_perm_universal (hu : u ∈ s.starts ls) (hnot : ¬ u.Nests ls) :
    ∃ other : List Layout, other.Perm ls ∧ s.putAll (other.map .layout) = .has .universal := by
  have hconflict {x y : Layout} (rest : List Layout) (hxy : ¬ x.Comparable y) :
      x.mergeAll (y :: rest) = .universal := by
    rw [Layout.mergeAll_cons, Layout.merge_of_not_comparable hxy, Layout.universal_mergeAll]
  have hne {x y : Layout} (hxy : ¬ x.Comparable y) : x ≠ y := by
    rintro rfl
    exact hxy (.inl (.refl x))
  obtain ⟨x, hx, hnot⟩ : ∃ x ∈ ls, ¬ (u.Comparable x
      ∧ (refines u x = true → ∀ y ∈ ls, x.Comparable y)) := by
    simpa [Layout.Nests] using hnot
  rcases not_and_or.mp hnot with hux | hlater
  · -- The write of `x` conflicts with what the property starts from.
    cases s with
    | owner => cases hu
    | has u' =>
      obtain rfl := List.mem_singleton.mp hu
      exact ⟨x :: ls.erase x, (List.perm_cons_erase hx).symm, by rw [has_putAll, hconflict _ hux]⟩
    | blank =>
      obtain ⟨rest, hperm⟩ := exists_perm_pair hu hx (hne hux)
      exact ⟨u :: x :: rest, hperm, by rw [blank_putAll, hconflict _ hux]⟩
  · -- The write of `x` is taken, and one after it conflicts.
    obtain ⟨hux, hlater⟩ := Classical.not_imp.mp hlater
    obtain ⟨y, hy, hxy⟩ : ∃ y ∈ ls, ¬ x.Comparable y := by simpa using hlater
    obtain ⟨rest, hperm⟩ := exists_perm_pair hx hy (hne hxy)
    refine ⟨x :: y :: rest, hperm, ?_⟩
    cases s with
    | owner => cases hu
    | has u' =>
      obtain rfl := List.mem_singleton.mp hu
      rw [has_putAll, Layout.mergeAll_cons, Layout.merge_of_refines hux, hconflict _ hxy]
    | blank => rw [blank_putAll, hconflict _ hxy]

/-- Layouts that conflict in every order or in none can be written in any order. -/
theorem Merges.agrees (hs : s ≠ .owner) (hmerges : s.Merges ls) {one other : List Layout}
    (hone : one.Perm ls) (hother : other.Perm ls) :
    (s.putAll (one.map .layout)).Agrees (s.putAll (other.map .layout)) := by
  rcases putAll_layouts_cases hs one with ⟨rfl, rfl⟩ | ⟨u, hu, heq⟩
  · rw [List.perm_nil.mp (hother.trans hone.symm)]
    exact .refl _
  rcases putAll_layouts_cases hs other with ⟨rfl, rfl⟩ | ⟨u', hu', heq'⟩
  · rw [List.perm_nil.mp (hone.trans hother.symm)]
    exact .refl _
  rw [heq, heq']
  by_cases hrests : ∃ v ∈ s.starts ls, ∃ t, v.RestsAt ls t
  -- If the writes come to rest in one order, they nest from every start and end in their top.
  · obtain ⟨v, hv, t, ht⟩ := hrests
    have htop {v' : Layout} {run : List Layout} (hrun : run.Perm ls) (hv' : v' ∈ s.starts run) :
        Layout.Top (s.starts run ++ run) (v'.mergeAll run) :=
      have hnests := hmerges v hv t ht v' ((starts_perm hrun).mem_iff.mp hv')
      top_of_start hv' (hnests.mono hrun.subset).top
    have hperm := hone.trans hother.symm
    exact ((htop hone hu).perm ((starts_perm hperm).append hperm)).same (htop hother hu')
  -- If they never come to rest, they conflict in every order.
  · have huniversal {v : Layout} {run : List Layout} (hrun : run.Perm ls)
        (hv : v ∈ s.starts run) : v.mergeAll run = .universal :=
      (v.mergeAll_cases run).resolve_right fun ht =>
        hrests ⟨v, (starts_perm hrun).mem_iff.mp hv, _, ht.perm hrun⟩
    rw [huniversal hone hu, huniversal hother hu']
    exact .refl _

/-- Layouts that can be written in any order conflict in every order or in none. -/
theorem Merges.of_agrees (hs : s ≠ .owner)
    (hagree : ∀ one other : List Layout, one.Perm ls → other.Perm ls →
      (s.putAll (one.map .layout)).Agrees (s.putAll (other.map .layout))) : s.Merges ls := by
  intro u hu t ht u' hu'
  by_contra hnot
  obtain ⟨one, hone, heq⟩ := exists_perm_of_restsAt hu ht
  obtain ⟨other, hother, heq'⟩ := exists_perm_universal hu' hnot
  have hsame := hagree one other hone hother
  rw [heq, heq'] at hsame
  -- Where both are universal, nothing but the universal value was written, and nothing conflicts.
  obtain ⟨hstart, hwrites⟩ := ht.same_universal hsame
  refine hnot (Layout.Nests.of_same ?_ hwrites)
  cases s with
  | owner => exact absurd rfl hs
  | has v => rwa [List.mem_singleton.mp hu', ← List.mem_singleton.mp hu]
  | blank => exact hwrites u' hu'

end Orders

/-! ## Writes of the owner -/

/-- Nothing but a place is recorded about the property. -/
def Vacant (s : Standing) : Prop := s = .blank ∨ s = .has .missing

section Owner

variable {s : Standing} {ws : List Write}

/-- A property with a layout becomes universal when its owner is written to it. -/
theorem has_putAll_owner {m : Layout} (hm : m ≠ .missing) (hmem : .owner ∈ ws) :
    (has m).putAll ws = .has .universal := by
  induction ws generalizing m with
  | nil => cases hmem
  | cons w ws ih =>
    cases w with
    | owner => rw [putAll_cons, put, if_neg hm, universal_putAll]
    | layout l => exact ih (Layout.merge_ne_missing hm l) (by simpa using hmem)

/-- A property that holds its owner becomes universal when anything but a record is written to it. -/
theorem owner_putAll_of_mem {l : Layout} (hmem : .layout l ∈ ws) (hl : l.isRecord = false) :
    owner.putAll ws = .has .universal := by
  induction ws with
  | nil => cases hmem
  | cons w ws ih =>
    cases w with
    | owner => exact ih (by simpa using hmem)
    | layout l' =>
      rw [putAll_cons, put]
      split
      · next hrecord =>
        refine ih ((List.mem_cons.mp hmem).resolve_left ?_)
        rintro ⟨⟩
        rw [hl] at hrecord
        cases hrecord
      · exact universal_putAll ws

/-- A property that holds its owner keeps doing so while records are written to it. -/
theorem owner_putAll_of_records (h : ∀ l, .layout l ∈ ws → l.isRecord = true) :
    owner.putAll ws = .owner := by
  induction ws with
  | nil => rfl
  | cons w ws ih =>
    have ih := ih fun l hl => h l (List.mem_cons_of_mem w hl)
    cases w with
    | owner => exact ih
    | layout l => rw [putAll_cons, put, if_pos (h l List.mem_cons_self), ih]

/-- Writes to a property that holds its owner can be made in any order. -/
theorem owner_putAll_perm {ws' : List Write} (hperm : ws.Perm ws') :
    owner.putAll ws = owner.putAll ws' := by
  by_cases h : ∃ l, .layout l ∈ ws ∧ l.isRecord = false
  · obtain ⟨l, hmem, hl⟩ := h
    rw [owner_putAll_of_mem hmem hl, owner_putAll_of_mem (hperm.mem_iff.mp hmem) hl]
  · have hrecords : ∀ l, .layout l ∈ ws → l.isRecord = true := by simpa using h
    rw [owner_putAll_of_records hrecords,
      owner_putAll_of_records fun l hl => hrecords l (hperm.mem_iff.mpr hl)]

/-- A vacant property to which its owner is written holds its owner. -/
theorem Vacant.put_owner (hs : s.Vacant) : s.put .owner = .owner := by
  rcases hs with rfl | rfl <;> rfl

/-- A write of nothing leaves a property vacant. -/
theorem Vacant.put_missing (hs : s.Vacant) : (s.put (.layout .missing)).Vacant := by
  rcases hs with rfl | rfl <;> exact .inr rfl

/-- A layout written to a vacant property stays. -/
theorem Vacant.put_layout (hs : s.Vacant) {l : Layout} (hl : l ≠ .missing) :
    ∃ m, m ≠ .missing ∧ s.put (.layout l) = .has m := by
  rcases hs with rfl | rfl
  · exact ⟨l, hl, rfl⟩
  · refine ⟨Layout.missing.merge l, ?_, rfl⟩
    rcases Layout.merge_cases .missing l with ⟨-, h⟩ | ⟨h, -⟩ | ⟨-, h⟩
    · rwa [h]
    · rcases h with h | h
      · cases (refines_iff.mp h).1
      · cases l <;> first | exact absurd rfl hl | cases h
    · rw [h]
      simp

/-- A vacant property to which only its owner is written holds its owner. -/
theorem Vacant.putAll_owners (hs : s.Vacant) (howner : .owner ∈ ws) (h : ∀ l, .layout l ∉ ws) :
    s.putAll ws = .owner := by
  cases ws with
  | nil => cases howner
  | cons w ws =>
    cases w with
    | layout l => exact absurd List.mem_cons_self (h l)
    | owner =>
      rw [putAll_cons, hs.put_owner]
      exact owner_putAll_of_records fun l hl => absurd (List.mem_cons_of_mem _ hl) (h l)

/-- With its owner and something that is no record written to it, a property becomes universal. -/
theorem Vacant.putAll_of_mem (hs : s.Vacant) (howner : .owner ∈ ws) {l : Layout}
    (hmem : .layout l ∈ ws) (hrecord : l.isRecord = false) (hmissing : l ≠ .missing) :
    s.putAll ws = .has .universal := by
  induction ws generalizing s with
  | nil => cases howner
  | cons w ws ih =>
    rw [putAll_cons]
    cases w with
    | owner =>
      rw [hs.put_owner]
      exact owner_putAll_of_mem (by simpa using hmem) hrecord
    | layout l' =>
      have hlater : .owner ∈ ws := by simpa using howner
      by_cases hl' : l' = .missing
      · subst hl'
        exact ih hs.put_missing hlater (by simpa [hmissing] using hmem)
      · obtain ⟨m, hm, heq⟩ := hs.put_layout hl'
        rw [heq, has_putAll_owner hm hlater]

/-- Writes of nothing leave a property vacant. -/
theorem Vacant.putAll_missing (hs : s.Vacant) (h : ∀ w ∈ ws, w = .layout .missing) :
    (s.putAll ws).Vacant := by
  induction ws generalizing s with
  | nil => exact hs
  | cons w ws ih =>
    obtain ⟨rfl, hws⟩ := List.forall_mem_cons.mp h
    exact ih hs.put_missing hws

/-- In some order a property still holds its owner after records are written to it. -/
theorem Vacant.exists_perm_owner (hs : s.Vacant) (howner : .owner ∈ ws)
    (hrecords : ∀ l, .layout l ∈ ws → l.isRecord = false → l = .missing) :
    ∃ one : List Write, one.Perm ws ∧ s.putAll one = .owner := by
  -- First what only fixes the place, then the owner, then the records.
  have hlate : .owner ∈ ws.filter (· ≠ .layout .missing) := List.mem_filter.mpr ⟨howner, rfl⟩
  refine ⟨ws.filter (· = .layout .missing)
    ++ .owner :: (ws.filter (· ≠ .layout .missing)).erase .owner, ?_, ?_⟩
  · refine ((List.perm_cons_erase hlate).symm.append_left _).trans ?_
    simpa using List.filter_append_perm (fun w => decide (w = .layout .missing)) ws
  · have hplaces : (s.putAll (ws.filter (· = .layout .missing))).Vacant :=
      hs.putAll_missing fun w hw => of_decide_eq_true (List.mem_filter.mp hw).2
    rw [putAll_append, putAll_cons, hplaces.put_owner]
    refine owner_putAll_of_records fun l hl => ?_
    obtain ⟨hmem, hne⟩ := List.mem_filter.mp (List.mem_of_mem_erase hl)
    by_contra hrecord
    rw [Bool.not_eq_true] at hrecord
    rw [hrecords l hmem hrecord] at hne
    simp at hne

/-- In some order a property to which its owner and a layout are written becomes universal. -/
theorem Vacant.exists_perm_universal (hs : s.Vacant) (howner : .owner ∈ ws) {l : Layout}
    (hmem : .layout l ∈ ws) :
    ∃ other : List Write, other.Perm ws ∧ s.putAll other = .has .universal := by
  by_cases hl : l = .missing
  · obtain ⟨rest, hperm⟩ := exists_perm_pair howner hmem nofun
    refine ⟨_, hperm, ?_⟩
    rw [putAll_cons, hs.put_owner]
    exact owner_putAll_of_mem List.mem_cons_self (by rw [hl]; rfl)
  · obtain ⟨rest, hperm⟩ := exists_perm_pair hmem howner nofun
    obtain ⟨m, hm, heq⟩ := hs.put_layout hl
    refine ⟨_, hperm, ?_⟩
    rw [putAll_cons, heq, has_putAll_owner hm List.mem_cons_self]

end Owner

/-! ## Orders of writes -/

/-- When the order of writes to a property does not matter. Nothing is asked of a property that holds
its owner, and of one with a layout to which its owner is written. -/
structure Orderly (s : Standing) (ws : List Write) : Prop where
  /-- If the owner is written where no layout was known, it is the only thing written, or something
  that is no record is written too. -/
  owned : s.Vacant → .owner ∈ ws → Write.layouts ws ≠ [] →
    ∃ l ∈ Write.layouts ws, l.isRecord = false ∧ l ≠ .missing
  /-- If the owner is not written, the layouts conflict in every order, or in none. -/
  merged : .owner ∉ ws → s.Merges (Write.layouts ws)

/-- All orders of a list of writes record the same. -/
def Confluent (s : Standing) (ws : List Write) : Prop :=
  ∀ one other : List Write, one.Perm ws → other.Perm ws → (s.putAll one).Agrees (s.putAll other)

section Confluent

variable {s : Standing} {ws : List Write}

/-- Writes that record the same in every order are confluent. -/
theorem Confluent.of_const (out : Standing)
    (h : ∀ one : List Write, one.Perm ws → s.putAll one = out) : s.Confluent ws := by
  intro one other hone hother
  rw [h one hone, h other hother]
  exact .refl out

/-- Without the owner, a list of writes is one of layouts. -/
theorem confluent_iff_merges (hs : s ≠ .owner) (howner : .owner ∉ ws) :
    s.Confluent ws ↔ s.Merges (Write.layouts ws) := by
  constructor
  · intro h
    refine .of_agrees hs fun one other hone hother => ?_
    have hback {run : List Layout} (hrun : run.Perm (Write.layouts ws)) :
        (run.map Write.layout).Perm ws :=
      (hrun.map _).trans (.of_eq (Write.map_layouts howner))
    exact h _ _ (hback hone) (hback hother)
  · intro h one other hone hother
    have hagree := h.agrees hs (Write.layouts_perm hone) (Write.layouts_perm hother)
    rwa [Write.map_layouts (hone.mem_iff.not.mpr howner),
      Write.map_layouts (hother.mem_iff.not.mpr howner)] at hagree

/-- Orderly writes are confluent. -/
theorem Orderly.confluent (h : s.Orderly ws) : s.Confluent ws := by
  by_cases howner : .owner ∈ ws
  -- Where no layout was known, the owner is alone or a write conflicts with it in every order.
  · by_cases hs : s.Vacant
    · by_cases hlayouts : Write.layouts ws = []
      · refine .of_const .owner fun one hone => hs.putAll_owners (hone.mem_iff.mpr howner) ?_
        intro l hl
        have hl := Write.mem_layouts.mpr (hone.mem_iff.mp hl)
        rw [hlayouts] at hl
        cases hl
      · obtain ⟨l, hmem, hrecord, hmissing⟩ := h.owned hs howner hlayouts
        refine .of_const (.has .universal) fun one hone => ?_
        exact hs.putAll_of_mem (hone.mem_iff.mpr howner)
          (hone.mem_iff.mpr (Write.mem_layouts.mp hmem)) hrecord hmissing
    · cases s with
      | blank => exact absurd (.inl rfl) hs
      | owner => exact .of_const (owner.putAll ws) fun one hone => owner_putAll_perm hone
      | has m =>
        have hm : m ≠ .missing := fun hm => hs (.inr (by rw [hm]))
        refine .of_const (.has .universal) fun one hone => ?_
        exact has_putAll_owner hm (hone.mem_iff.mpr howner)
  · by_cases hs : s = .owner
    · subst hs
      exact .of_const (owner.putAll ws) fun one hone => owner_putAll_perm hone
    · exact (confluent_iff_merges hs howner).mpr (h.merged howner)

/-- Confluent writes are orderly. -/
theorem Confluent.orderly (h : s.Confluent ws) : s.Orderly ws where
  owned hs howner hlayouts := by
    by_contra hnone
    obtain ⟨l, hl⟩ := List.exists_mem_of_ne_nil _ hlayouts
    have hrecords : ∀ l, .layout l ∈ ws → l.isRecord = false → l = .missing := by
      intro l hl hrecord
      by_contra hmissing
      exact hnone ⟨l, Write.mem_layouts.mpr hl, hrecord, hmissing⟩
    obtain ⟨one, hone, heq⟩ := hs.exists_perm_owner howner hrecords
    obtain ⟨other, hother, heq'⟩ := hs.exists_perm_universal howner (Write.mem_layouts.mp hl)
    have hagree := h one other hone hother
    rw [heq, heq'] at hagree
    exact hagree
  merged howner := by
    cases hs : s with
    | owner => exact fun u hu => absurd hu List.not_mem_nil
    | blank | has =>
      rw [← hs]
      exact (confluent_iff_merges (by rw [hs]; nofun) howner).mp h

/-- The order of writes does not matter exactly if they are orderly. -/
theorem confluent_iff : s.Confluent ws ↔ s.Orderly ws :=
  ⟨Confluent.orderly, Orderly.confluent⟩

end Confluent

end Standing

/-! ## Writes to a variable -/

namespace Added

/-- What is recorded about a property. -/
def standing (a : Added) : Standing := if a.self then .owner else .has a.layout

/-- A write of a layout to a recorded property is one to its standing. -/
theorem standing_write (a : Added) (l : Layout) :
    (a.write l).standing = a.standing.put (.layout l) := by
  unfold write standing
  split
  · next hself => cases l <;> simp [hself, Standing.put, Layout.isRecord]
  · next hself =>
    simp only [hself, Standing.put, Layout.merge]
    split_ifs <;> simp_all

/-- A write of the owner to a recorded property is one to its standing. -/
theorem standing_writeSelf (a : Added) : a.writeSelf.standing = a.standing.put .owner := by
  unfold writeSelf standing
  by_cases hself : a.self = true
  · simp [hself, Standing.put]
  · by_cases hlayout : a.layout = .missing <;> simp [hself, hlayout, Standing.put]

/-- What is recorded about the property of a name in a list. -/
def standingIn (added : List Added) (name : String) : Standing :=
  ((added.find? (·.name = name)).map standing).getD .blank

/-- The first property of a name in a list tells its standing. -/
theorem standingIn_cons (a : Added) (added : List Added) (name : String) :
    standingIn (a :: added) name = if a.name = name then a.standing else standingIn added name := by
  unfold standingIn
  by_cases hname : a.name = name <;> simp [hname]

/-- Changing one property changes what is recorded about it and about no other. -/
theorem standingIn_update {name : String} {change : Added → Added} {fresh : Added} {w : Write}
    (hname : ∀ a, (change a).name = a.name) (hchange : ∀ a, (change a).standing = a.standing.put w)
    (hfresh : fresh.name = name) (hblank : fresh.standing = Standing.blank.put w)
    (added : List Added) (other : String) :
    standingIn (update name change fresh added) other
      = if name = other then (standingIn added other).put w else standingIn added other := by
  induction added with
  | nil =>
    rw [update, standingIn_cons, hfresh, hblank]
    rfl
  | cons a added ih =>
    by_cases ha : a.name = name
    · rw [update, if_pos ha, standingIn_cons, standingIn_cons, hname, ha, hchange]
      split <;> rfl
    · rw [update, if_neg ha, standingIn_cons, standingIn_cons, ih]
      by_cases hother : name = other
      · subst hother
        simp [ha]
      · simp [hother]

end Added

/-- The writes of a list to one property. -/
def Write.into (name : String) (writes : List (String × Write)) : List Write :=
  (writes.filter (·.1 = name)).map (·.2)

/-- The writes to one property are permuted with all writes. -/
theorem Write.into_perm {writes writes' : List (String × Write)} (h : writes.Perm writes')
    (name : String) : (Write.into name writes).Perm (Write.into name writes') :=
  (h.filter _).map _

/-- The writes to one property can be put into another order while those to the others stay. -/
theorem Write.exists_perm_into {name : String} {writes : List (String × Write)} {ws : List Write}
    (h : ws.Perm (Write.into name writes)) :
    ∃ writes' : List (String × Write), writes'.Perm writes ∧ Write.into name writes' = ws := by
  have hnames : ((Write.into name writes).map (name, ·)) = writes.filter (·.1 = name) := by
    rw [Write.into, List.map_map]
    refine (List.map_congr_left fun write hwrite => ?_).trans (List.map_id _)
    rw [← of_decide_eq_true (List.mem_filter.mp hwrite).2]
    rfl
  refine ⟨ws.map (name, ·) ++ writes.filter (¬ ·.1 = name), ?_, ?_⟩
  · refine ((h.map _).append_right _).trans ?_
    rw [hnames]
    simpa using List.filter_append_perm (fun write => decide (write.1 = name)) writes
  · simp [Write.into, List.filter_filter, List.filter_map, Function.comp_def]

namespace Variable

variable (v : Variable)

/-- What is recorded about a property of a variable. -/
def standing (name : String) : Standing := Added.standingIn v.added name

/-- The variable after a write to one of its properties. -/
def put (v : Variable) : String × Write → Variable
  | (name, .layout l) => v.write name l
  | (name, .owner) => v.writeSelf name

/-- The variable after a list of writes to its properties. -/
def putAll (writes : List (String × Write)) : Variable := writes.foldl put v

/-- A write to a variable changes the standing of its own property alone. -/
theorem standing_put (write : String × Write) (name : String) :
    (v.put write).standing name
      = if write.1 = name then (v.standing name).put write.2 else v.standing name := by
  obtain ⟨written, _ | _⟩ := write
  · refine Added.standingIn_update (Added.name_write · _) (·.standing_write _) ?_ ?_ v.added name <;>
      rfl
  · refine Added.standingIn_update Added.name_writeSelf Added.standing_writeSelf ?_ ?_ v.added name <;>
      rfl

/-- What is recorded about a property depends on the writes to that property alone. -/
theorem standing_putAll (writes : List (String × Write)) (name : String) :
    (v.putAll writes).standing name = (v.standing name).putAll (Write.into name writes) := by
  induction writes generalizing v with
  | nil => rfl
  | cons write writes ih =>
    have hstep : (v.putAll (write :: writes)).standing name
        = ((v.put write).standing name).putAll (Write.into name writes) := ih (v.put write)
    rw [hstep, standing_put]
    by_cases hname : write.1 = name <;> simp [hname, Write.into, Standing.putAll_cons]

/-- **When the order of writes does not matter.** From any variable, all orders of a list of writes leave
the same behind for every property, the mark that it holds its owner or layouts with one key, exactly
if the writes to each property are orderly: if the owner is written where no layout was known, either
nothing else is or something that is no record is too, and if the owner is not written, the layouts
conflict in every order or in none. -/
theorem agrees_putAll_perm_iff (writes : List (String × Write)) :
    (∀ one other : List (String × Write), one.Perm writes → other.Perm writes →
        ∀ name, ((v.putAll one).standing name).Agrees ((v.putAll other).standing name))
      ↔ ∀ name, (v.standing name).Orderly (Write.into name writes) := by
  simp only [← Standing.confluent_iff, standing_putAll]
  constructor
  · intro h name one other hone hother
    obtain ⟨writes₁, hperm₁, rfl⟩ := Write.exists_perm_into hone
    obtain ⟨writes₂, hperm₂, rfl⟩ := Write.exists_perm_into hother
    exact h writes₁ writes₂ hperm₁ hperm₂ name
  · intro h one other hone hother name
    exact h name _ _ (Write.into_perm hone name) (Write.into_perm hother name)

/-- A record written before the owner makes the property universal, after the owner it changes
nothing. -/
theorem record_before_owner_universal :
    let v : Variable := { decl := 2, name := "a" }
    let record : String × Write := ("next", .layout (.record 1))
    let owner : String × Write := ("next", .owner)
    (v.putAll [record, owner]).standing "next" = .has .universal
      ∧ (v.putAll [owner, record]).standing "next" = .owner := by
  decide

end Variable

end LayoutInference
