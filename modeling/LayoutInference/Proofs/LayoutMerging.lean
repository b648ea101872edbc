import Mathlib
import LayoutInference.Proofs.Winners

/-!
# Merging layouts

A layout written over another one replaces it if it says more (`refines`), gives way if it says less or
the same, and else the two conflict and the universal value takes their place, for good. Saying more is
a strict order, and layouts with one key stand alike in it, with one exception: the opaque pointer gives
way to everything that is known, a scalar that is only written like it to nothing.

A run of writes without a conflict climbs in this order. Where it ends is told here without the order
of the writes: at a layout to which every write gives way that did not give way to the start
(`mergeAll_cases`), and every such layout is reached in some order (`RestsAt.exists_perm`). Writes that
never conflict end in their top, which is the same in all orders (`Nests.top`).
-/

namespace LayoutInference

/-! ## Layouts that give way -/

namespace Layout

/-- An array whose elements are not known. -/
def isUnknownArray (l : Layout) : Bool := l.isArray && l.elem.isFallback

/-- The layouts that say nothing are the opaque pointer and the universal value, and what is written like
them. -/
theorem isFallback_iff (l : Layout) :
    l.isFallback = true ↔ l.spine = [] ∧ (l.leaf = .scalar 4 ∨ l.leaf = .scalar 5) := by
  cases l with
  | scalar kind => cases kind <;> simp [isFallback, Scalar.isFallback, spine, leaf, Scalar.code]
  | missing | fixed | dynamic | dict | record => simp [isFallback, spine, leaf, Scalar.code]

/-- Layouts that are alike both say nothing, or both say something. -/
theorem Alike.isFallback_eq {t u : Layout} (h : t.Alike u) : t.isFallback = u.isFallback := by
  rw [Bool.eq_iff_iff, isFallback_iff, isFallback_iff, h.1, h.2]

/-- The key tells a layout that says nothing. -/
theorem isFallback_of_key_eq {t u : Layout} (hkey : t.key = u.key) (ht : t.isFallback = true) :
    u.isFallback = true := by
  have hunmixed : t.Unmixed := by
    rw [Unmixed, outline, ((isFallback_iff t).mp ht).1]
    exact .inr rfl
  rw [(hunmixed.alike hkey.symm).isFallback_eq, ht]

/-- The key tells an array whose elements are not known. -/
theorem isUnknownArray_of_key_eq {t u : Layout} (hkey : t.key = u.key)
    (ht : t.isUnknownArray = true) : u.isUnknownArray = true := by
  obtain ⟨harray, helem⟩ := Bool.and_eq_true_iff.mp ht
  -- Nothing stands inside the elements, so the key tells the order of the containers.
  have hspine := ((isFallback_iff t.elem).mp helem).1
  have hunmixed : t.Unmixed := by
    rw [Unmixed, outline]
    cases t with
    | fixed elem capacity | dynamic elem =>
      have hspine : elem.spine = [] := hspine
      simp [spine, hspine, Outline.ofSpine, Outline.wrap, Outline.Unmixed]
    | _ => cases harray
  obtain ⟨hspines, hleaf⟩ := hunmixed.alike hkey.symm
  have hinside (e e' : Layout) (he : e.isFallback = true) (hspine : e'.spine = e.spine)
      (hleaf : e'.leaf = e.leaf) : e'.isFallback = true := by
    rw [Alike.isFallback_eq ⟨hspine, hleaf⟩, he]
  cases t with
  | fixed elem capacity =>
    cases u <;>
      simp only [spine, reduceCtorEq, List.cons.injEq, Wrapper.fixed.injEq, false_and] at hspines
    exact hinside elem _ helem hspines.2 hleaf
  | dynamic elem =>
    cases u <;> simp only [spine, reduceCtorEq, List.cons.injEq, false_and] at hspines
    exact hinside elem _ helem hspines.2 hleaf
  | _ => cases harray

/-- The same layouts have one key. -/
theorem key_eq_of_same {t u : Layout} (h : t.same u = true) : t.key = u.key := by
  cases t <;> cases u <;> simp_all [same]

/-- Sameness is symmetric. -/
theorem same_symm {t u : Layout} (h : t.same u = true) : u.same t = true := by
  cases t <;> cases u <;> simp_all [same]

/-- Sameness is transitive. -/
theorem same_trans {t u w : Layout} (h : t.same u = true) (h' : u.same w = true) :
    t.same w = true := by
  cases t <;> cases u <;> cases w <;> simp_all [same]

end Layout

section Refines

variable {x y z : Layout}

/-- A layout says more than the opaque pointer if it says anything, and than an array of unknown elements
if it is one of known elements. -/
theorem refines_iff : refines x y = true ↔ y.isFallback = false
    ∧ (x = .missing ∨ x = .pointer
      ∨ x.isUnknownArray = true ∧ y.isArray = true ∧ y.isUnknownArray = false) := by
  unfold refines Layout.isUnknownArray
  by_cases hy : y.isFallback = true
  · simp [hy]
  · by_cases hx : x = .missing ∨ x = .pointer
    · rcases hx with rfl | rfl <;> simp [hy]
    · obtain ⟨hmissing, hpointer⟩ := not_or.mp hx
      simp only [hy, hmissing, hpointer]
      cases x.isArray <;> cases y.isArray <;> simp

/-- To say more is transitive. -/
theorem refines_trans (h : refines x y = true) (h' : refines y z = true) : refines x z = true := by
  rw [refines_iff] at h h' ⊢
  grind [Layout.isFallback, Scalar.isFallback]

/-- Of two layouts at most one says more than the other. -/
theorem refines_asymm (h : refines x y = true) : refines y x = false := by
  rw [← Bool.not_eq_true, refines_iff]
  rw [refines_iff] at h
  grind [Layout.isFallback, Scalar.isFallback]

/-- A layout that says more has another key. -/
theorem not_same_of_refines (h : refines x y = true) : x.same y = false := by
  rw [← Bool.not_eq_true]
  intro hsame
  have hkey := Layout.key_eq_of_same hsame
  obtain ⟨hy, rfl | rfl | ⟨hx, -, hy'⟩⟩ := refines_iff.mp h
  · cases y <;> simp_all [Layout.same, Layout.isFallback]
  · rw [Layout.isFallback_of_key_eq hkey rfl] at hy
    cases hy
  · rw [Layout.isUnknownArray_of_key_eq hkey hx] at hy'
    cases hy'

/-- Layouts with one key give way to the same layouts, those written like the opaque pointer apart. -/
theorem refines_of_same (hsame : x.same y = true) (h : refines y z = true) :
    refines x z = true ∨ y = .pointer := by
  obtain ⟨hz, rfl | rfl | ⟨hy, hz'⟩⟩ := refines_iff.mp h
  · have hx : x = .missing := by cases x <;> simp_all [Layout.same]
    exact .inl (hx ▸ h)
  · exact .inr rfl
  · have hx := Layout.isUnknownArray_of_key_eq (Layout.key_eq_of_same (Layout.same_symm hsame)) hy
    exact .inl (refines_iff.mpr ⟨hz, .inr (.inr ⟨hx, hz'⟩)⟩)

end Refines

namespace Layout

variable {x y z : Layout}

/-- A write of the first layout leaves the second one in place: it says less, or the same. -/
def YieldsTo (x t : Layout) : Prop := refines x t = true ∨ x.same t = true

/-- One of the two layouts gives way to the other. -/
def Comparable (x y : Layout) : Prop := x.YieldsTo y ∨ y.YieldsTo x

/-- A layout gives way to itself. -/
theorem YieldsTo.refl (x : Layout) : x.YieldsTo x := .inr (same_refl x)

/-- Layouts that give way to each other have one key. -/
theorem YieldsTo.antisymm (h : x.YieldsTo y) (h' : y.YieldsTo x) : x.same y = true := by
  rcases h with h | h
  · rcases h' with h' | h'
    · rw [refines_asymm h] at h'
      cases h'
    · exact same_symm h'
  · exact h

/-- What gives way to a layout gives way to all that say more, a writing like that of the opaque
pointer apart. -/
theorem YieldsTo.trans_refines (h : x.YieldsTo y) (hy : y ≠ .pointer) (h' : refines y z = true) :
    x.YieldsTo z := by
  rcases h with h | h
  · exact .inl (refines_trans h h')
  · exact .inl ((refines_of_same h h').resolve_right hy)

/-- With the same key as a layout, what can be compared with one that says more gives way to it. -/
theorem YieldsTo.of_comparable (h : x.YieldsTo y) (h' : refines y z = true)
    (hcomparable : z.Comparable x) : x.YieldsTo z := by
  rcases h with h | h
  · exact .inl (refines_trans h h')
  · refine hcomparable.resolve_left ?_
    rintro (hzx | hzx)
    · have := not_same_of_refines (refines_trans h' hzx)
      rw [same_symm h] at this
      cases this
    · have := not_same_of_refines h'
      rw [same_symm (same_trans hzx h)] at this
      cases this

/-! ## Merging layouts -/

/-- The layout of a property after a write of `l` over `m`. -/
def merge (m l : Layout) : Layout :=
  if refines m l then l else if refines l m then m else if m.same l then m else .universal

/-- A write that says more replaces the layout. -/
theorem merge_of_refines (h : refines x y = true) : x.merge y = y := if_pos h

/-- A write that gives way leaves the layout in place. -/
theorem merge_of_yieldsTo (h : y.YieldsTo x) : x.merge y = x := by
  unfold merge
  rcases h with h | h
  · rw [refines_asymm h, h]
    rfl
  · have hsame := same_symm h
    have hrefines : refines x y = false := by
      by_contra hrefines
      rw [Bool.not_eq_false] at hrefines
      rw [not_same_of_refines hrefines] at hsame
      cases hsame
    rw [hrefines, hsame]
    simp

/-- Layouts of which neither gives way conflict. -/
theorem merge_of_not_comparable (h : ¬ x.Comparable y) : x.merge y = .universal := by
  unfold merge
  split_ifs with hxy hyx hsame
  · exact absurd (.inl (.inl hxy)) h
  · exact absurd (.inr (.inl hyx)) h
  · exact absurd (.inl (.inr hsame)) h
  · rfl

/-- A write says more than what is there, or gives way to it, or makes the property universal. -/
theorem merge_cases (x y : Layout) :
    refines x y = true ∧ x.merge y = y ∨ y.YieldsTo x ∧ x.merge y = x
      ∨ ¬ x.Comparable y ∧ x.merge y = .universal := by
  by_cases hcomparable : x.Comparable y
  · rcases hcomparable with (h | h) | h
    · exact .inl ⟨h, merge_of_refines h⟩
    · exact .inr (.inl ⟨.inr (same_symm h), merge_of_yieldsTo (.inr (same_symm h))⟩)
    · exact .inr (.inl ⟨h, merge_of_yieldsTo h⟩)
  · exact .inr (.inr ⟨hcomparable, merge_of_not_comparable hcomparable⟩)

/-- Nothing that is written changes a universal property. -/
theorem universal_merge (l : Layout) : universal.merge l = .universal := by
  rcases merge_cases .universal l with ⟨h, -⟩ | ⟨-, h⟩ | ⟨-, h⟩
  · obtain ⟨-, h | h | ⟨h, -⟩⟩ := refines_iff.mp h <;> cases h
  · exact h
  · exact h

/-- A write never removes a layout. -/
theorem merge_ne_missing (h : x ≠ .missing) (l : Layout) : x.merge l ≠ .missing := by
  rcases merge_cases x l with ⟨hl, heq⟩ | ⟨-, heq⟩ | ⟨-, heq⟩
  · rintro hmissing
    rw [← heq, hmissing] at hl
    cases (refines_iff.mp hl).1
  · rwa [heq]
  · rw [heq]
    simp

/-- The layout of a property after a list of writes over `m`. -/
def mergeAll (m : Layout) (ls : List Layout) : Layout := ls.foldl merge m

/-- The first of a list of writes is made first. -/
theorem mergeAll_cons (m l : Layout) (ls : List Layout) :
    m.mergeAll (l :: ls) = (m.merge l).mergeAll ls := rfl

/-- Lists of writes are made one after the other. -/
theorem mergeAll_append (m : Layout) (ls ls' : List Layout) :
    m.mergeAll (ls ++ ls') = (m.mergeAll ls).mergeAll ls' := List.foldl_append

/-- The universal value is never replaced. -/
theorem universal_mergeAll (ls : List Layout) : universal.mergeAll ls = .universal := by
  induction ls with
  | nil => rfl
  | cons l ls ih => rw [mergeAll_cons, universal_merge, ih]

/-- Writes that all give way leave the layout in place. -/
theorem mergeAll_of_yieldsTo {ls : List Layout} (h : ∀ y ∈ ls, y.YieldsTo x) :
    x.mergeAll ls = x := by
  induction ls with
  | nil => rfl
  | cons y ls ih =>
    rw [mergeAll_cons, merge_of_yieldsTo (h y List.mem_cons_self),
      ih fun z hz => h z (List.mem_cons_of_mem y hz)]

/-! ## Orders without a conflict -/

/-- What the property starts from, or a write that says more than that. -/
def Reaches (u : Layout) (ls : List Layout) (t : Layout) : Prop :=
  t = u ∨ t ∈ ls ∧ refines u t = true

/-- The property can come to rest at `t`: every write gives way to what the property starts from or
to `t`. -/
def RestsAt (u : Layout) (ls : List Layout) (t : Layout) : Prop :=
  u.Reaches ls t ∧ ∀ x ∈ ls, x.YieldsTo u ∨ x.YieldsTo t

section Rest

variable {u t : Layout} {ls ls' : List Layout}

/-- What writes can reach can be reached with more of them. -/
theorem Reaches.mono (hsub : ls ⊆ ls') (h : u.Reaches ls t) : u.Reaches ls' t :=
  h.imp_right (.imp_left (@hsub t))

/-- What can be reached from a write that says more can be reached with it. -/
theorem Reaches.cons_of_refines (hx : refines u x = true) (h : x.Reaches ls t) :
    u.Reaches (x :: ls) t := by
  rcases h with rfl | ⟨hmem, ht⟩
  · exact .inr ⟨List.mem_cons_self, hx⟩
  · exact .inr ⟨List.mem_cons_of_mem x hmem, refines_trans hx ht⟩

/-- Where a property can rest does not depend on the order of the writes. -/
theorem RestsAt.perm (hperm : ls.Perm ls') (h : u.RestsAt ls t) : u.RestsAt ls' t :=
  ⟨h.1.mono hperm.subset, fun x hx => h.2 x (hperm.mem_iff.mpr hx)⟩

/-- After a first write that says more, the property comes to rest where it does without it. -/
theorem RestsAt.cons_of_refines (hx : refines u x = true) (h : x.RestsAt ls t) :
    u.RestsAt (x :: ls) t := by
  have hpointer : x ≠ .pointer := by
    rintro rfl
    cases (refines_iff.mp hx).1
  have hpast (y : Layout) (hy : y.YieldsTo x) : y.YieldsTo t := by
    rcases h.1 with rfl | ⟨-, ht⟩
    · exact hy
    · exact hy.trans_refines hpointer ht
  refine ⟨h.1.cons_of_refines hx, fun y hy => .inr ?_⟩
  rcases List.mem_cons.mp hy with rfl | hy
  · exact hpast y (.refl y)
  · exact (h.2 y hy).elim (hpast y) id

/-- A run of writes ends in the universal value, or where the property can come to rest. -/
theorem mergeAll_cases (u : Layout) (ls : List Layout) :
    u.mergeAll ls = .universal ∨ u.RestsAt ls (u.mergeAll ls) := by
  induction ls generalizing u with
  | nil => exact .inr ⟨.inl rfl, by simp⟩
  | cons x ls ih =>
    rw [mergeAll_cons]
    rcases merge_cases u x with ⟨hx, heq⟩ | ⟨hx, heq⟩ | ⟨-, heq⟩ <;> rw [heq]
    · exact (ih x).imp_right (.cons_of_refines hx)
    · refine (ih u).imp_right fun h => ⟨h.1.mono (List.subset_cons_self x ls), ?_⟩
      exact List.forall_mem_cons.mpr ⟨.inl hx, h.2⟩
    · exact .inl (universal_mergeAll ls)

/-- A write of what the property starts from changes nothing. -/
theorem RestsAt.erase_start (h : u.RestsAt ls t) : u.RestsAt (ls.erase u) t := by
  refine ⟨h.1.imp_right fun ⟨hmem, ht⟩ => ⟨(List.mem_erase_of_ne ?_).mpr hmem, ht⟩,
    fun x hx => h.2 x (List.mem_of_mem_erase hx)⟩
  rintro rfl
  rw [refines_asymm ht] at ht
  cases ht

/-- Where the property can come to rest, some order of the writes brings it. -/
theorem RestsAt.exists_perm (h : u.RestsAt ls t) :
    ∃ ls', ls'.Perm ls ∧ u.mergeAll ls' = t := by
  classical
  obtain ⟨rfl | ⟨hmem, ht⟩, hyields⟩ := h
  · exact ⟨ls, .rfl, mergeAll_of_yieldsTo fun x hx => (hyields x hx).elim id id⟩
  · -- First what gives way to the start, then `t`, then the rest.
    have hlate : t ∈ ls.filter (¬ ·.YieldsTo u) := by
      refine List.mem_filter.mpr ⟨hmem, decide_eq_true fun hback => ?_⟩
      have hsame := YieldsTo.antisymm (.inl ht) hback
      rw [not_same_of_refines ht] at hsame
      cases hsame
    refine ⟨ls.filter (·.YieldsTo u) ++ t :: (ls.filter (¬ ·.YieldsTo u)).erase t, ?_, ?_⟩
    · refine ((List.perm_cons_erase hlate).symm.append_left _).trans ?_
      simpa using List.filter_append_perm (fun x => decide (x.YieldsTo u)) ls
    · have hearly : u.mergeAll (ls.filter (·.YieldsTo u)) = u :=
        mergeAll_of_yieldsTo fun x hx => of_decide_eq_true (List.mem_filter.mp hx).2
      rw [mergeAll_append, hearly, mergeAll_cons, merge_of_refines ht]
      refine mergeAll_of_yieldsTo fun x hx => ?_
      obtain ⟨hx, hnot⟩ := List.mem_filter.mp (List.mem_of_mem_erase hx)
      exact (hyields x hx).resolve_left (of_decide_eq_true hnot)

/-- A property comes to rest at the universal value only if it starts there and nothing else is
written. -/
theorem RestsAt.same_universal (h : u.RestsAt ls t) (ht : t.same .universal = true) :
    u.same .universal = true ∧ ∀ x ∈ ls, x.same .universal = true := by
  have hfallback : t.isFallback = true :=
    isFallback_of_key_eq (key_eq_of_same (same_symm ht)) rfl
  have hnot (x : Layout) : refines x t = false := by
    rw [← Bool.not_eq_true, refines_iff, hfallback]
    simp
  obtain ⟨rfl | ⟨-, hrefines⟩, hyields⟩ := h
  · refine ⟨ht, fun x hx => ?_⟩
    have hx : x.YieldsTo t := (hyields x hx).elim id id
    rw [YieldsTo, hnot] at hx
    exact same_trans (hx.resolve_left nofun) ht
  · rw [hnot] at hrefines
    cases hrefines

end Rest

/-! ## Writes that never conflict -/

/-- Every write can be compared with the layout that the property starts from, and those that say more
than it can be compared with every write. -/
def Nests (u : Layout) (ls : List Layout) : Prop :=
  ∀ x ∈ ls, u.Comparable x ∧ (refines u x = true → ∀ y ∈ ls, x.Comparable y)

/-- The layout of a list to which all of them give way. -/
def Top (ls : List Layout) (t : Layout) : Prop := t ∈ ls ∧ ∀ x ∈ ls, x.YieldsTo t

section Top

variable {u t t' : Layout} {ls ls' : List Layout}

/-- All tops of a list are the same. -/
theorem Top.same (h : Top ls t) (h' : Top ls t') : t.same t' = true :=
  (h'.2 t h.1).antisymm (h.2 t' h'.1)

/-- The top does not depend on the order. -/
theorem Top.perm (hperm : ls.Perm ls') (h : Top ls t) : Top ls' t :=
  ⟨hperm.mem_iff.mp h.1, fun x hx => h.2 x (hperm.mem_iff.mpr hx)⟩

/-- Fewer writes still nest. -/
theorem Nests.mono (hsub : ls ⊆ ls') (h : u.Nests ls') : u.Nests ls :=
  fun x hx => ⟨(h x (hsub hx)).1, fun hux y hy => (h x (hsub hx)).2 hux y (hsub hy)⟩

/-- The writes behind one that says more nest around it. -/
theorem Nests.of_refines (h : u.Nests (x :: ls)) (hx : refines u x = true) : x.Nests ls := by
  intro y hy
  refine ⟨(h x List.mem_cons_self).2 hx y (List.mem_cons_of_mem x hy), fun hxy => ?_⟩
  exact (h.mono (List.subset_cons_self x ls) y hy).2 (refines_trans hx hxy)

/-- Writes that are all the same nest. -/
theorem Nests.of_same (hu : u.same z = true) (h : ∀ x ∈ ls, x.same z = true) : u.Nests ls := by
  have hcomparable {x y : Layout} (hx : x.same z = true) (hy : y.same z = true) : x.Comparable y :=
    .inl (.inr (same_trans hx (same_symm hy)))
  exact fun x hx => ⟨hcomparable hu (h x hx), fun _ y hy => hcomparable (h x hx) (h y hy)⟩

/-- Writes that never conflict all give way to what they end in. -/
theorem Nests.mergeAll (h : u.Nests ls) :
    u.Reaches ls (u.mergeAll ls) ∧ ∀ x ∈ ls, x.YieldsTo (u.mergeAll ls) := by
  induction ls generalizing u with
  | nil => exact ⟨.inl rfl, by simp⟩
  | cons x ls ih =>
    rw [mergeAll_cons]
    rcases merge_cases u x with ⟨hx, heq⟩ | ⟨hx, heq⟩ | ⟨hx, -⟩
    -- The write says more: the rest goes on from it.
    · obtain ⟨hreaches, hyields⟩ := ih (h.of_refines hx)
      rw [heq]
      refine ⟨hreaches.cons_of_refines hx, List.forall_mem_cons.mpr ⟨?_, hyields⟩⟩
      rcases hreaches with ht | ⟨-, ht⟩
      · rw [ht]
        exact .refl x
      · exact .inl ht
    · have hsub := List.subset_cons_self x ls
      -- The write gives way: the rest goes on from where the property was.
      obtain ⟨hreaches, hyields⟩ := ih (h.mono hsub)
      rw [heq]
      refine ⟨hreaches.mono hsub, List.forall_mem_cons.mpr ⟨?_, hyields⟩⟩
      rcases hreaches with ht | ⟨hmem, ht⟩
      · rwa [ht]
      · exact hx.of_comparable ht ((h _ (hsub hmem)).2 ht x List.mem_cons_self)
    · exact absurd (h x List.mem_cons_self).1 hx

/-- A run of writes that never conflict ends in the top of them and of where it started. -/
theorem Nests.top (h : u.Nests ls) : Top (u :: ls) (u.mergeAll ls) := by
  obtain ⟨hreaches, hyields⟩ := h.mergeAll
  rcases hreaches with ht | ⟨hmem, ht⟩
  · rw [ht] at hyields ⊢
    exact ⟨List.mem_cons_self, List.forall_mem_cons.mpr ⟨.refl u, hyields⟩⟩
  · exact ⟨List.mem_cons_of_mem u hmem, List.forall_mem_cons.mpr ⟨.inl ht, hyields⟩⟩

end Top

end Layout

end LayoutInference
