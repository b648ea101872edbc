import Mathlib
import LayoutInference.Proofs.Keys

/-!
# Interning containers by key

A registry hands out one container for each key. `Layout.unmixed_iff` says for which layouts that is
safe: a key stands for one layout only unless the layout has two fixed arrays or more and a growing
array or dictionary outside the innermost of them. In that case the order in which these follow each
other can be changed without changing the key.

`Registry.Makes` describes the registries that are reached by any series of operations, together with
the layouts made on the way. All of these are kept apart by their keys, since a container whose key is
taken is never made: the request for it gives the container that was there before, or it fails when
that container is of another kind.
-/

namespace LayoutInference

/-! ## Layouts told by their keys -/

namespace Layout

/-- Two layouts that are there are the same exactly when their keys agree. -/
theorem same_iff_key_eq {t u : Layout} (ht : t ≠ .missing) (hu : u ≠ .missing) :
    t.same u = true ↔ t.key = u.key := by
  cases t <;> cases u <;> simp_all [same]

/-- Layouts built alike are those with the same key and the same order of containers. -/
theorem alike_iff (t u : Layout) : t.Alike u ↔ t.key = u.key ∧ t.spine = u.spine := by
  rw [key_eq_iff]
  constructor
  · rintro ⟨hspine, hleaf⟩
    exact ⟨⟨hleaf, congrArg Outline.ofSpine hspine⟩, hspine⟩
  · rintro ⟨⟨hleaf, -⟩, hspine⟩
    exact ⟨hspine, hleaf⟩

/-- Containers of one kind with the same key are the same container, with the same capacity, of
elements with the same key. -/
theorem around_key_eq {w w' : Wrapper} {t u : Layout} (hkey : (w.around t).key = (w'.around u).key)
    (hkind : (w.around t).container? = (w'.around u).container?) : w = w' ∧ t.key = u.key := by
  obtain ⟨hleaf, houtline⟩ := (key_eq_iff _ _).mp hkey
  rw [leaf_around, leaf_around] at hleaf
  rw [outline, outline, spine_around, spine_around] at houtline
  have helem (ho : t.outline = u.outline) : t.key = u.key := (key_eq_iff t u).mpr ⟨hleaf, ho⟩
  cases w <;> cases w'
  case fixed.fixed m n =>
    simp only [Outline.ofSpine, Outline.mk.injEq, List.cons.injEq] at houtline
    obtain ⟨houter, ⟨rfl, hdims⟩, hinner⟩ := houtline
    refine ⟨rfl, helem ?_⟩
    rw [outline, outline]
    cases h : Outline.ofSpine t.spine
    cases h' : Outline.ofSpine u.spine
    simp_all
  case dynamic.dynamic => exact ⟨rfl, helem (Outline.wrap_injective houtline).2⟩
  case dict.dict => exact ⟨rfl, helem (Outline.wrap_injective houtline).2⟩
  all_goals simp [Wrapper.around, container?] at hkind

/-- The outermost container of a layout is the first of its spine. -/
theorem container?_eq (l : Layout) : l.container? = l.spine.head?.map fun
    | .fixed _ => .fixed
    | .dynamic => .dynamic
    | .dict => .dict := by
  cases l <;> rfl

end Layout

namespace Outline

/-- Whether the order of containers can be told from the outline: there is at most one fixed array,
or no macro outside the innermost one. -/
def Unmixed (o : Outline) : Prop := o.dims.length ≤ 1 ∨ o.outer = []

instance (o : Outline) : Decidable o.Unmixed := inferInstanceAs (Decidable (_ ∨ _))

/-- The container that a macro stands for. -/
def container : Macro → Wrapper
  | .array => .dynamic
  | .dict => .dict

/-- The spine with the given outline in which macros stand outside of all fixed arrays. -/
def macrosFirst (o : Outline) : List Wrapper :=
  o.outer.map container ++ (o.dims.map Wrapper.fixed ++ o.inner.map container)

/-- The spine with the given outline in which fixed arrays stand outside of all macros, the innermost
of them apart. -/
def arraysFirst (o : Outline) : List Wrapper :=
  o.dims.dropLast.map Wrapper.fixed ++
    (o.outer.map container ++ (o.dims.getLast?.toList.map Wrapper.fixed ++ o.inner.map container))

/-- A container that has a macro wraps the outline in it. -/
theorem ofSpine_cons_container (m : Macro) (ws : List Wrapper) :
    ofSpine (container m :: ws) = (ofSpine ws).wrap m := by
  cases m <;> rfl

/-- Without fixed arrays all macros are inside. -/
theorem ofSpine_inner (ms : List Macro) : ofSpine (ms.map container) = { inner := ms } := by
  induction ms with
  | nil => rfl
  | cons m ms ih => rw [List.map_cons, ofSpine_cons_container, ih]; rfl

/-- Fixed arrays in front of a spine are dimensions in front of its own. -/
theorem ofSpine_dims (ns : List Int) (ws : List Wrapper) :
    ofSpine (ns.map Wrapper.fixed ++ ws)
      = { ofSpine ws with dims := ns ++ (ofSpine ws).dims } := by
  induction ns with
  | nil => rfl
  | cons n ns ih => rw [List.map_cons, List.cons_append, ofSpine, ih]; rfl

/-- Macros in front of a spine with a fixed array stand outside. -/
theorem ofSpine_outer (ms : List Macro) {ws : List Wrapper} (h : (ofSpine ws).dims ≠ []) :
    ofSpine (ms.map container ++ ws) = { ofSpine ws with outer := ms ++ (ofSpine ws).outer } := by
  induction ms with
  | nil => rfl
  | cons m ms ih =>
    rw [List.map_cons, List.cons_append, ofSpine_cons_container, ih, wrap, if_neg h]
    rfl

/-- Macros first is a way to realise an outline. -/
theorem ofSpine_macrosFirst (o : Outline) (h : o.dims ≠ []) : ofSpine o.macrosFirst = o := by
  rw [macrosFirst, ofSpine_outer, ofSpine_dims, ofSpine_inner]
  · simp
  · rw [ofSpine_dims, ofSpine_inner]
    simpa using h

/-- Arrays first is a way to realise an outline. -/
theorem ofSpine_arraysFirst (o : Outline) (h : o.dims ≠ []) : ofSpine o.arraysFirst = o := by
  have hlast : ofSpine (o.dims.getLast?.toList.map Wrapper.fixed ++ o.inner.map container)
      = { dims := [o.dims.getLast h], inner := o.inner } := by
    rw [ofSpine_dims, ofSpine_inner, List.getLast?_eq_some_getLast h]
    rfl
  rw [arraysFirst, ofSpine_dims, ofSpine_outer _ (by rw [hlast]; simp), hlast]
  simp [List.dropLast_append_getLast h]

/-- One more macro outside stands in front of all others. -/
theorem macrosFirst_wrap {o : Outline} (ho : o.dims = [] → o.outer = []) (m : Macro) :
    (o.wrap m).macrosFirst = container m :: o.macrosFirst := by
  by_cases hd : o.dims = []
  · simp [wrap, macrosFirst, hd, ho hd]
  · simp [wrap, macrosFirst, hd]

/-- Unwrapping an unmixed outline leaves it unmixed. -/
theorem Unmixed.of_wrap {o : Outline} {m : Macro} (h : (o.wrap m).Unmixed) : o.Unmixed := by
  by_cases hd : o.dims = []
  · exact .inl (by simp [hd])
  · rcases h with h | h
    · exact .inl (by simpa using h)
    · simp [wrap, hd] at h

/-- An unmixed outline has one spine only. -/
theorem Unmixed.spine_eq {ws : List Wrapper} (h : (ofSpine ws).Unmixed) :
    (ofSpine ws).macrosFirst = ws := by
  induction ws with
  | nil => rfl
  | cons w ws ih =>
    cases w with
    | fixed capacity =>
      -- A fixed array in front leaves no macro outside those behind it.
      have houter : (ofSpine ws).outer = [] := by
        rcases h with h | h
        · exact outer_ofSpine ws (List.length_eq_zero_iff.mp (by simpa [ofSpine] using h))
        · exact h
      have hws := ih (.inr houter)
      rw [macrosFirst, houter] at hws
      rw [ofSpine, macrosFirst, houter]
      exact congrArg (Wrapper.fixed capacity :: ·) hws
    | dynamic =>
      rw [ofSpine] at h ⊢
      rw [macrosFirst_wrap (outer_ofSpine ws), ih h.of_wrap]
      rfl
    | dict =>
      rw [ofSpine] at h ⊢
      rw [macrosFirst_wrap (outer_ofSpine ws), ih h.of_wrap]
      rfl

end Outline

/-- A layout without containers that has the given leaf. -/
def Leaf.layout : Leaf → Layout
  | .scalar code => .scalar (.coded code 0)
  | .record id => .record id

/-- The layout with the given leaf and containers. -/
def Leaf.within (a : Leaf) (ws : List Wrapper) : Layout := ws.foldr Wrapper.around a.layout

@[simp] theorem Leaf.spine_within (a : Leaf) (ws : List Wrapper) : (a.within ws).spine = ws := by
  induction ws with
  | nil => cases a <;> rfl
  | cons w ws ih => exact (Layout.spine_around w _).trans (congrArg (w :: ·) ih)

@[simp] theorem Leaf.leaf_within (a : Leaf) (ws : List Wrapper) : (a.within ws).leaf = a := by
  induction ws with
  | nil => cases a <;> rfl
  | cons w ws ih => exact (Layout.leaf_around w _).trans ih

namespace Layout

/-- Whether the key of a layout tells the order of its containers: it has at most one fixed array, or
no growing array or dictionary outside the innermost one. -/
def Unmixed (l : Layout) : Prop := l.outline.Unmixed

instance (l : Layout) : Decidable l.Unmixed := inferInstanceAs (Decidable l.outline.Unmixed)

/-- The key of an unmixed layout belongs to layouts built alike only. -/
theorem Unmixed.alike {l u : Layout} (h : l.Unmixed) (hkey : u.key = l.key) : u.Alike l := by
  obtain ⟨hleaf, houtline⟩ := (key_eq_iff u l).mp hkey
  have hu : u.Unmixed := by
    rw [Unmixed, houtline]
    exact h
  refine ⟨?_, hleaf⟩
  rw [← Outline.Unmixed.spine_eq hu, ← Outline.Unmixed.spine_eq h]
  exact congrArg Outline.macrosFirst houtline

/-- A mixed layout shares its key with a layout whose outermost container is another one. -/
theorem exists_key_eq_of_mixed {l : Layout} (h : ¬ l.Unmixed) :
    ∃ u : Layout, u.key = l.key ∧ u.container? ≠ l.container? := by
  obtain ⟨hdims, houter⟩ : 1 < l.outline.dims.length ∧ l.outline.outer ≠ [] := by
    simpa [Unmixed, Outline.Unmixed] using h
  have hne : l.outline.dims ≠ [] := List.ne_nil_of_length_pos (by omega)
  -- one of the two extreme orders begins with another container than `l` does
  by_cases hfixed : l.container? = some .fixed
  · refine ⟨l.leaf.within l.outline.macrosFirst, ?_, ?_⟩
    · refine (key_eq_iff _ _).mpr ⟨by simp, ?_⟩
      rw [outline, Leaf.spine_within]
      exact Outline.ofSpine_macrosFirst _ hne
    · obtain ⟨m, ms, hm⟩ := List.exists_cons_of_ne_nil houter
      rw [hfixed, container?_eq, Leaf.spine_within, Outline.macrosFirst, hm]
      cases m <;> simp [Outline.container]
  · refine ⟨l.leaf.within l.outline.arraysFirst, ?_, ?_⟩
    · refine (key_eq_iff _ _).mpr ⟨by simp, ?_⟩
      rw [outline, Leaf.spine_within]
      exact Outline.ofSpine_arraysFirst _ hne
    · obtain ⟨n, ns, hn⟩ := List.exists_cons_of_ne_nil hne
      obtain ⟨k, ks, rfl⟩ : ∃ k ks, ns = k :: ks :=
        List.exists_cons_of_ne_nil (by rintro rfl; simp [hn] at hdims)
      have hu : (l.leaf.within l.outline.arraysFirst).container? = some .fixed := by
        rw [container?_eq, Leaf.spine_within, Outline.arraysFirst, hn]
        rfl
      rw [hu]
      exact fun heq => hfixed heq.symm

/-- **When keys are safe.** The outermost container of a layout is told from its key exactly if the
layout is unmixed. -/
theorem unmixed_iff (l : Layout) :
    l.Unmixed ↔ ∀ u : Layout, u.key = l.key → u.container? = l.container? := by
  constructor
  · intro h u hkey
    rw [container?_eq, container?_eq, (h.alike hkey).1]
  · intro h
    by_contra hmixed
    obtain ⟨u, hkey, hne⟩ := exists_key_eq_of_mixed hmixed
    exact hne (h u hkey)

end Layout

/-! ## Requests for containers -/

section Tables

variable {α β : Type} [BEq α] [LawfulBEq α] {key other : α} {value found : β} {table : List (α × β)}

/-- What is found with one entry more was there before or is the entry. -/
theorem lookup_cons_cases (h : List.lookup key ((other, value) :: table) = some found) :
    List.lookup key table = some found ∨ key = other ∧ found = value := by
  by_cases hkey : key = other
  · subst hkey
    rw [List.lookup_cons_self] at h
    exact .inr ⟨rfl, (Option.some.inj h).symm⟩
  · rw [List.lookup_cons, beq_false_of_ne hkey] at h
    exact .inl h

/-- What holds of the entries of a table holds with one entry more of which it holds. -/
theorem forall_lookup_cons {P : α → β → Prop}
    (h : ∀ key found, List.lookup key table = some found → P key found) (hnew : P other value) :
    ∀ key found, List.lookup key ((other, value) :: table) = some found → P key found := by
  intro key found hfound
  rcases lookup_cons_cases hfound with hold | ⟨rfl, rfl⟩
  · exact h key found hold
  · exact hnew

/-- An entry under a new key hides nothing. -/
theorem lookup_cons_of_fresh (hfresh : List.lookup other table = none) (value : β)
    (h : List.lookup key table = some found) :
    List.lookup key ((other, value) :: table) = some found := by
  have hkey : key ≠ other := by
    rintro rfl
    rw [hfresh] at h
    cases h
  rwa [List.lookup_cons, beq_false_of_ne hkey]

end Tables

namespace Registry

/-- Ask for a container of the given elements. -/
def make (r : Registry) (w : Wrapper) (elem : Layout) : Layout × Registry :=
  match w with
  | .fixed capacity => r.fixedArray elem capacity
  | .dynamic => r.dynamicArray elem
  | .dict => r.dictionary elem

/-- To make a container is to intern it. -/
theorem make_eq_intern (r : Registry) (w : Wrapper) (elem : Layout) :
    r.make w elem = r.intern (w.around elem) := by
  cases w <;> rfl

/-- `Makes r made`: the registry `r` is reached by a series of operations that succeed, and `made` are
the scalars taken and the layouts that the operations answered, the latest first. What is handed to an
operation was made before; an element or a field may also be missing. -/
inductive Makes : Registry → List Layout → Prop where
  | start : Makes {} []
  | scalar {r : Registry} {made : List Layout} (h : Makes r made) (kind : Scalar) :
    Makes r (.scalar kind :: made)
  | register {r : Registry} {made : List Layout} (h : Makes r made) (hint : String)
    (fields : List Field) (hfields : ∀ f ∈ fields, f.layout ∈ .missing :: made) :
    Makes (r.register hint fields).2 (.record (r.register hint fields).1 :: made)
  | extend {r : Registry} {made : List Layout} (h : Makes r made) (id : RecordId)
    (hid : .record id ∈ made) (hint : String) (added : List Field)
    (hadded : ∀ f ∈ added, f.layout ∈ .missing :: made) (self : List String) :
    Makes (r.extend id hint added self).2 (.record (r.extend id hint added self).1 :: made)
  | make {r : Registry} {made : List Layout} (h : Makes r made) (w : Wrapper) (elem : Layout)
    (helem : elem ∈ .missing :: made) (hok : (r.make w elem).2.clash = none) :
    Makes (r.make w elem).2 ((r.make w elem).1 :: made)

/-- Registering a record leaves the containers as they are. -/
@[simp] theorem containers_register (r : Registry) (hint : String) (fields : List Field) :
    (r.register hint fields).2.containers = r.containers := by
  unfold register
  split <;> rfl

/-- Registering a record never clashes. -/
@[simp] theorem clash_register (r : Registry) (hint : String) (fields : List Field) :
    (r.register hint fields).2.clash = r.clash := by
  unfold register
  split <;> rfl

/-- Extending a record leaves the containers as they are. -/
@[simp] theorem containers_extend (r : Registry) (id : RecordId) (hint : String)
    (added : List Field) (self : List String) :
    (r.extend id hint added self).2.containers = r.containers := by
  unfold extend
  split
  · rfl
  · exact containers_register r _ _

/-- Extending a record never clashes. -/
@[simp] theorem clash_extend (r : Registry) (id : RecordId) (hint : String)
    (added : List Field) (self : List String) :
    (r.extend id hint added self).2.clash = r.clash := by
  unfold extend
  split
  · rfl
  · exact clash_register r _ _

/-- What holds between a registry and the layouts made with it: no request failed, every container is
kept under its own key and has elements that were made, and every container made is the one kept. -/
structure Interned (r : Registry) (made : List Layout) : Prop where
  clash : r.clash = none
  kept : ∀ key l, r.containers.lookup key = some l →
    l.key = key ∧ ∃ (w : Wrapper) (elem : Layout), l = w.around elem ∧ elem ∈ .missing :: made
  made : ∀ l ∈ made, l ≠ .missing ∧ (l.spine ≠ [] → r.containers.lookup l.key = some l)

namespace Interned

variable {r : Registry} {made : List Layout}

/-- A scalar or a record more among what was made. -/
theorem cons_leaf {r' : Registry} (h : r.Interned made) {l : Layout} (hl : l ≠ .missing)
    (hspine : l.spine = []) (hcontainers : r'.containers = r.containers)
    (hclash : r'.clash = r.clash) : r'.Interned (l :: made) where
  clash := hclash.trans h.clash
  kept key l' hkey := by
    rw [hcontainers] at hkey
    obtain ⟨hkey', w, elem, rfl, helem⟩ := h.kept key l' hkey
    refine ⟨hkey', w, elem, rfl, ?_⟩
    rw [List.mem_cons] at helem ⊢
    exact helem.imp_right (List.mem_cons_of_mem l)
  made l' hl' := by
    rw [hcontainers]
    rcases List.mem_cons.mp hl' with rfl | hl'
    · exact ⟨hl, fun hne => absurd hspine hne⟩
    · exact h.made l' hl'

/-- Layouts made with one registry have the same key only if they are built alike. -/
theorem alike_of_key_eq (h : r.Interned made) {t u : Layout} (ht : t ∈ made) (hu : u ∈ made)
    (hkey : t.key = u.key) : t.Alike u := by
  have hleaf {l : Layout} (hl : l.spine = []) : l.Unmixed := by
    rw [Layout.Unmixed, Layout.outline, hl]
    exact .inr rfl
  by_cases hts : t.spine = []
  · exact ((hleaf hts).alike hkey.symm).symm
  · by_cases hus : u.spine = []
    · exact (hleaf hus).alike hkey
    · -- both are the one container kept under their key
      have htk := (h.made t ht).2 hts
      rw [hkey, (h.made u hu).2 hus] at htk
      rw [Option.some.inj htk]
      exact .refl t

/-- The same of elements, which may also be missing. -/
theorem elem_alike_of_key_eq (h : r.Interned made) {t u : Layout} (ht : t ∈ .missing :: made)
    (hu : u ∈ .missing :: made) (hkey : t.key = u.key) : t.Alike u := by
  have hmissing : Layout.missing.Unmixed := .inr rfl
  rcases List.mem_cons.mp ht with rfl | ht
  · exact (hmissing.alike hkey.symm).symm
  · rcases List.mem_cons.mp hu with rfl | hu
    · exact hmissing.alike hkey
    · exact h.alike_of_key_eq ht hu hkey

end Interned

/-- Whether a container of another kind is kept under the key of a layout. -/
def Refuses (r : Registry) (l : Layout) : Prop :=
  ∃ kept, r.containers.lookup l.key = some kept ∧ kept.container? ≠ l.container?

/-- The outcome of a request: a container that was not there yet is put in, one that is there is
handed out if it is of the kind asked for, and otherwise the request fails. -/
theorem intern_cases (r : Registry) (l : Layout) :
    (r.containers.lookup l.key = none
        ∧ r.intern l = (l, { r with containers := (l.key, l) :: r.containers }))
      ∨ (∃ kept, r.containers.lookup l.key = some kept ∧ kept.container? = l.container?
        ∧ r.intern l = (kept, r))
      ∨ (r.Refuses l ∧ ∃ c, r.intern l = (l, { r with clash := r.clash <|> some c })) := by
  unfold intern Refuses
  cases hlookup : r.containers.lookup l.key with
  | none => exact .inl ⟨rfl, rfl⟩
  | some kept =>
    by_cases hkind : kept.container? = l.container?
    · exact .inr (.inl ⟨kept, rfl, hkind, if_pos hkind⟩)
    · exact .inr (.inr ⟨⟨kept, rfl, hkind⟩, _, if_neg hkind⟩)

/-- What is answered is a container of the kind that is asked for. -/
@[simp] theorem container?_intern (r : Registry) (l : Layout) :
    (r.intern l).1.container? = l.container? := by
  rcases r.intern_cases l with ⟨-, heq⟩ | ⟨kept, -, hkept, heq⟩ | ⟨-, c, heq⟩
  · rw [heq]
  · rw [heq, hkept]
  · rw [heq]

/-- Interning a container never answers with a missing layout. -/
theorem intern_ne_missing {r : Registry} {l : Layout} (hl : l.container? ≠ none) :
    (r.intern l).1 ≠ .missing := by
  intro hmissing
  rw [← r.container?_intern l, hmissing] at hl
  exact hl rfl

/-- A request fails exactly if a container of another kind is kept under its key. -/
theorem clash_intern_iff {r : Registry} (hclash : r.clash = none) (l : Layout) :
    (r.intern l).2.clash ≠ none ↔ r.Refuses l := by
  rcases r.intern_cases l with ⟨hnone, h⟩ | ⟨kept, hkept, hkind, h⟩ | ⟨hrefuses, c, h⟩
  · rw [h]
    refine iff_of_false (fun hne => hne hclash) ?_
    rintro ⟨kept, hkept, -⟩
    rw [hnone] at hkept
    exact absurd hkept (by simp)
  · rw [h]
    refine iff_of_false (fun hne => hne hclash) ?_
    rintro ⟨kept', hkept', hkind'⟩
    rw [hkept] at hkept'
    obtain rfl := Option.some.inj hkept'
    exact hkind' hkind
  · rw [h]
    exact iff_of_true (by simp [hclash]) hrefuses

/-- Every container is kept under its own key. -/
def Keyed (r : Registry) : Prop := ∀ key l, r.containers.lookup key = some l → l.key = key

/-- Interning keeps containers under their own keys, and answers with the key that was asked for. -/
theorem Keyed.intern {r : Registry} (h : r.Keyed) (l : Layout) :
    (r.intern l).2.Keyed ∧ (r.intern l).1.key = l.key := by
  rcases r.intern_cases l with ⟨-, heq⟩ | ⟨kept, hkept, -, heq⟩ | ⟨-, c, heq⟩
  · rw [heq]
    exact ⟨forall_lookup_cons h rfl, rfl⟩
  · rw [heq]
    exact ⟨h, h _ _ hkept⟩
  · rw [heq]
    exact ⟨h, rfl⟩

/-- Interning leaves the records as they are. -/
theorem records_intern (r : Registry) (l : Layout) : (r.intern l).2.records = r.records := by
  rcases r.intern_cases l with ⟨-, heq⟩ | ⟨kept, -, -, heq⟩ | ⟨-, c, heq⟩
  all_goals rw [heq]

/-- A request whose key tells the order of containers meets no container of another kind. -/
theorem Keyed.clash_intern {r : Registry} (h : r.Keyed) {l : Layout} (hl : l.Unmixed) :
    (r.intern l).2.clash = r.clash := by
  rcases r.intern_cases l with ⟨-, heq⟩ | ⟨kept, -, -, heq⟩ | ⟨⟨kept, hkept, hkind⟩, -⟩
  · rw [heq]
  · rw [heq]
  · exact absurd ((Layout.unmixed_iff l).mp hl kept (h _ _ hkept)) hkind

section Make

variable {r : Registry} {made : List Layout} (h : r.Interned made) (w : Wrapper) {elem : Layout}
  (helem : elem ∈ .missing :: made) (hok : (r.make w elem).2.clash = none)
include h hok

/-- A request that succeeds puts nothing in but the container asked for. -/
theorem lookup_make (key : String) (l : Layout)
    (hl : (r.make w elem).2.containers.lookup key = some l) :
    r.containers.lookup key = some l ∨ (key = (w.around elem).key ∧ l = w.around elem) := by
  rw [make_eq_intern] at hok hl
  rcases r.intern_cases (w.around elem) with ⟨-, hi⟩ | ⟨kept, -, -, hi⟩ | ⟨hrefuses, -⟩
  · rw [hi] at hl
    exact lookup_cons_cases hl
  · rw [hi] at hl
    exact .inl hl
  · exact absurd hok ((clash_intern_iff h.clash _).mpr hrefuses)

/-- A request that succeeds forgets nothing. -/
theorem lookup_make_of_lookup {key : String} {l : Layout} (hl : r.containers.lookup key = some l) :
    (r.make w elem).2.containers.lookup key = some l := by
  rw [make_eq_intern] at hok ⊢
  rcases r.intern_cases (w.around elem) with ⟨hnone, hi⟩ | ⟨kept, -, -, hi⟩ | ⟨hrefuses, -⟩
  · rw [hi]
    exact lookup_cons_of_fresh hnone _ hl
  · rw [hi]
    exact hl
  · exact absurd hok ((clash_intern_iff h.clash _).mpr hrefuses)

include helem

/-- A request that succeeds gives the container asked for, with elements built alike, and it is kept
under its key. -/
theorem make_answer : ∃ e, (r.make w elem).1 = w.around e ∧ e ∈ .missing :: made ∧ e.Alike elem
    ∧ (r.make w elem).2.containers.lookup (w.around e).key = some (w.around e) := by
  rw [make_eq_intern] at hok ⊢
  rcases r.intern_cases (w.around elem) with ⟨-, hi⟩ | ⟨kept, hkept, hkind, hi⟩ | ⟨hrefuses, -⟩
  · rw [hi]
    exact ⟨elem, rfl, helem, .refl elem, by simp⟩
  · rw [hi]
    obtain ⟨hkey, w', e, rfl, he⟩ := h.kept _ _ hkept
    obtain ⟨rfl, hekey⟩ := Layout.around_key_eq hkey hkind
    exact ⟨e, rfl, he, h.elem_alike_of_key_eq he helem hekey, by rw [hkey]; exact hkept⟩
  · exact absurd hok ((clash_intern_iff h.clash _).mpr hrefuses)

/-- A request that succeeds keeps the registry and what was made in step. -/
theorem Interned.make : (r.make w elem).2.Interned ((r.make w elem).1 :: made) := by
  obtain ⟨e, he, hmem, -, hlookup⟩ := make_answer h w helem hok
  rw [he]
  refine ⟨hok, ?_, ?_⟩
  · intro key l hl
    rcases lookup_make h w hok key l hl with hl | ⟨rfl, rfl⟩
    · obtain ⟨hkey, w', e', rfl, he'⟩ := h.kept key l hl
      exact ⟨hkey, w', e', rfl, by simp at he' ⊢; tauto⟩
    · exact ⟨rfl, w, elem, rfl, by simp at helem ⊢; tauto⟩
  · intro l hl
    rcases List.mem_cons.mp hl with rfl | hl
    · exact ⟨by cases w <;> simp [Wrapper.around], fun _ => hlookup⟩
    · obtain ⟨hne, hkept⟩ := h.made l hl
      exact ⟨hne, fun hs => lookup_make_of_lookup h w hok (hkept hs)⟩

end Make

/-- Whatever series of operations reaches a registry, it is in step with what was made. -/
theorem Makes.interned {r : Registry} {made : List Layout} (h : r.Makes made) :
    r.Interned made := by
  induction h with
  | start => exact ⟨rfl, fun key l h => absurd h (by simp), fun l h => absurd h (by simp)⟩
  | scalar h kind ih => exact ih.cons_leaf (by simp) rfl rfl rfl
  | register h hint fields hfields ih => exact ih.cons_leaf (by simp) rfl (by simp) (by simp)
  | extend h id hid hint added hadded self ih =>
    exact ih.cons_leaf (by simp) rfl (by simp) (by simp)
  | make h w elem helem hok ih => exact ih.make w helem hok

/-- **Interning is faithful as far as it goes.** Layouts made with one registry are the same exactly if
they are built alike. A request for a container fails exactly if a container of another kind is kept
under its key, which never happens to an unmixed layout; if it succeeds it answers the container asked
for, with the capacity asked for and elements built like those given. For mixed layouts there is always
a container of another kind with the same key. -/
theorem interning_faithful {r : Registry} {made : List Layout} (h : r.Makes made) :
    (∀ t ∈ made, ∀ u ∈ made, t.same u = true ↔ t.Alike u)
      ∧ (∀ (w : Wrapper), ∀ elem ∈ .missing :: made,
        ((r.make w elem).2.clash ≠ none ↔ r.Refuses (w.around elem))
          ∧ ((r.make w elem).2.clash = none →
            ∃ e, (r.make w elem).1 = w.around e ∧ e.Alike elem)
          ∧ ((w.around elem).Unmixed → (r.make w elem).2.clash = none))
      ∧ ∀ l : Layout, ¬ l.Unmixed ↔ ∃ u : Layout, u.key = l.key ∧ u.container? ≠ l.container? := by
  have hi := h.interned
  refine ⟨?_, ?_, ?_⟩
  · intro t ht u hu
    rw [Layout.same_iff_key_eq (hi.made t ht).1 (hi.made u hu).1]
    exact ⟨hi.alike_of_key_eq ht hu, fun halike => ((Layout.alike_iff t u).mp halike).1⟩
  · intro w elem helem
    have hiff := clash_intern_iff hi.clash (w.around elem)
    rw [← make_eq_intern] at hiff
    refine ⟨hiff, ?_, ?_⟩
    · intro hok
      obtain ⟨e, he, -, halike, -⟩ := make_answer hi w helem hok
      exact ⟨e, he, halike⟩
    · intro hunmixed
      -- Whatever has the key of an unmixed layout is of its kind.
      by_contra hclash
      obtain ⟨kept, hkept, hkind⟩ := hiff.mp hclash
      exact hkind ((Layout.unmixed_iff _).mp hunmixed kept (hi.kept _ _ hkept).1)
  · intro l
    rw [Layout.unmixed_iff]
    push Not
    rfl

/-- A growing array of pairs of integers can be made once the pairs are. -/
theorem interning_faithful_rows :
    Makes (({} : Registry).make (.fixed 2) .integer).2 [.fixed .integer 2, .integer]
      ∧ ((({} : Registry).make (.fixed 2) .integer).2.make .dynamic (.fixed .integer 2)).2.clash
        = none := by
  have h : Makes (({} : Registry).make (.fixed 2) .integer).2 [.fixed .integer 2, .integer] :=
    (Makes.start.scalar .integer).make (.fixed 2) .integer (by simp) (by decide +kernel)
  exact ⟨h, ((interning_faithful h).2.1 .dynamic (.fixed .integer 2) (by simp)).2.2 (by decide)⟩

/-- A request can fail. Once growing arrays of blocks of rows are made, a fixed array of growing arrays
of rows has their key. -/
theorem fixedArray_refused : ∃ r made, Makes r made ∧
    made = [.dynamic (.fixed .integer 2), .dynamic (.fixed (.fixed .integer 2) 1),
      .fixed (.fixed .integer 2) 1, .fixed .integer 2, .integer] ∧
    (r.make (.fixed 1) (.dynamic (.fixed .integer 2))).2.clash
      = some ⟨some .dynamic, some .fixed⟩ := by
  have h := Makes.start.scalar .integer
  have h := h.make (.fixed 2) .integer (by simp) (by decide +kernel)
  have h := h.make (.fixed 1) (.fixed .integer 2) (by decide +kernel) (by decide +kernel)
  have h := h.make .dynamic (.fixed (.fixed .integer 2) 1) (by decide +kernel) (by decide +kernel)
  have h := h.make .dynamic (.fixed .integer 2) (by decide +kernel) (by decide +kernel)
  exact ⟨_, _, h, by decide +kernel, by decide +kernel⟩

end Registry

end LayoutInference
