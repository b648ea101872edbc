import Mathlib
import LayoutInference.Proofs.FreshNames
import LayoutInference.Proofs.Registration

/-!
# Final names

Which records get a final name, which of them are listed, and what the names are. A layout is within a
list of roots if it is one of them, or stands inside one as an element or a field
(`Registry.Within`). Records may hold themselves, so the search for the records within the roots keeps
a list of those it has not met; `Registry.mem_reachable_iff` says that it finds all of them.

Names are given in the order of registration. `Registry.NamedAfter` says how a record is named when
some names are taken, and `Registry.named_split` that every record is named so after the records before
it. That all names are different follows from that alone.

`finalize_exact` puts it together for every registry that a series of operations reaches, and says what
it means for the result of a run: no layout mentions a record that is not listed, unless that has no
fields.
-/

namespace LayoutInference

/-- A container is made of the record that its elements are made of. -/
theorem Layout.recordId?_of_elem? {l e : Layout} (h : l.elem? = some e) :
    l.recordId? = e.recordId? := by
  cases l with
  | fixed elem capacity | dynamic elem | dict elem => rw [← Option.some.inj h]; rfl
  | missing | scalar | record => cases h

/-- The hint and the name of a record are identifiers, as far as it has them. -/
structure Record.Spelled (record : Record) : Prop where
  hint : record.hint = "" ∨ IsIdentifier record.hint
  name : record.name = "" ∨ IsIdentifier record.name

namespace Registry

/-! ## Layouts within roots -/

/-- The layouts that `roots` are made of: the roots themselves, the elements of arrays and
dictionaries, and the fields of records. -/
inductive Within (r : Registry) (roots : List Layout) : Layout → Prop where
  | root {l : Layout} (h : l ∈ roots) : Within r roots l
  | elem {l e : Layout} (h : Within r roots l) (he : l.elem? = some e) : Within r roots e
  | field {id : RecordId} {f : Field} (h : Within r roots (.record id)) (hf : f ∈ r.fields id) :
    Within r roots f.layout

namespace Within

variable {r : Registry} {roots roots' : List Layout} {l : Layout}

/-- The record inside the containers of a layout. -/
theorem record {id : RecordId} (h : r.Within roots l) (hid : l.recordId? = some id) :
    r.Within roots (.record id) := by
  induction l with
  | missing | scalar => cases hid
  | fixed elem _ ih | dynamic elem ih | dict elem ih => exact ih (h.elem rfl) hid
  | record i => rwa [← Option.some.inj hid]

/-- What is within layouts that are within the roots is within the roots. -/
theorem trans (h : r.Within roots l) (hroots : ∀ l ∈ roots, r.Within roots' l) :
    r.Within roots' l := by
  induction h with
  | root h => exact hroots _ h
  | elem _ he ih => exact ih.elem he
  | field _ hf ih => exact ih.field hf

/-- Nothing within known roots is unknown. -/
theorem knows (h : r.Within roots l) (hr : r.WellFormed) (hroots : ∀ l ∈ roots, r.Knows l) :
    r.Knows l := by
  induction h with
  | root h => exact hroots _ h
  | elem _ he ih => exact fun id hid => ih id ((Layout.recordId?_of_elem? he).trans hid)
  | @field id f _ hf ih =>
    rw [fields] at hf
    cases hrecord : r.record? id with
    | none => simp [hrecord] at hf
    | some record =>
      rw [hrecord] at hf
      exact hr.fields record (List.mem_of_find?_eq_some hrecord) f hf

end Within

/-! ## The search -/

/-- What the search has not reached is part of what it had not met. -/
theorem unreached_subset (r : Registry) (unseen : List RecordId) (work : List Layout) :
    r.unreached unseen work ⊆ unseen := by
  induction unseen, work using unreached.induct r with
  | case1 unseen => rw [unreached]; exact fun _ h => h
  | case2 unseen l work hl ih => rw [unreached, hl]; exact ih
  | case3 unseen l work id hl hid ih =>
    rw [unreached, hl]
    simp only [hid, dite_true]
    exact fun i hi => List.mem_of_mem_erase (ih hi)
  | case4 unseen l work id hl hid ih =>
    rw [unreached, hl]
    simp only [hid, dite_false]
    exact ih

/-- What the search meets is within the layouts it starts from. -/
theorem within_of_notMem_unreached (r : Registry) (unseen : List RecordId) (work : List Layout)
    {i : RecordId} (hi : i ∈ unseen) (hnot : i ∉ r.unreached unseen work) :
    r.Within work (.record i) := by
  have hlater {l : Layout} {work : List Layout} (h : r.Within work (.record i)) :
      r.Within (l :: work) (.record i) :=
    h.trans fun _ hmem => .root (List.mem_cons_of_mem l hmem)
  induction unseen, work using unreached.induct r with
  | case1 unseen =>
    rw [unreached] at hnot
    exact absurd hi hnot
  | case2 unseen l work hl ih =>
    rw [unreached, hl] at hnot
    exact hlater (ih hi hnot)
  | case3 unseen l work id hl hid ih =>
    rw [unreached, hl] at hnot
    simp only [hid, dite_true] at hnot
    -- A record that is met for the first time leads on to its fields.
    have hrecord : r.Within (l :: work) (.record id) := (Within.root (List.mem_cons_self ..)).record hl
    by_cases hsame : i = id
    · rwa [hsame]
    · refine (ih ((List.mem_erase_of_ne hsame).mpr hi) hnot).trans fun l' hl' => ?_
      rcases List.mem_append.mp hl' with hfield | hwork
      · obtain ⟨f, hf, rfl⟩ := List.mem_map.mp hfield
        exact hrecord.field hf
      · exact .root (List.mem_cons_of_mem l hwork)
  | case4 unseen l work id hl hid ih =>
    rw [unreached, hl] at hnot
    simp only [hid, dite_false] at hnot
    exact hlater (ih hi hnot)

/-- Fields of records that were met lead to records that were met, or are still to be followed. -/
def Explored (r : Registry) (unseen : List RecordId) (work : List Layout) : Prop :=
  ∀ id ∉ unseen, ∀ f ∈ r.fields id, ∀ j ∈ unseen, f.layout.recordId? = some j →
    ∃ l ∈ work, l.recordId? = some j

/-- When the search is over, all that it started from has been met, and no field leads further. -/
theorem unreached_explored (r : Registry) {unseen : List RecordId} {work : List Layout}
    (hnodup : unseen.Nodup) (h : r.Explored unseen work) :
    r.Explored (r.unreached unseen work) []
      ∧ ∀ l ∈ work, ∀ j, l.recordId? = some j → j ∉ r.unreached unseen work := by
  induction unseen, work using unreached.induct r with
  | case1 unseen =>
    rw [unreached]
    exact ⟨h, by simp⟩
  | case2 unseen l work hl ih =>
    rw [unreached, hl]
    obtain ⟨hend, hmet⟩ := ih hnodup fun id hid f hf j hj hfield => by
      obtain ⟨l', hl', hsame⟩ := h id hid f hf j hj hfield
      rcases List.mem_cons.mp hl' with rfl | hl'
      · rw [hl] at hsame
        cases hsame
      · exact ⟨l', hl', hsame⟩
    refine ⟨hend, List.forall_mem_cons.mpr ⟨fun j hj => ?_, hmet⟩⟩
    rw [hl] at hj
    cases hj
  | case3 unseen l work id hl hid ih =>
    rw [unreached, hl]
    simp only [hid, dite_true]
    have hgone : id ∉ unseen.erase id := hnodup.not_mem_erase
    obtain ⟨hend, hmet⟩ := ih (hnodup.erase id) fun i hi f hf j hj hfield => by
      -- The fields of the record that is met now are put in front of the work.
      by_cases hsame : i = id
      · rw [hsame] at hf
        exact ⟨f.layout, List.mem_append_left _ (List.mem_map_of_mem hf), hfield⟩
      · have hseen : i ∉ unseen := fun hmem => hi ((List.mem_erase_of_ne hsame).mpr hmem)
        obtain ⟨l', hl', hsame'⟩ := h i hseen f hf j (List.mem_of_mem_erase hj) hfield
        rcases List.mem_cons.mp hl' with rfl | hl'
        · rw [hl] at hsame'
          exact absurd (Option.some.inj hsame' ▸ hj) hgone
        · exact ⟨l', List.mem_append_right _ hl', hsame'⟩
    refine ⟨hend, List.forall_mem_cons.mpr ⟨fun j hj hmem => ?_, fun l' hl' => ?_⟩⟩
    · have herased := r.unreached_subset _ _ hmem
      rw [← Option.some.inj (hl.symm.trans hj)] at herased
      exact hgone herased
    · exact hmet l' (List.mem_append_right _ hl')
  | case4 unseen l work id hl hid ih =>
    rw [unreached, hl]
    simp only [hid, dite_false]
    obtain ⟨hend, hmet⟩ := ih hnodup fun i hi f hf j hj hfield => by
      obtain ⟨l', hl', hsame⟩ := h i hi f hf j hj hfield
      rcases List.mem_cons.mp hl' with rfl | hl'
      · rw [hl] at hsame
        exact absurd (Option.some.inj hsame ▸ hj) hid
      · exact ⟨l', hl', hsame⟩
    refine ⟨hend, List.forall_mem_cons.mpr ⟨fun j hj hmem => ?_, hmet⟩⟩
    have hunseen := r.unreached_subset _ _ hmem
    rw [← Option.some.inj (hl.symm.trans hj)] at hunseen
    exact hid hunseen

/-- What is no record has no fields. -/
theorem fields_eq_nil {r : Registry} {id : RecordId} (h : id ∉ r.ids) : r.fields id = [] := by
  have hnone : r.record? id = none := by
    rw [record?, List.find?_eq_none]
    intro record hrecord hid
    exact h (List.mem_map.mpr ⟨record, hrecord, by simpa using hid⟩)
  rw [fields, hnone]
  rfl

/-- The records that get a name are those within the roots. -/
theorem mem_reachable_iff {r : Registry} (hr : r.WellFormed) {roots : List Layout} {id : RecordId} :
    id ∈ r.reachable roots ↔ id ∈ r.ids ∧ r.Within roots (.record id) := by
  have hnodup : r.ids.Nodup := hr.ids ▸ List.nodup_range'
  rw [reachable, List.mem_filter, decide_eq_true_eq]
  refine and_congr_right fun hid => ⟨r.within_of_notMem_unreached _ _ hid, fun h => ?_⟩
  have hstart : r.Explored r.ids roots := by
    intro i hi f hf
    rw [fields_eq_nil hi] at hf
    cases hf
  obtain ⟨hend, hmet⟩ := r.unreached_explored hnodup hstart
  -- Whatever is within the roots leads to records that were met.
  have hwithin {l : Layout} (h : r.Within roots l) :
      ∀ j, l.recordId? = some j → j ∉ r.unreached r.ids roots := by
    induction h with
    | root h => exact hmet _ h
    | elem _ he ih =>
      rw [← Layout.recordId?_of_elem? he]
      exact ih
    | @field i f _ hf ih =>
      intro j hj hmem
      obtain ⟨l, hl, -⟩ := hend i (ih i rfl) f hf j hmem hj
      cases hl
  exact hwithin h id rfl

/-! ## Names -/

/-- `NamedAfter taken hint name`: how a record is named by its hint when some names are taken. -/
inductive NamedAfter (taken : String → Prop) : (hint name : String) → Prop where
  /-- The hint with `_t`, if that is free. -/
  | plain {hint : String} (hhint : hint ≠ "") (hfree : ¬ taken (hint ++ "_t")) :
    NamedAfter taken hint (hint ++ "_t")
  /-- Else the least number from 2 on stands in between that makes it free. -/
  | numbered {hint : String} {k : Nat} (hhint : hint ≠ "") (hk : 2 ≤ k)
    (htaken : taken (hint ++ "_t"))
    (hbefore : ∀ j, 2 ≤ j → j < k → taken (hint ++ "_" ++ toString j ++ "_t"))
    (hfree : ¬ taken (hint ++ "_" ++ toString k ++ "_t")) :
    NamedAfter taken hint (hint ++ "_" ++ toString k ++ "_t")
  /-- Without a hint, the least number that makes the name free. -/
  | anonymous {k : Nat} (hbefore : ∀ j < k, taken ("struct_" ++ toString j ++ "_t"))
    (hfree : ¬ taken ("struct_" ++ toString k ++ "_t")) :
    NamedAfter taken "" ("struct_" ++ toString k ++ "_t")

namespace NamedAfter

variable {taken taken' : String → Prop} {hint name : String}

/-- A name that is given is free. -/
theorem free (h : NamedAfter taken hint name) : ¬ taken name := by
  cases h with
  | plain _ hfree | numbered _ _ _ _ hfree | anonymous _ hfree => exact hfree

/-- How a record is named depends on which names are taken alone. -/
theorem congr (h : NamedAfter taken hint name) (hsame : ∀ name, taken name ↔ taken' name) :
    NamedAfter taken' hint name := by
  obtain rfl : taken = taken' := funext fun name => propext (hsame name)
  exact h

/-- A name made from an identifier is one, and so is a name made without a hint. -/
theorem isIdentifier (h : NamedAfter taken hint name) (hhint : hint = "" ∨ IsIdentifier hint) :
    IsIdentifier name := by
  cases h with
  | plain hne _ => exact isIdentifier_hintedName (hhint.resolve_left hne) 1
  | @numbered _ k hne hk _ _ _ =>
    have hname := isIdentifier_hintedName (hhint.resolve_left hne) k
    rwa [hintedName, if_neg (by omega)] at hname
  | anonymous _ _ => exact isIdentifier_anonymousName _

end NamedAfter

/-- All numbers below the one that records without hint go on with were tried: their names are
taken. -/
def Names.Tried (names : Names) : Prop := ∀ j < names.anonymous, anonymousName j ∈ names.used

/-- At first no number was tried. -/
theorem Names.tried_empty : ({} : Names).Tried := fun _ hj => by cases hj

/-- One name is given. -/
theorem Names.give_spec {names : Names} (h : names.Tried) (hint : String) :
    NamedAfter (· ∈ names.used) hint (names.give hint).1 ∧ (names.give hint).2.Tried
      ∧ (names.give hint).2.used = (names.give hint).1 :: names.used := by
  by_cases hhint : hint = ""
  · have hinj : ∀ i j, names.anonymous ≤ i → names.anonymous ≤ j →
        anonymousName i = anonymousName j → i = j := fun _ _ _ _ => anonymousName_injective
    obtain ⟨-, hfree, hbefore⟩ := firstFree_least names.used hinj
    -- Numbers from the start of the series are tried by now, whoever has their names.
    have htried : ∀ j < firstFree names.used anonymousName names.anonymous,
        anonymousName j ∈ names.used := by
      intro j hj
      by_cases hearlier : j < names.anonymous
      · exact h j hearlier
      · exact hbefore j (by omega) hj
    rw [give, if_pos hhint]
    subst hhint
    refine ⟨.anonymous htried hfree, fun j hj => ?_, rfl⟩
    rcases Nat.lt_succ_iff_lt_or_eq.mp hj with hj | rfl
    · exact List.mem_cons_of_mem _ (htried j hj)
    · exact List.mem_cons_self ..
  · have hinj : ∀ i j, 1 ≤ i → 1 ≤ j → hintedName hint i = hintedName hint j → i = j :=
      fun _ _ _ _ => hintedName_injective
    obtain ⟨hstart, hfree, hbefore⟩ := firstFree_least names.used hinj
    rw [give, if_neg hhint]
    refine ⟨?_, fun j hj => List.mem_cons_of_mem _ (h j hj), rfl⟩
    show NamedAfter _ hint (hintedName hint (firstFree names.used (hintedName hint) 1))
    generalize firstFree names.used (hintedName hint) 1 = k at hstart hfree hbefore ⊢
    by_cases hk : k = 1
    · rw [hk] at hfree ⊢
      exact .plain hhint hfree
    · rw [hintedName, if_neg hk] at hfree ⊢
      refine .numbered hhint (by omega) (hbefore 1 (le_refl 1) (by omega)) (fun j hj hlt => ?_) hfree
      have hmem := hbefore j (by omega) hlt
      rwa [hintedName, if_neg (by omega)] at hmem

/-- A record that is to be named takes its name, and the others are named after it. -/
theorem named_cons_of_mem {ids : List RecordId} {record : Record} (h : record.id ∈ ids) (names : Names)
    (records : List Record) : named ids names (record :: records)
      = { record with name := (names.give record.hint).1 }
        :: named ids (names.give record.hint).2 records := by
  rw [named, if_pos h]

/-- A record that is not to be named is left as it is. -/
theorem named_cons_of_notMem {ids : List RecordId} {record : Record} (h : record.id ∉ ids)
    (names : Names) (records : List Record) :
    named ids names (record :: records) = record :: named ids names records := by
  rw [named, if_neg h]

/-- Every record that gets a name is named after those before it. -/
theorem named_split {ids : List RecordId} {names : Names} (h : names.Tried) {records : List Record}
    {before after : List Record} {a : Record}
    (hsplit : named ids names records = before ++ a :: after) (ha : a.id ∈ ids) :
    NamedAfter (fun name => name ∈ names.used ∨ ∃ b ∈ before, b.id ∈ ids ∧ b.name = name)
      a.hint a.name := by
  induction records generalizing names before with
  | nil => simp [named] at hsplit
  | cons record records ih =>
    obtain ⟨hname, htried, hused⟩ := Names.give_spec h record.hint
    by_cases hid : record.id ∈ ids
    · rw [named_cons_of_mem hid] at hsplit
      cases before with
      | nil =>
        rw [← (List.cons.inj hsplit).1]
        exact hname.congr (by simp)
      | cons b before =>
        obtain ⟨hb, hrest⟩ := List.cons.inj hsplit
        -- The name that was given first is taken for all others.
        refine (ih htried hrest).congr fun name => ?_
        rw [hused, ← hb]
        simp [hid, eq_comm, or_assoc, or_left_comm]
    · rw [named_cons_of_notMem hid] at hsplit
      cases before with
      | nil =>
        rw [← (List.cons.inj hsplit).1] at ha
        exact absurd ha hid
      | cons b before =>
        obtain ⟨hb, hrest⟩ := List.cons.inj hsplit
        refine (ih h hrest).congr fun name => ?_
        rw [← hb]
        simp [hid]

/-- The other records are left alone. -/
theorem mem_named_of_notMem {ids : List RecordId} {names : Names} {records : List Record} {a : Record}
    (ha : a ∈ records) (hid : a.id ∉ ids) : a ∈ named ids names records := by
  induction records generalizing names with
  | nil => cases ha
  | cons record records ih =>
    rcases List.mem_cons.mp ha with rfl | ha
    · rw [named_cons_of_notMem hid]
      exact List.mem_cons_self ..
    · by_cases hrecord : record.id ∈ ids
      · rw [named_cons_of_mem hrecord]
        exact List.mem_cons_of_mem _ (ih ha)
      · rw [named_cons_of_notMem hrecord]
        exact List.mem_cons_of_mem _ (ih ha)

/-- A record has the name that it had before, or one that is given now. -/
theorem mem_or_mem_of_mem_named {ids : List RecordId} {names : Names} {records : List Record}
    {a : Record} (ha : a ∈ named ids names records) : a.id ∈ ids ∨ a ∈ records := by
  induction records generalizing names with
  | nil => cases ha
  | cons record records ih =>
    by_cases hrecord : record.id ∈ ids
    · rw [named_cons_of_mem hrecord] at ha
      rcases List.mem_cons.mp ha with rfl | ha
      · exact .inl hrecord
      · exact (ih ha).imp_right (List.mem_cons_of_mem _)
    · rw [named_cons_of_notMem hrecord] at ha
      rcases List.mem_cons.mp ha with rfl | ha
      · exact .inr (List.mem_cons_self ..)
      · exact (ih ha).imp_right (List.mem_cons_of_mem _)

/-! ## Spelling -/

/-- All hints and names are identifiers. -/
def Spelled (r : Registry) : Prop := ∀ record ∈ r.records, record.Spelled

/-- Registering a record keeps names identifiers. -/
theorem Spelled.register {r : Registry} (h : r.Spelled) (hint : String) (fields : List Field) :
    (r.register hint fields).2.Spelled := by
  rcases r.register_cases hint fields with ⟨id, -, heq⟩ | ⟨-, heq⟩
  · rwa [heq]
  · rw [heq]
    exact List.forall_mem_append.mpr
      ⟨h, by simpa using ⟨isIdentifier_identifier hint, .inl rfl⟩⟩

/-- Closing a record over itself leaves its name alone. -/
theorem Spelled.closeSelf {r : Registry} (h : r.Spelled) (id : RecordId) :
    (r.closeSelf id).Spelled := by
  intro record' hrecord'
  obtain ⟨record, hrecord, rfl⟩ := List.mem_map.mp hrecord'
  split
  · exact ⟨(h record hrecord).hint, (h record hrecord).name⟩
  · exact h record hrecord

/-- Extending a record keeps names identifiers. -/
theorem Spelled.extend {r : Registry} (h : r.Spelled) (id : RecordId) (hint : String)
    (added : List Field) (self : List String) : (r.extend id hint added self).2.Spelled := by
  rw [Registry.extend]
  split
  · exact h
  · exact (h.register _ _).closeSelf _

/-- Making a container leaves names alone. -/
theorem Spelled.make {r : Registry} (h : r.Spelled) (w : Wrapper) (elem : Layout) :
    (r.make w elem).2.Spelled := by
  rw [make_eq_intern]
  rcases r.intern_cases (w.around elem) with ⟨-, heq⟩ | ⟨kept, -, -, heq⟩ | ⟨-, c, heq⟩
  all_goals
    rw [heq]
    exact h

/-- Final names are identifiers. -/
theorem Spelled.finalize {r : Registry} (h : r.Spelled) (roots : List Layout) :
    (r.finalize roots).2.Spelled := by
  intro a ha
  have hhint : a.hint = "" ∨ IsIdentifier a.hint := by
    obtain ⟨record, hrecord, name, rfl⟩ := exists_of_mem_right (r.records_finalize roots) ha
    exact (h record hrecord).hint
  rcases mem_or_mem_of_mem_named ha with hid | hold
  · obtain ⟨before, after, hsplit⟩ := List.append_of_mem ha
    have hnamed := named_split Names.tried_empty hsplit hid
    exact ⟨hhint, .inr (hnamed.isIdentifier hhint)⟩
  · exact h a hold

/-- In every registry that is reached names are identifiers. -/
theorem Reached.spelled {r : Registry} (h : r.Reached) : r.Spelled := by
  induction h with
  | start => exact fun _ h => by cases h
  | register _ hint fields _ ih => exact ih.register hint fields
  | extend _ id _ hint added _ self ih => exact ih.extend id hint added self
  | make _ w elem _ ih => exact ih.make w elem
  | finalize _ roots ih => exact ih.finalize roots

/-- Every name by which a record is written is an identifier. -/
theorem Spelled.isIdentifier_recordName {r : Registry} (h : r.Spelled) (id : RecordId) :
    IsIdentifier (r.recordName id) := by
  rw [recordName]
  split
  · next record hrecord =>
    obtain ⟨hhint, hname⟩ := h record (List.mem_of_find?_eq_some hrecord)
    rw [Record.displayName]
    split
    · next hne => exact hname.resolve_left hne
    · split
      · next hne => exact isIdentifier_hintedName (hhint.resolve_left hne) 1
      · exact isIdentifier_anonymousName _
  · exact isIdentifier_anonymousName _

/-! ## Giving final names -/

/-- What giving final names to the records within `roots` answers: the numbers `listed`, and the
registry `r'`. -/
structure Finalizes (r : Registry) (roots : List Layout) (listed : List RecordId) (r' : Registry) :
    Prop where
  /-- Records change in their names alone. -/
  renamed : List.Forall₂ Renamed r.records r'.records
  /-- Numbers are listed in the order of registration, each once. -/
  ordered : listed.Sublist r.ids ∧ listed.Nodup
  listed_iff : ∀ id, id ∈ listed ↔ id ∈ r.ids ∧ r.Within roots (.record id) ∧ r.fields id ≠ []
  /-- Records within the roots have different names, all of them identifiers. -/
  distinct : ∀ a ∈ r'.records, ∀ b ∈ r'.records, r.Within roots (.record a.id) →
    r.Within roots (.record b.id) → a.name = b.name → a = b
  identifiers : ∀ a ∈ r'.records, r.Within roots (.record a.id) → IsIdentifier a.name
  /-- Each of them is named after those before it. -/
  rule : ∀ before a after, r'.records = before ++ a :: after → r.Within roots (.record a.id) →
    NamedAfter (fun name => ∃ b ∈ before, r.Within roots (.record b.id) ∧ b.name = name)
      a.hint a.name
  /-- All other records are as they were. -/
  others : ∀ a ∈ r.records, ¬ r.Within roots (.record a.id) → a ∈ r'.records

section Finalize

variable {r : Registry} (hr : r.WellFormed) (roots : List Layout)

include hr

/-- The search finds exactly the records within the roots. -/
theorem mem_reachable_of_mem {a : Record} (ha : a ∈ (r.finalize roots).2.records) :
    a.id ∈ r.reachable roots ↔ r.Within roots (.record a.id) := by
  have hid : a.id ∈ (r.finalize roots).2.ids := List.mem_map_of_mem ha
  rw [ids_finalize] at hid
  rw [mem_reachable_iff hr]
  exact and_iff_right hid

/-- Every record within the roots is named after those before it. -/
theorem finalize_rule {before after : List Record} {a : Record}
    (hsplit : (r.finalize roots).2.records = before ++ a :: after)
    (ha : r.Within roots (.record a.id)) :
    NamedAfter (fun name => ∃ b ∈ before, r.Within roots (.record b.id) ∧ b.name = name)
      a.hint a.name := by
  have hid := (mem_reachable_of_mem hr roots (a := a) (by simp [hsplit])).mpr ha
  refine (named_split Names.tried_empty hsplit hid).congr fun name => ?_
  simp only [List.not_mem_nil, false_or]
  refine exists_congr fun b => and_congr_right fun hb => and_congr_left fun _ => ?_
  exact mem_reachable_of_mem hr roots (by simp [hsplit, hb])

/-- A name is not given to a second record. -/
theorem finalize_distinct {a b : Record} (ha : a ∈ (r.finalize roots).2.records)
    (hb : b ∈ (r.finalize roots).2.records) (hra : r.Within roots (.record a.id))
    (hrb : r.Within roots (.record b.id)) (hname : a.name = b.name) : a = b := by
  obtain ⟨before, after, hsplit⟩ := List.append_of_mem hb
  rw [hsplit, List.mem_append, List.mem_cons] at ha
  rcases ha with hbefore | rfl | hafter
  · exact absurd ⟨a, hbefore, hra, hname⟩ (finalize_rule hr roots hsplit hrb).free
  · rfl
  · obtain ⟨between, rest, rfl⟩ := List.append_of_mem hafter
    have hsplit' : (r.finalize roots).2.records = (before ++ b :: between) ++ a :: rest := by
      rw [hsplit, List.append_assoc, List.cons_append]
    exact absurd ⟨b, by simp, hrb, hname.symm⟩ (finalize_rule hr roots hsplit' hra).free

/-- The records that are listed are those within the roots that have fields. -/
theorem mem_listed_iff {id : RecordId} : id ∈ (r.finalize roots).1
    ↔ id ∈ r.ids ∧ r.Within roots (.record id) ∧ r.fields id ≠ [] := by
  have hfinal := hr.finalize roots
  -- A record is listed by what it is after it got its name.
  have hmem : id ∈ (r.finalize roots).1
      ↔ ∃ a ∈ (r.finalize roots).2.records, a.id = id ∧ id ∈ r.reachable roots ∧ a.fields ≠ [] := by
    show id ∈ List.map _ (List.filter _ (r.finalize roots).2.records) ↔ _
    simp only [List.mem_map, List.mem_filter, decide_eq_true_eq, Bool.not_eq_true',
      List.isEmpty_eq_false_iff]
    constructor
    · rintro ⟨a, ⟨ha, hid, hfields⟩, rfl⟩
      exact ⟨a, ha, rfl, hid, hfields⟩
    · rintro ⟨a, ha, rfl, hid, hfields⟩
      exact ⟨a, ⟨ha, hid, hfields⟩, rfl⟩
  have hfields {a : Record} (ha : a ∈ (r.finalize roots).2.records) : r.fields a.id = a.fields := by
    have hid : a.id ∈ (r.finalize roots).2.ids := List.mem_map_of_mem ha
    rw [← (r.le_finalize roots).fields a.id (r.ids_finalize roots ▸ hid), fields,
      record?_of_mem hfinal ha]
    rfl
  rw [hmem, ← and_assoc, ← mem_reachable_iff hr]
  constructor
  · rintro ⟨a, ha, rfl, hid, hne⟩
    exact ⟨hid, by rwa [hfields ha]⟩
  · rintro ⟨hid, hne⟩
    have hids := ((mem_reachable_iff hr).mp hid).1
    rw [← ids_finalize r roots] at hids
    obtain ⟨a, ha, rfl⟩ := List.mem_map.mp hids
    exact ⟨a, ha, rfl, hid, by rwa [← hfields ha]⟩

end Finalize

/-- Every registry that is reached is given its final names as described. -/
theorem finalizes_of_reached {r : Registry} (h : r.Reached) (roots : List Layout) :
    r.Finalizes roots (r.finalize roots).1 (r.finalize roots).2 := by
  have hr := h.filed.wellFormed
  have hsublist : (r.finalize roots).1.Sublist r.ids := by
    rw [← ids_finalize r roots]
    exact List.filter_sublist.map _
  constructor
  case renamed => exact r.records_finalize roots
  case ordered => exact ⟨hsublist, hsublist.nodup (hr.ids ▸ List.nodup_range')⟩
  case listed_iff => exact fun id => mem_listed_iff hr roots
  case distinct => exact fun a ha b hb => finalize_distinct hr roots ha hb
  case identifiers =>
    intro a ha hwithin
    obtain ⟨before, after, hsplit⟩ := List.append_of_mem ha
    exact (finalize_rule hr roots hsplit hwithin).isIdentifier (h.spelled.finalize roots a ha).hint
  case rule => exact fun before a after hsplit => finalize_rule hr roots hsplit
  case others =>
    intro a ha hnot
    exact mem_named_of_notMem ha fun hid => hnot ((mem_reachable_iff hr).mp hid).2

end Registry

/-! ## Results -/

namespace Result

/-- The layouts of variables and of what functions return. -/
def roots (r : Result) : List Layout := r.bindings.map (·.layout) ++ r.functions.map (·.returned)

/-- The layouts that a result mentions: those of variables, of what functions return and of the fields
of listed records. -/
def mentioned (r : Result) : List Layout :=
  r.roots ++ r.records.flatMap fun record => record.fields.map (·.layout)

variable {s : Subject} {outcome : Subject.Outcome}

/-- The roots of a result are known layouts. -/
theorem knows_roots (h : outcome.state.WellFormed) :
    ∀ l ∈ (ofOutcome s outcome).roots, outcome.state.registry.Knows l := by
  refine List.forall_mem_append.mpr ⟨fun l hl => ?_, fun l hl => ?_⟩
  · obtain ⟨b, hb, rfl⟩ := List.mem_map.mp hl
    obtain ⟨v, hv, rfl⟩ := List.mem_map.mp hb
    rw [Variable.binding]
    split
    · exact Registry.knows_scalar _ _
    · exact (h.vars v hv).winner
  · obtain ⟨signature, hsignature, rfl⟩ := List.mem_map.mp hl
    obtain ⟨routine, hroutine, rfl⟩ := List.mem_map.mp hsignature
    have hret := (h.routines routine (List.mem_of_mem_filter hroutine)).ret
    show outcome.state.registry.Knows routine.shownReturn
    rw [Routine.shownReturn]
    split
    · exact View.knows_returned hret
    · split
      · exact hret
      · exact Registry.knows_scalar _ _

/-- Every layout that a result mentions is within its roots. -/
theorem within_of_mentioned (h : outcome.state.WellFormed) {l : Layout}
    (hl : l ∈ (ofOutcome s outcome).mentioned) :
    outcome.state.registry.Within (ofOutcome s outcome).roots l := by
  rcases List.mem_append.mp hl with hl | hl
  · exact .root hl
  · obtain ⟨record, hrecord, hl⟩ := List.mem_flatMap.mp hl
    obtain ⟨f, hf, rfl⟩ := List.mem_map.mp hl
    obtain ⟨id, hid, hfound⟩ := List.mem_filterMap.mp hrecord
    obtain ⟨hids, hwithin, -⟩ := (Registry.mem_listed_iff h.store.registry _).mp hid
    refine hwithin.field (f := f) ?_
    rw [← (Registry.le_finalize _ (ofOutcome s outcome).roots).fields id hids, Registry.fields]
    exact Option.mem_def.mp hfound ▸ hf

/-- A record that is mentioned is listed, or has no fields. -/
theorem listed_of_mentioned (h : outcome.state.WellFormed) {l : Layout}
    (hl : l ∈ (ofOutcome s outcome).mentioned) {id : RecordId} (hid : l.recordId? = some id) :
    ∃ record, (ofOutcome s outcome).state.registry.record? id = some record
      ∧ (record ∈ (ofOutcome s outcome).records ∨ record.fields = []) := by
  have hr := h.store.registry
  have hwithin := within_of_mentioned h hl
  have hids : id ∈ outcome.state.registry.ids := hwithin.knows hr (knows_roots h) id hid
  have hids' : id ∈ (ofOutcome s outcome).state.registry.ids := by
    show id ∈ (outcome.state.registry.finalize (ofOutcome s outcome).roots).2.ids
    rwa [Registry.ids_finalize]
  obtain ⟨record, hrecord, rfl⟩ := List.mem_map.mp hids'
  have hfound := Registry.record?_of_mem (hr.finalize (ofOutcome s outcome).roots) hrecord
  refine ⟨record, hfound, ?_⟩
  by_cases hfields : record.fields = []
  · exact .inr hfields
  · refine .inl (List.mem_filterMap.mpr ⟨record.id, ?_, hfound⟩)
    refine (Registry.mem_listed_iff hr _).mpr ⟨hids, hwithin.record hid, ?_⟩
    rw [← (Registry.le_finalize _ (ofOutcome s outcome).roots).fields record.id hids, Registry.fields,
      hfound]
    exact hfields

end Result

/-- Giving final names is exact. In every registry that is reached, and for all roots, the records that
have fields and are within the roots are listed, each once and in the order of registration; all
records within the roots get different identifiers as names, by their hints and in this order; and
nothing else changes. So whatever a run shows mentions no record that is not listed, unless that has no
fields. -/
theorem finalize_exact :
    (∀ r : Registry, r.Reached → ∀ roots : List Layout,
        r.Finalizes roots (r.finalize roots).1 (r.finalize roots).2)
      ∧ ∀ (source : Source) (script : Script) (p : Program),
        Program.ofScript source script = .ok p → ∀ (max : Int) (result : Result),
          infer p max = .ok result → ∀ l ∈ result.mentioned, ∀ id, l.recordId? = some id →
            ∃ record, result.state.registry.record? id = some record
              ∧ (record ∈ result.records ∨ record.fields = []) := by
  refine ⟨fun r h roots => Registry.finalizes_of_reached h roots, ?_⟩
  intro source script p hp max result hresult l hl id hid
  have hnumbered : (Subject.of p).program.Numbered := Program.ofScript_numbered hp
  obtain ⟨bound, rfl⟩ :
      ∃ bound, result = Result.ofOutcome (Subject.of p) ((Subject.of p).resolve bound) :=
    ⟨_, (infer_eq_ok_iff.mp hresult).1⟩
  obtain ⟨hregular, -, -⟩ := Subject.resolve_ends hnumbered bound
  exact Result.listed_of_mentioned hregular.wellFormed hl hid

/-- A registry in which a hint looks like the second name made from another one, and a record without
hint holds itself. -/
def Registry.collidingHints : Registry :=
  let objects := ({} : Registry).register "obj" [⟨"a", .integer⟩]
  let others := objects.2.register "obj" [⟨"b", .dynamic (.record 1)⟩]
  let lookalike := others.2.register "obj_2" [⟨"c", .integer⟩]
  let empty := lookalike.2.register "" []
  (empty.2.extend 4 "" [⟨"owner", .record 2⟩] ["next"]).2

/-- The registry is reached by four registrations and an extension. -/
theorem Registry.collidingHints_reached : collidingHints.Reached := by
  refine ((((Reached.start.register "obj" _ ?_).register "obj" _ ?_).register "obj_2" _
    ?_).register "" _ ?_).extend 4 ?_ "" _ ?_ ["next"]
  · simp
  · intro f hf id hid
    rw [List.mem_singleton.mp hf] at hid
    obtain rfl : 1 = id := Option.some.inj hid
    decide +kernel
  · simp
  · simp
  · decide +kernel
  · intro f hf id hid
    rw [List.mem_singleton.mp hf] at hid
    obtain rfl : 2 = id := Option.some.inj hid
    decide +kernel

/-- `let x = {a: {}};` -/
def Script.nestedRecord : Script :=
  ⟨[declares "x" (.object ⟨0, 0⟩ [memberOf "a" (.object ⟨0, 0⟩ [])])]⟩

/-- All but the empty record 4 are within the record that holds itself and the one with the hint
`obj_2`. In the run the record of `x` is listed, and that of its property has no fields. -/
theorem finalize_exact_collidingHints :
    Registry.collidingHints.Reached
      ∧ Registry.collidingHints.Finalizes [.fixed (.record 5) 3, .record 3] [1, 2, 3, 5]
        (Registry.collidingHints.finalize [.fixed (.record 5) 3, .record 3]).2
      ∧ (Registry.collidingHints.finalize [.fixed (.record 5) 3, .record 3]).2.records.map (·.name)
        = ["obj_t", "obj_2_t", "obj_2_2_t", "", "struct_0_t"]
      ∧ ∃ result, infer Script.nestedRecord.program 64 = .ok result
        ∧ (∃ l ∈ result.mentioned, l.isRecord = true)
        ∧ ∀ l ∈ result.mentioned, ∀ id, l.recordId? = some id →
          ∃ record, result.state.registry.record? id = some record
            ∧ (record ∈ result.records ∨ record.fields = []) := by
  have hlisted : (Registry.collidingHints.finalize [.fixed (.record 5) 3, .record 3]).1
      = [1, 2, 3, 5] := by cbv
  have hfinalizes := finalize_exact.1 _ Registry.collidingHints_reached
    [.fixed (.record 5) 3, .record 3]
  rw [hlisted] at hfinalizes
  have hscript := Script.ofScript_eq_ok Script.nestedRecord (by decide +kernel)
  have hrun : infer Script.nestedRecord.program 64
      = .ok (runInference Script.nestedRecord.program 64) :=
    infer_eq_ok_iff.mpr ⟨rfl, by decide +kernel⟩
  have hrecord : ∃ l ∈ (runInference Script.nestedRecord.program 64).roots, l.isRecord = true := by
    decide +kernel
  obtain ⟨l, hl, hrecord⟩ := hrecord
  exact ⟨Registry.collidingHints_reached, hfinalizes, by cbv, _, hrun,
    ⟨l, List.mem_append_left _ hl, hrecord⟩, finalize_exact.2 _ _ _ hscript 64 _ hrun⟩

end LayoutInference
