import Mathlib
import LayoutInference.Inference.Derivation
import LayoutInference.Layout.FinalName
import LayoutInference.Proofs.Interning

/-!
# Growing registries

Deriving layouts registers records and containers on the way, so the same question may be asked in
different states. This module says why that does no harm: a registry only grows, what it has once
answered it answers again, and asking again changes nothing.

`Runs again Q m s` collects what is needed of a computation `m` started in the state `s`: it keeps the
state sound, the state only grows, the answer satisfies `Q`, and, if `again` holds, `m` repeats:
started anew in any later state it gives the same answer and leaves that state as it is. `Runs.bind`
composes such computations; the operations on registries are the base cases.

The order on registries leaves names out, so that it does not matter whether final names were given.
-/

namespace LayoutInference

/-! ## Computations on growing states -/

/-- Kinds of state that grow: an order in which later states are greater, and what makes a state
sound. -/
class Ledger (σ : Type) extends Preorder σ where
  Sound : σ → Prop

open Ledger (Sound)

theorem get_bind_apply {σ β : Type} (f : σ → StateM σ β) (s : σ) : (get >>= f) s = f s s := rfl

/-- A bind runs the second computation on the answer and the state of the first. -/
theorem bind_apply {σ α β : Type} (m : StateM σ α) (f : α → StateM σ β) (s : σ) :
    (m >>= f) s = f (m s).1 (m s).2 := rfl

/-- What is asked of a computation `m` started in `s`; see the head of this module. -/
structure Runs {σ α : Type} [Ledger σ] (again : Prop) (Q : α → σ → Prop) (m : StateM σ α) (s : σ) :
    Prop where
  sound : Sound (m s).2
  grows : s ≤ (m s).2
  holds : Q (m s).1 (m s).2
  repeats : again → ∀ s', Sound s' → (m s).2 ≤ s' → m s' = ((m s).1, s')

namespace Runs

variable {σ α β : Type} [Ledger σ] {again : Prop} {Q Q' : α → σ → Prop} {R : β → σ → Prop}
  {m : StateM σ α} {f : α → StateM σ β} {s : σ}

/-- An answer alone runs in every sound state. -/
theorem pure {a : α} (hs : Sound s) (ha : Q a s) : Runs again Q (Pure.pure a : StateM σ α) s :=
  ⟨hs, le_refl s, ha, fun _ _ _ _ => rfl⟩

/-- What an answer satisfies may be weakened. -/
theorem imp (h : Runs again Q m s) (himp : Q (m s).1 (m s).2 → Q' (m s).1 (m s).2) :
    Runs again Q' m s :=
  ⟨h.sound, h.grows, himp h.holds, h.repeats⟩

/-- A computation that adds something to the state, and finds it there when it is repeated. -/
theorem of_eq {a : α} {t : σ} (heq : m s = (a, t)) (ht : Sound t) (hle : s ≤ t) (ha : Q a t)
    (hagain : again → ∀ s', Sound s' → t ≤ s' → m s' = (a, s')) : Runs again Q m s := by
  constructor <;> rw [heq]
  · exact ht
  · exact hle
  · exact ha
  · exact hagain

/-- A computation that finds its answer in the state. -/
theorem found {a : α} (hs : Sound s) (ha : Q a s) (hm : ∀ s', Sound s' → s ≤ s' → m s' = (a, s')) :
    Runs again Q m s :=
  of_eq (hm s hs (le_refl s)) hs (le_refl s) ha fun _ => hm

/-- One computation after the other. -/
theorem bind (hm : Runs again Q m s)
    (hf : ∀ a s', Sound s' → s ≤ s' → Q a s' → Runs again R (f a) s') :
    Runs again R (m >>= f) s := by
  have hrest := hf (m s).1 (m s).2 hm.sound hm.grows hm.holds
  refine ⟨hrest.sound, hm.grows.trans hrest.grows, hrest.holds, ?_⟩
  intro ha s' hs' hle
  -- What is later than the end is later than the middle, so both halves repeat.
  have hfirst : m s' = ((m s).1, s') := hm.repeats ha s' hs' (hrest.grows.trans hle)
  calc (m >>= f) s' = f (m s').1 (m s').2 := bind_apply m f s'
    _ = f (m s).1 s' := by rw [hfirst]
    _ = ((f (m s).1 (m s).2).1, s') := hrest.repeats ha s' hs' hle

/-- A computation whose answer is turned into another one. -/
theorem map (h : Runs again Q m s) (g : α → β) (hg : ∀ a s', Q a s' → R (g a) s') :
    Runs again R (fun s' => (g (m s').1, (m s').2)) s := by
  refine ⟨h.sound, h.grows, hg _ _ h.holds, ?_⟩
  intro ha s' hs' hle
  show (g (m s').1, (m s').2) = _
  rw [h.repeats ha s' hs' hle]

/-- A computation that first looks something up which later states do not change. -/
theorem read {γ : Type} {g : σ → γ} {k : γ → StateM σ β} (h : Runs again R (k (g s)) s)
    (hstable : again → ∀ s', s ≤ s' → g s' = g s) :
    Runs again R (fun s' => k (g s') s') s := by
  refine ⟨h.sound, h.grows, h.holds, ?_⟩
  intro ha s' hs' hle
  show k (g s') s' = _
  rw [hstable ha s' (h.grows.trans hle)]
  exact h.repeats ha s' hs' hle

/-- A computation that depends on the state it starts in, and is run once. -/
theorem get {f : σ → StateM σ β} (h : Runs False R (f s) s) : Runs False R (MonadState.get >>= f) s :=
  ⟨h.sound, h.grows, h.holds, False.elim⟩

end Runs

/-! ## Registries -/

namespace Registry

/-- Whether all records that a layout is made of are registered. -/
def Knows (r : Registry) (l : Layout) : Prop := ∀ id, l.recordId? = some id → id ∈ r.ids

/-- `Grown r r'`: the registry `r'` has all that `r` has. Final names are left out. -/
structure Grown (r r' : Registry) : Prop where
  ids : ∀ id ∈ r.ids, id ∈ r'.ids
  fields : ∀ id ∈ r.ids, r'.fields id = r.fields id
  hint : ∀ id ∈ r.ids, r'.hint id = r.hint id
  bodies : ∀ key id, r.bodies.lookup key = some id → r'.bodies.lookup key = some id
  containers : ∀ key l, r.containers.lookup key = some l → r'.containers.lookup key = some l
  clash : r.clash ≠ none → r'.clash = r.clash

/-- What holds of every registry: records are numbered in order, and all records that bodies, fields
and containers refer to are registered. -/
structure WellFormed (r : Registry) : Prop where
  ids : r.ids = List.range' 1 r.records.length
  bodies : ∀ key id, r.bodies.lookup key = some id → id ∈ r.ids
  fields : ∀ record ∈ r.records, ∀ f ∈ record.fields, r.Knows f.layout
  containers : ∀ key l, r.containers.lookup key = some l → r.Knows l

/-- A registry has all that it has. -/
theorem Grown.refl (r : Registry) : r.Grown r :=
  ⟨fun _ h => h, fun _ _ => rfl, fun _ _ => rfl, fun _ _ h => h, fun _ _ h => h, fun _ => rfl⟩

/-- A registry that has grown twice has grown. -/
theorem Grown.trans {r r' r'' : Registry} (h : r.Grown r') (h' : r'.Grown r'') : r.Grown r'' where
  ids id hid := h'.ids id (h.ids id hid)
  fields id hid := (h'.fields id (h.ids id hid)).trans (h.fields id hid)
  hint id hid := (h'.hint id (h.ids id hid)).trans (h.hint id hid)
  bodies key id hid := h'.bodies key id (h.bodies key id hid)
  containers key l hl := h'.containers key l (h.containers key l hl)
  clash hne := by
    have heq := h.clash hne
    rw [h'.clash (heq ▸ hne), heq]

instance : Ledger Registry where
  le := Grown
  le_refl := Grown.refl
  le_trans _ _ _ := Grown.trans
  Sound := WellFormed

/-- Records stay known as a registry grows. -/
theorem Knows.mono {r r' : Registry} (h : r ≤ r') {l : Layout} (hl : r.Knows l) : r'.Knows l :=
  fun id hid => h.ids id (hl id hid)

@[simp] theorem knows_missing (r : Registry) : r.Knows .missing :=
  fun _ h => absurd h (by simp [Layout.recordId?])

@[simp] theorem knows_scalar (r : Registry) (k : Scalar) : r.Knows (.scalar k) :=
  fun _ h => absurd h (by simp [Layout.recordId?])

@[simp] theorem knows_record (r : Registry) (id : RecordId) : r.Knows (.record id) ↔ id ∈ r.ids := by
  simp [Knows, Layout.recordId?]

/-- The elements of a known layout are known. -/
theorem Knows.elem {r : Registry} {l : Layout} (h : r.Knows l) : r.Knows l.elem := by
  cases l with
  | fixed | dynamic | dict => exact h
  | missing | scalar | record => exact knows_missing r

/-! ### Adding a record -/

/-- The registry with one more record, registered under `key`. -/
def push (r : Registry) (key hint : String) (fields : List Field) : Registry :=
  { r with
    records := r.records ++ [{ id := r.records.length + 1, hint, fields }]
    bodies := (key, r.records.length + 1) :: r.bodies }

/-- A pushed record gets the next number. -/
theorem ids_push (r : Registry) (key hint : String) (fields : List Field) :
    (r.push key hint fields).ids = r.ids ++ [r.records.length + 1] := by
  simp [push, ids]

/-- A pushed record leaves the records that were there as they are. -/
theorem record?_push {r : Registry} {id : RecordId} (hid : id ∈ r.ids) (key hint : String)
    (fields : List Field) : (r.push key hint fields).record? id = r.record? id := by
  obtain ⟨record, hmem, rfl⟩ := List.mem_map.mp hid
  have hsome : (r.records.find? (·.id = record.id)).isSome :=
    List.find?_isSome.mpr ⟨record, hmem, by simp⟩
  rw [record?, push, List.find?_append, Option.or_of_isSome hsome]
  rfl

/-- A record under a new key takes nothing away. -/
theorem le_push {r : Registry} {key : String} (hkey : r.bodies.lookup key = none) (hint : String)
    (fields : List Field) : r ≤ r.push key hint fields where
  ids id hid := by
    rw [ids_push]
    exact List.mem_append_left _ hid
  fields id hid := by rw [Registry.fields, record?_push hid, Registry.fields]
  hint id hid := by rw [Registry.hint, record?_push hid, Registry.hint]
  bodies key' id hid := lookup_cons_of_fresh hkey _ hid
  containers key' l hl := hl
  clash _ := rfl

/-- Adding a record whose fields are known afterwards keeps the registry well formed. -/
theorem WellFormed.push {r : Registry} (h : r.WellFormed) {key : String}
    (hkey : r.bodies.lookup key = none) {hint : String} {fields : List Field}
    (hfields : ∀ f ∈ fields, (r.push key hint fields).Knows f.layout) :
    (r.push key hint fields).WellFormed where
  ids := by
    rw [ids_push, h.ids, Registry.push, List.length_append, List.length_singleton,
      List.range'_concat, Nat.one_mul, Nat.add_comm 1]
  bodies key' id hid := by
    rw [ids_push]
    rcases lookup_cons_cases hid with hold | ⟨-, rfl⟩
    · exact List.mem_append_left _ (h.bodies key' id hold)
    · simp
  fields record hrecord f hf := by
    rcases List.mem_append.mp hrecord with hold | hnew
    · exact (h.fields record hold f hf).mono (le_push hkey hint fields)
    · rw [List.mem_singleton] at hnew
      subst hnew
      exact hfields f hf
  containers key' l hl := (h.containers key' l hl).mono (le_push hkey hint fields)

/-- Registering finds a record with the same body or adds one. -/
theorem register_cases (r : Registry) (hint : String) (fields : List Field) :
    (∃ id, r.bodies.lookup (bodyKey fields) = some id ∧ r.register hint fields = (id, r))
      ∨ (r.bodies.lookup (bodyKey fields) = none ∧ r.register hint fields
        = (r.records.length + 1, r.push (bodyKey fields) (identifier hint) fields)) := by
  unfold register
  cases hlookup : r.bodies.lookup (bodyKey fields) with
  | some id => exact .inl ⟨id, rfl, rfl⟩
  | none => exact .inr ⟨rfl, rfl⟩

/-- Registering again finds the record. -/
theorem register_of_lookup {r : Registry} {fields : List Field} {id : RecordId}
    (h : r.bodies.lookup (bodyKey fields) = some id) (hint : String) :
    r.register hint fields = (id, r) := by
  rw [register, h]

/-- Registering known fields gives a registered record, and the same one when done again. -/
theorem register_runs {r : Registry} (hr : r.WellFormed) {hint : String} {fields : List Field}
    (hfields : ∀ f ∈ fields, r.Knows f.layout) (again : Prop) :
    Runs again (fun id r' => id ∈ r'.ids) (fun r => r.register hint fields) r := by
  rcases r.register_cases hint fields with ⟨id, hid, heq⟩ | ⟨hnone, heq⟩
  · exact .found hr (hr.bodies _ _ hid) fun r' _ hle => register_of_lookup (hle.bodies _ _ hid) hint
  · have hle := le_push hnone (identifier hint) fields
    refine .of_eq heq (hr.push hnone fun f hf => (hfields f hf).mono hle) hle ?_ ?_
    · simp [ids_push]
    · exact fun _ r' _ hle' => register_of_lookup (hle'.bodies _ _ (by simp [push])) hint

/-! ### Extending a record -/

/-- A field that refers to record 0 pointed at the record `id`. -/
def close (id : RecordId) (f : Field) : Field :=
  if f.layout = .record 0 then { f with layout := .record id } else f

/-- No record has the number 0. -/
theorem zero_notMem_ids {r : Registry} (hr : r.WellFormed) : 0 ∉ r.ids := by
  rw [hr.ids, List.mem_range'_1]
  omega

/-- A field of a well-formed registry refers to no record under construction, so closing leaves it as it
is. -/
theorem close_of_knows {r : Registry} (hr : r.WellFormed) {f : Field} (hf : r.Knows f.layout)
    (id : RecordId) : close id f = f := by
  refine if_neg fun h => zero_notMem_ids hr ?_
  rwa [h, knows_record] at hf

/-- In a well-formed registry no field is left to be closed. -/
theorem closeSelf_eq_self {r : Registry} (hr : r.WellFormed) (id : RecordId) :
    r.closeSelf id = r := by
  have hrecords : (r.closeSelf id).records = r.records := by
    refine (List.map_congr_left fun record hrecord => ?_).trans (List.map_id _)
    have hfields : record.fields.map (close id) = record.fields :=
      (List.map_congr_left fun f hf => close_of_knows hr (hr.fields record hrecord f hf) id).trans
        (List.map_id _)
    show (if record.id = id then { record with fields := record.fields.map (close id) }
      else record) = record
    rw [hfields, ite_self]
  calc r.closeSelf id = { r with records := (r.closeSelf id).records } := rfl
    _ = r := by rw [hrecords]

/-- Closing a record that was just added changes its own fields only. -/
theorem closeSelf_push {r : Registry} (hr : r.WellFormed) (key hint : String)
    (fields : List Field) :
    (r.push key hint fields).closeSelf (r.records.length + 1)
      = r.push key hint (fields.map (close (r.records.length + 1))) := by
  have hold : r.records.map (fun record => if record.id = r.records.length + 1
      then { record with fields := record.fields.map (close (r.records.length + 1)) }
      else record) = r.records := by
    refine (List.map_congr_left fun record hrecord => ?_).trans (List.map_id _)
    -- No record had the new number before.
    refine if_neg fun hid => ?_
    have hmem : record.id ∈ r.ids := List.mem_map_of_mem hrecord
    rw [hr.ids, List.mem_range'_1] at hmem
    omega
  have hrecords : ((r.push key hint fields).closeSelf (r.records.length + 1)).records
      = (r.push key hint (fields.map (close (r.records.length + 1)))).records := by
    refine List.map_append.trans (congrArg₂ (· ++ ·) hold ?_)
    rw [List.map_singleton, if_pos rfl]
    rfl
  calc (r.push key hint fields).closeSelf (r.records.length + 1)
      = { r.push key hint fields with
          records := ((r.push key hint fields).closeSelf (r.records.length + 1)).records } := rfl
    _ = _ := by rw [hrecords]; rfl

/-- A field of an overlaid list was there before or has the layout of what is laid over. -/
theorem mem_overlay {fields : List Field} {f g : Field} (h : g ∈ overlay fields f) :
    g ∈ fields ∨ g.layout = f.layout := by
  induction fields with
  | nil =>
    rw [overlay, List.mem_singleton] at h
    exact .inr (by rw [h])
  | cons e es ih =>
    rw [overlay] at h
    split at h
    · rcases List.mem_cons.mp h with rfl | h
      · exact .inr rfl
      · exact .inl (List.mem_cons_of_mem e h)
    · rcases List.mem_cons.mp h with rfl | h
      · exact .inl (List.mem_cons_self ..)
      · exact (ih h).imp_left (List.mem_cons_of_mem e)

/-- Overlaying fields adds no layouts but theirs. -/
theorem mem_foldl_overlay {added fields : List Field} {g : Field}
    (h : g ∈ added.foldl overlay fields) : g ∈ fields ∨ ∃ f ∈ added, g.layout = f.layout := by
  induction added generalizing fields with
  | nil => exact .inl h
  | cons f fs ih =>
    rw [List.foldl_cons] at h
    rcases ih h with h | ⟨f', hf', heq⟩
    · exact (mem_overlay h).imp_right fun heq => ⟨f, List.mem_cons_self .., heq⟩
    · exact .inr ⟨f', List.mem_cons_of_mem f hf', heq⟩

/-- The fields under which the extension of a record is looked for. -/
def extendedFields (r : Registry) (id : RecordId) (added : List Field) (self : List String) :
    List Field :=
  (added ++ self.map (Field.mk · (.record 0))).foldl overlay (r.fields id)

/-- Extending a record finds the extended record or adds it, its references to itself closed. -/
theorem extend_cases {r : Registry} (hr : r.WellFormed) (id : RecordId) (hint : String)
    (added : List Field) (self : List String) :
    (added.isEmpty && self.isEmpty) = true ∧ r.extend id hint added self = (id, r)
      ∨ (∃ out, r.bodies.lookup (bodyKey (r.extendedFields id added self)) = some out
        ∧ r.extend id hint added self = (out, r))
      ∨ (r.bodies.lookup (bodyKey (r.extendedFields id added self)) = none
        ∧ ∃ hint', r.extend id hint added self = (r.records.length + 1,
          r.push (bodyKey (r.extendedFields id added self)) hint'
            ((r.extendedFields id added self).map (close (r.records.length + 1))))) := by
  rw [extend]
  by_cases hempty : (added.isEmpty && self.isEmpty) = true
  · exact .inl ⟨hempty, if_pos hempty⟩
  · rw [if_neg hempty]
    refine .inr ?_
    rcases r.register_cases (if hint = "" then r.hint id else hint)
      (r.extendedFields id added self) with ⟨out, hout, heq⟩ | ⟨hnone, heq⟩
    · -- A record that was there has no open reference, so closing it changes nothing.
      refine .inl ⟨out, hout, ?_⟩
      rw [extendedFields] at heq
      simp only [heq, closeSelf_eq_self hr]
    · refine .inr ⟨hnone, identifier (if hint = "" then r.hint id else hint), ?_⟩
      rw [extendedFields] at heq ⊢
      simp only [heq, closeSelf_push hr]

/-- The fields of an extension are those of the record, those added, or references to itself. -/
theorem knows_extendedFields {r : Registry} (hr : r.WellFormed) {id : RecordId}
    {added : List Field} (hadded : ∀ f ∈ added, r.Knows f.layout) {self : List String} {g : Field}
    (hg : g ∈ r.extendedFields id added self) : r.Knows g.layout ∨ g.layout = .record 0 := by
  rcases mem_foldl_overlay hg with hg | ⟨f, hf, heq⟩
  · refine .inl ?_
    rw [fields] at hg
    cases hrecord : r.record? id with
    | none => simp [hrecord] at hg
    | some record =>
      have hmem : record ∈ r.records := List.mem_of_find?_eq_some hrecord
      exact hr.fields record hmem g (by simpa [hrecord] using hg)
  · rw [heq]
    rcases List.mem_append.mp hf with hf | hf
    · exact .inl (hadded f hf)
    · obtain ⟨name, -, rfl⟩ := List.mem_map.mp hf
      exact .inr rfl

/-- The fields of an extension depend on the record extended only. -/
theorem extendedFields_of_le {r r' : Registry} (h : r ≤ r') {id : RecordId} (hid : id ∈ r.ids)
    (added : List Field) (self : List String) :
    r'.extendedFields id added self = r.extendedFields id added self := by
  rw [extendedFields, h.fields id hid, extendedFields]

/-- An extension that is registered is found. -/
theorem extend_of_lookup {r : Registry} (hr : r.WellFormed) {id out : RecordId}
    {added : List Field} {self : List String} (hempty : (added.isEmpty && self.isEmpty) ≠ true)
    (h : r.bodies.lookup (bodyKey (r.extendedFields id added self)) = some out) (hint : String) :
    r.extend id hint added self = (out, r) := by
  rcases extend_cases hr id hint added self with ⟨he, -⟩ | ⟨out', hout', heq⟩ | ⟨hnone, -⟩
  · exact absurd he hempty
  · rw [heq, Option.some.inj (h.symm.trans hout')]
  · rw [hnone] at h
    exact absurd h (by simp)

/-- Extending a record by known fields gives a registered record, and the same one when done again. -/
theorem extend_runs {r : Registry} (hr : r.WellFormed) {id : RecordId} (hid : id ∈ r.ids)
    {hint : String} {added : List Field} (hadded : ∀ f ∈ added, r.Knows f.layout)
    {self : List String} (again : Prop) :
    Runs again (fun id r' => id ∈ r'.ids) (fun r => r.extend id hint added self) r := by
  have hfound {r' : Registry} (hr' : r'.WellFormed) (hle : r ≤ r') {out : RecordId}
      (hempty : (added.isEmpty && self.isEmpty) ≠ true)
      (hlookup : r'.bodies.lookup (bodyKey (r.extendedFields id added self)) = some out) :
      r'.extend id hint added self = (out, r') := by
    rw [← extendedFields_of_le hle hid] at hlookup
    exact extend_of_lookup hr' hempty hlookup hint
  by_cases hempty : (added.isEmpty && self.isEmpty) = true
  · refine .found hr hid fun r' _ _ => ?_
    rw [extend, if_pos hempty]
  rcases extend_cases hr id hint added self with ⟨he, -⟩ | ⟨out, hout, heq⟩ | ⟨hnone, hint', heq⟩
  · exact absurd he hempty
  · refine .found hr (hr.bodies _ _ hout) fun r' hr' hle => ?_
    exact hfound hr' hle hempty (hle.bodies _ _ hout)
  · have hle := le_push hnone hint'
      ((r.extendedFields id added self).map (close (r.records.length + 1)))
    refine .of_eq heq (hr.push hnone fun f hf => ?_) hle ?_ ?_
    · -- Fields that were known stay as they are; the others refer to the new record now.
      obtain ⟨g, hg, rfl⟩ := List.mem_map.mp hf
      rcases knows_extendedFields hr hadded hg with hknown | hself
      · rw [close_of_knows hr hknown]
        exact hknown.mono hle
      · rw [close, if_pos hself, knows_record]
        simp [ids_push]
    · simp [ids_push]
    · exact fun _ r' hr' hle' =>
        hfound hr' (hle.trans hle') hempty (hle'.bodies _ _ (by simp [push]))

/-! ### Containers -/

/-- A container that is kept is handed out. -/
theorem intern_of_lookup {r : Registry} {l kept : Layout}
    (h : r.containers.lookup l.key = some kept) (hkind : kept.container? = l.container?) :
    r.intern l = (kept, r) := by
  rw [intern, h]
  exact if_pos hkind

/-- A request that fails after one has failed before changes nothing. -/
theorem intern_of_refuses {r : Registry} {l : Layout} (h : r.Refuses l) (hclash : r.clash ≠ none) :
    r.intern l = (l, r) := by
  obtain ⟨kept, hkept, hkind⟩ := h
  have hkeeps (c : Clash) : (r.clash <|> some c) = r.clash := by
    cases hc : r.clash with
    | none => exact absurd hc hclash
    | some _ => rfl
  rw [intern, hkept]
  refine (if_neg hkind).trans ?_
  rw [hkeeps]

/-- Interning a known layout gives a known one, and the same one when done again. -/
theorem intern_runs {r : Registry} (hr : r.WellFormed) {l : Layout} (hl : r.Knows l)
    (again : Prop) : Runs again (fun l r' => r'.Knows l) (fun r => r.intern l) r := by
  rcases r.intern_cases l with ⟨hnone, heq⟩ | ⟨kept, hkept, hkind, heq⟩ | ⟨hrefuses, c, heq⟩
  · refine .of_eq heq ⟨hr.ids, hr.bodies, hr.fields, forall_lookup_cons hr.containers hl⟩ ?_ hl ?_
    · refine ⟨fun _ h => h, fun _ _ => rfl, fun _ _ => rfl, fun _ _ h => h, ?_, fun _ => rfl⟩
      exact fun key l' hl' => lookup_cons_of_fresh hnone _ hl'
    · exact fun _ r' _ hle => intern_of_lookup (hle.containers _ _ (by simp)) rfl
  · refine .found hr (hr.containers _ _ hkept) fun r' _ hle => ?_
    exact intern_of_lookup (hle.containers _ _ hkept) hkind
  · -- The first clash is noted, so that asking once more has nothing to note.
    have hnoted : (r.clash <|> some c) ≠ none := by cases r.clash <;> simp
    refine .of_eq heq ⟨hr.ids, hr.bodies, hr.fields, hr.containers⟩ ?_ hl ?_
    · refine ⟨fun _ h => h, fun _ _ => rfl, fun _ _ => rfl, fun _ _ h => h, fun _ _ h => h, ?_⟩
      intro hne
      cases hc : r.clash with
      | none => exact absurd hc hne
      | some c' => rfl
    · intro _ r' _ hle
      obtain ⟨kept, hkept, hkind⟩ := hrefuses
      refine intern_of_refuses ⟨kept, hle.containers _ _ hkept, hkind⟩ ?_
      rw [hle.clash hnoted]
      exact hnoted

/-- A request for a growing array of known elements gives a known layout, and the same one when made
again. -/
theorem dynamicArray_runs {r : Registry} (hr : r.WellFormed) {l : Layout} (hl : r.Knows l)
    (again : Prop) : Runs again (fun l r' => r'.Knows l) (fun r => r.dynamicArray l) r :=
  intern_runs hr (l := .dynamic l) hl again

/-- A request for a fixed array of known elements gives a known layout, and the same one when made again.
-/
theorem fixedArray_runs {r : Registry} (hr : r.WellFormed) {l : Layout} (hl : r.Knows l)
    (capacity : Int) (again : Prop) :
    Runs again (fun l r' => r'.Knows l) (fun r => r.fixedArray l capacity) r :=
  intern_runs hr (l := .fixed l capacity) hl again

/-- A request for a dictionary of known elements gives a known layout, and the same one when made again.
-/
theorem dictionary_runs {r : Registry} (hr : r.WellFormed) {l : Layout} (hl : r.Knows l)
    (again : Prop) : Runs again (fun l r' => r'.Knows l) (fun r => r.dictionary l) r :=
  intern_runs hr (l := .dict l) hl again

/-- The empty registry is well formed. -/
theorem wellFormed_empty : ({} : Registry).WellFormed :=
  ⟨rfl, fun _ _ h => absurd h (by simp), fun _ h => absurd h (by simp),
    fun _ _ h => absurd h (by simp)⟩

end Registry

/-! ## Stores -/

namespace Store

/-- What holds of every store. -/
structure WellFormed (s : Store) : Prop where
  registry : s.registry.WellFormed
  literals : ∀ id l, s.literals.lookup id = some l → s.registry.Knows l

/-- `Grown s s'`: the store `s'` has all that `s` has. Notes are left out. -/
structure Grown (s s' : Store) : Prop where
  registry : s.registry ≤ s'.registry
  literals : ∀ id l, s.literals.lookup id = some l → s'.literals.lookup id = some l

instance : Ledger Store where
  le := Grown
  le_refl s := ⟨le_refl s.registry, fun _ _ h => h⟩
  le_trans _ _ _ h h' :=
    ⟨h.registry.trans h'.registry, fun id l hl => h'.literals id l (h.literals id l hl)⟩
  Sound := WellFormed

/-- An operation on the registry is a step of derivation. -/
theorem withRegistry_runs {α : Type} {again : Prop} {Q : α → Registry → Prop}
    {operation : Registry → α × Registry} {s : Store} (hs : s.WellFormed)
    (h : Runs again Q operation s.registry) :
    Runs again (fun a s' => Q a s'.registry) (withRegistry operation) s where
  sound := ⟨h.sound, fun id l hl => (hs.literals id l hl).mono h.grows⟩
  grows := ⟨h.grows, fun _ _ hl => hl⟩
  holds := h.holds
  repeats ha s' hs' hle := by
    have hagain := h.repeats ha s'.registry hs'.registry hle.registry
    show ((operation s'.registry).1, { s' with registry := (operation s'.registry).2 }) = _
    rw [hagain]
    rfl

end Store

end LayoutInference
