import Mathlib
import LayoutInference.Proofs.Bodies
import LayoutInference.Proofs.FixedPoint

/-!
# Registered records

A registry finds records by their bodies. A record is filed under the body of the fields it was
registered with, in which the record itself is written as record 0; only afterwards do these fields
point at it. So the body under which a record is filed is the body of its fields unless it holds
itself.

`Registry.Reached` describes the registries that any series of operations reaches and
`Registry.Filed` what holds of all of them. From it follow the two main results.
`register_answers_fields` says that registering fields with sealed names answers a record of these
fields, and `register_finds_iff` that registering the fields of a record finds it exactly if it does not
hold itself: a record with the fields of one that holds itself can be registered once more.
-/

namespace LayoutInference

/-- Whether a field of the record refers to the record itself. -/
def Record.HoldsItself (record : Record) : Prop :=
  ∃ f ∈ record.fields, f.layout = .record record.id

namespace Registry

/-- `Reached r`: a series of operations leads from the empty registry to `r`. Records that are
referred to or extended are registered before. -/
inductive Reached : Registry → Prop where
  | start : Reached {}
  | register {r : Registry} (h : Reached r) (hint : String) (fields : List Field)
    (hfields : ∀ f ∈ fields, r.Knows f.layout) : Reached (r.register hint fields).2
  | extend {r : Registry} (h : Reached r) (id : RecordId) (hid : id ∈ r.ids) (hint : String)
    (added : List Field) (hadded : ∀ f ∈ added, r.Knows f.layout) (self : List String) :
    Reached (r.extend id hint added self).2
  | make {r : Registry} (h : Reached r) (w : Wrapper) (elem : Layout) (helem : r.Knows elem) :
    Reached (r.make w elem).2
  | finalize {r : Registry} (h : Reached r) (roots : List Layout) : Reached (r.finalize roots).2

/-! ## How records are filed -/

/-- Whether a field may be registered with a record: it refers to the record itself, written as
record 0, or else to earlier records only. -/
def Open (id : RecordId) (f : Field) : Prop :=
  f.layout = .record 0 ∨ ∀ i, f.layout.recordId? = some i → 0 < i ∧ i < id

/-- What holds of every registry that is reached: a body is filed for a record whose fields come from
a list with that body, and every record is filed. -/
structure Filed (r : Registry) : Prop where
  wellFormed : r.WellFormed
  body : ∀ key id, r.bodies.lookup key = some id →
    ∃ fields, key = bodyKey fields ∧ r.fields id = fields.map (close id) ∧ ∀ f ∈ fields, Open id f
  filed : ∀ id ∈ r.ids, ∃ key, r.bodies.lookup key = some id

/-- A field of known records, or of the record itself, may be registered with the next record. -/
theorem open_of_knows {r : Registry} (hr : r.WellFormed) {f : Field}
    (hf : r.Knows f.layout ∨ f.layout = .record 0) : Open (r.records.length + 1) f := by
  rcases hf with hf | hf
  · refine .inr fun i hi => ?_
    have hmem := hf i hi
    rw [hr.ids, List.mem_range'_1] at hmem
    exact ⟨hmem.1, by simpa [Nat.add_comm] using hmem.2⟩
  · exact .inl hf

/-- The fields of a pushed record are those it was pushed with. -/
theorem fields_push (r : Registry) (hids : r.ids = List.range' 1 r.records.length)
    (key hint : String) (fields : List Field) :
    (r.push key hint fields).fields (r.records.length + 1) = fields := by
  have hold : r.records.find? (·.id = r.records.length + 1) = none := by
    rw [List.find?_eq_none]
    intro record hrecord hid
    have hmem : record.id ∈ r.ids := List.mem_map_of_mem hrecord
    rw [hids, List.mem_range'_1] at hmem
    simp only [decide_eq_true_eq] at hid
    omega
  rw [Registry.fields, record?, push, List.find?_append, hold]
  simp

namespace Filed

variable {r : Registry}

/-- The empty registry has everything filed. -/
theorem empty : ({} : Registry).Filed where
  wellFormed := wellFormed_empty
  body key id h := absurd h (by simp)
  filed id h := absurd h (by simp [ids])

/-- Operations that add no record keep the registry filed. -/
theorem of_le {r' : Registry} (h : r.Filed) (hwf : r'.WellFormed) (hle : r ≤ r')
    (hids : r'.ids = r.ids) (hbodies : r'.bodies = r.bodies) : r'.Filed where
  wellFormed := hwf
  body key id hkey := by
    rw [hbodies] at hkey
    obtain ⟨fields, hbody, hfields, hopen⟩ := h.body key id hkey
    exact ⟨fields, hbody, by rw [hle.fields id (h.wellFormed.bodies key id hkey), hfields], hopen⟩
  filed id hid := by
    rw [hbodies]
    exact h.filed id (hids ▸ hid)

/-- A record filed under the body of its fields, whose references to itself are closed then. -/
theorem push (h : r.Filed) {fields : List Field} (hint : String)
    (hnone : r.bodies.lookup (bodyKey fields) = none)
    (hfields : ∀ f ∈ fields, r.Knows f.layout ∨ f.layout = .record 0) :
    (r.push (bodyKey fields) hint (fields.map (close (r.records.length + 1)))).Filed := by
  have hle := le_push hnone hint (fields.map (close (r.records.length + 1)))
  refine ⟨h.wellFormed.push hnone ?_, ?_, ?_⟩
  · intro g hg
    -- Known records stay known, and the record itself is there now.
    obtain ⟨f, hf, rfl⟩ := List.mem_map.mp hg
    rcases hfields f hf with hknown | hself
    · rw [close_of_knows h.wellFormed hknown]
      exact hknown.mono hle
    · rw [close, if_pos hself, knows_record]
      simp [ids_push]
  · intro key id hkey
    -- The body is the new one, or was filed before.
    rcases lookup_cons_cases hkey with hold | ⟨rfl, rfl⟩
    · obtain ⟨fields', hbody, hfields', hopen⟩ := h.body key id hold
      exact ⟨fields', hbody, by rw [hle.fields id (h.wellFormed.bodies key id hold), hfields'], hopen⟩
    · exact ⟨fields, rfl, fields_push r h.wellFormed.ids _ _ _, fun f hf =>
        open_of_knows h.wellFormed (hfields f hf)⟩
  · intro id hid
    rw [ids_push, List.mem_append, List.mem_singleton] at hid
    rcases hid with hid | rfl
    · obtain ⟨key, hkey⟩ := h.filed id hid
      exact ⟨key, hle.bodies key id hkey⟩
    · exact ⟨bodyKey fields, List.lookup_cons_self⟩

/-- Fields of known records are left as they are when a record is closed. -/
theorem map_close_of_knows (h : r.Filed) {fields : List Field} (hfields : ∀ f ∈ fields, r.Knows f.layout)
    (id : RecordId) : fields.map (close id) = fields :=
  (List.map_congr_left fun f hf => close_of_knows h.wellFormed (hfields f hf) id).trans (List.map_id _)

/-- Registering known fields keeps everything filed. -/
theorem register (h : r.Filed) (hint : String) {fields : List Field}
    (hfields : ∀ f ∈ fields, r.Knows f.layout) : (r.register hint fields).2.Filed := by
  rcases r.register_cases hint fields with ⟨id, -, heq⟩ | ⟨hnone, heq⟩
  · rwa [heq]
  · have hpush := h.push (identifier hint) hnone fun f hf => .inl (hfields f hf)
    rw [h.map_close_of_knows hfields] at hpush
    rwa [heq]

/-- Extending a record by known fields keeps everything filed. -/
theorem extend (h : r.Filed) (id : RecordId) (hint : String) {added : List Field}
    (hadded : ∀ f ∈ added, r.Knows f.layout) (self : List String) :
    (r.extend id hint added self).2.Filed := by
  rcases extend_cases h.wellFormed id hint added self with
    ⟨-, heq⟩ | ⟨out, -, heq⟩ | ⟨hnone, hint', heq⟩
  · rwa [heq]
  · rwa [heq]
  · rw [heq]
    exact h.push hint' hnone fun g hg => knows_extendedFields h.wellFormed hadded hg

/-- Making a container keeps everything filed. -/
theorem make (h : r.Filed) (w : Wrapper) {elem : Layout} (helem : r.Knows elem) :
    (r.make w elem).2.Filed := by
  have haround : r.Knows (w.around elem) := by cases w <;> exact helem
  have hruns := intern_runs h.wellFormed haround False
  have hkept : (r.intern (w.around elem)).2.ids = r.ids
      ∧ (r.intern (w.around elem)).2.bodies = r.bodies := by
    rcases r.intern_cases (w.around elem) with ⟨-, heq⟩ | ⟨kept, -, -, heq⟩ | ⟨-, c, heq⟩
    all_goals
      rw [heq]
      exact ⟨rfl, rfl⟩
  rw [make_eq_intern]
  exact h.of_le hruns.sound hruns.grows hkept.1 hkept.2

/-- Final names keep everything filed. -/
theorem finalize (h : r.Filed) (roots : List Layout) : (r.finalize roots).2.Filed :=
  h.of_le (h.wellFormed.finalize roots) (r.le_finalize roots) (r.ids_finalize roots) rfl

end Filed

/-- Whatever series of operations reaches a registry, its records are filed. -/
theorem Reached.filed {r : Registry} (h : r.Reached) : r.Filed := by
  induction h with
  | start => exact .empty
  | register _ hint fields hfields ih => exact ih.register hint hfields
  | extend _ id hid hint added hadded self ih => exact ih.extend id hint hadded self
  | make _ w elem helem ih => exact ih.make w helem
  | finalize _ roots ih => exact ih.finalize roots

/-! ## Finding records by their fields -/

/-- A body in which the record itself is written as record 0 is not the body of the fields that point
at the record. -/
theorem bodyKey_map_close_ne {id : RecordId} (hid : 0 < id) {fields : List Field}
    (h : bodyKey (fields.map (close id)) = bodyKey fields) : ∀ f ∈ fields, f.layout ≠ .record 0 := by
  induction fields with
  | nil => simp
  | cons f fields ih =>
    rw [List.map_cons, ← String.toList_inj, bodyKey_cons, bodyKey_cons] at h
    by_cases hself : f.layout = .record 0
    · have hclosed : (close id f).layout = .record id := by rw [close, if_pos hself]
      rw [hclosed, hself, Layout.key_record, Layout.key_record] at h
      exact absurd (Leaf.recordText_append_inj h).1 (Nat.ne_of_gt hid)
    · rw [close, if_neg hself] at h
      have hrest := List.cons.inj (List.append_cancel_left (List.cons.inj
        (List.append_cancel_left h)).2)
      exact List.forall_mem_cons.mpr ⟨hself, ih (String.toList_inj.mp hrest.2)⟩

/-- A layout with the key of a record is that record. -/
theorem eq_record_of_key_eq {l : Layout} {id : RecordId} (h : l.key = (Layout.record id).key) :
    l = .record id := by
  have hunmixed : (Layout.record id).Unmixed := .inr rfl
  obtain ⟨hspine, hleaf⟩ := hunmixed.alike h
  cases l with
  | record i => rw [Leaf.record.inj hleaf]
  | missing | scalar k => cases hleaf
  | fixed elem n | dynamic elem | dict elem => cases hspine

/-- Every record is found under its number. -/
theorem record?_of_mem {r : Registry} (hr : r.WellFormed) {record : Record}
    (h : record ∈ r.records) : r.record? record.id = some record := by
  have hnodup : r.ids.Nodup := hr.ids ▸ List.nodup_range'
  cases hfound : r.record? record.id with
  | none =>
    rw [record?, List.find?_eq_none] at hfound
    exact absurd (decide_eq_true rfl) (hfound record h)
  | some found =>
    have hid : found.id = record.id := by simpa using List.find?_some hfound
    rw [List.inj_on_of_nodup_map hnodup (List.mem_of_find?_eq_some hfound) h hid]

/-- Known fields with sealed names and the body of those that a record was registered with are the
fields of the record. -/
theorem same_of_body {r : Registry} (hr : r.WellFormed) {fields fields' : List Field}
    (hknown : ∀ f ∈ fields, r.Knows f.layout) (hnames : ∀ f ∈ fields, Sealed f.name)
    (hbody : bodyKey fields = bodyKey fields') {id : RecordId}
    (hfields : r.fields id = fields'.map (close id))
    (hregistered : ∀ f ∈ r.fields id, Sealed f.name) :
    List.Forall₂ Field.Same fields (r.fields id) := by
  have hnames' : ∀ f ∈ fields', Sealed f.name := by
    intro f hf
    have hclose : (close id f).name = f.name := by
      unfold close
      split <;> rfl
    rw [← hclose]
    exact hregistered _ (hfields ▸ List.mem_map_of_mem hf)
  have hsame := (bodyKey_eq_iff hnames hnames').mp hbody
  -- No field of the other list refers to record 0: its partner would, and that record is not known.
  have hclosed : fields'.map (close id) = fields' := by
    refine (List.map_congr_left fun f hf => if_neg fun hzero => ?_).trans (List.map_id _)
    obtain ⟨g, hg, -, hkey⟩ := exists_of_mem_right hsame hf
    rw [Layout.written_same_iff, hzero] at hkey
    have hknows := hknown g hg
    rw [eq_record_of_key_eq hkey, knows_record] at hknows
    exact zero_notMem_ids hr hknows
  rwa [hfields, hclosed]

namespace Filed

variable {r : Registry} (h : r.Filed)
include h

/-- The fields with which a record was registered. -/
theorem registered {record : Record} (hrecord : record ∈ r.records) :
    ∃ fields, r.bodies.lookup (bodyKey fields) = some record.id
      ∧ record.fields = fields.map (close record.id) ∧ ∀ f ∈ fields, Open record.id f := by
  obtain ⟨key, hkey⟩ := h.filed record.id (List.mem_map_of_mem hrecord)
  obtain ⟨fields, rfl, hfields, hopen⟩ := h.body key record.id hkey
  rw [Registry.fields, record?_of_mem h.wellFormed hrecord] at hfields
  exact ⟨fields, hkey, hfields, hopen⟩

/-- A record refers to none that was registered after it. -/
theorem refers_le {record : Record} (hrecord : record ∈ r.records) {f : Field}
    (hf : f ∈ record.fields) {i : RecordId} (hi : f.layout = .record i) : i ≤ record.id := by
  obtain ⟨fields, -, hfields, hopen⟩ := h.registered hrecord
  rw [hfields] at hf
  obtain ⟨g, hg, rfl⟩ := List.mem_map.mp hf
  by_cases hself : g.layout = .record 0
  · rw [close, if_pos hself] at hi
    exact (Layout.record.inj hi).ge
  · rw [close, if_neg hself] at hi
    exact (((hopen g hg).resolve_left hself) i (by rw [hi]; rfl)).2.le

/-- The body under which a record is filed is that of its fields, unless it holds itself. -/
theorem lookup_iff {record : Record} (hrecord : record ∈ r.records) :
    r.bodies.lookup (bodyKey record.fields) = some record.id ↔ ¬ record.HoldsItself := by
  constructor
  · rintro hlookup ⟨f, hf, hself⟩
    obtain ⟨fields, hbody, hfields, hopen⟩ := h.body _ _ hlookup
    rw [Registry.fields, record?_of_mem h.wellFormed hrecord, Option.map_some, Option.getD_some]
      at hfields
    -- The fields are filed as they were given, the record itself being written as record 0, so a field
    -- that holds the record would have another body.
    have hpos : 0 < record.id := by
      have hmem : record.id ∈ r.ids := List.mem_map_of_mem hrecord
      rw [h.wellFormed.ids, List.mem_range'_1] at hmem
      exact hmem.1
    have hclosed := bodyKey_map_close_ne hpos (hfields ▸ hbody)
    rw [hfields] at hf
    obtain ⟨g, hg, rfl⟩ := List.mem_map.mp hf
    rw [close, if_neg (hclosed g hg)] at hself
    have hearlier := (hopen g hg).resolve_left (hclosed g hg) record.id (by rw [hself]; rfl)
    exact absurd hearlier.2 (lt_irrefl _)
  · intro hself
    obtain ⟨fields, hlookup, hfields, -⟩ := h.registered hrecord
    -- Nothing had to be closed.
    have hclosed : fields.map (close record.id) = fields := by
      refine (List.map_congr_left fun f hf => if_neg fun hzero => hself ?_).trans (List.map_id _)
      refine ⟨close record.id f, ?_, by rw [close, if_pos hzero]⟩
      rw [hfields]
      exact List.mem_map_of_mem hf
    rwa [hfields, hclosed]

/-- Registering known fields with sealed names finds a record of these fields, if one is found. -/
theorem same_of_lookup {fields : List Field} (hknown : ∀ f ∈ fields, r.Knows f.layout)
    (hnames : ∀ f ∈ fields, Sealed f.name) {id : RecordId}
    (hlookup : r.bodies.lookup (bodyKey fields) = some id)
    (hregistered : ∀ f ∈ r.fields id, Sealed f.name) :
    List.Forall₂ Field.Same fields (r.fields id) := by
  obtain ⟨fields', hbody, hfields, -⟩ := h.body _ _ hlookup
  exact same_of_body h.wellFormed hknown hnames hbody hfields hregistered

end Filed

/-- **Registering answers what was asked for.** In every registry that is reached, the record
answered has the fields that were asked for, by name and layout and in this order, provided that all
names are sealed. For every name that is not, there are fields of another shape with the same body. -/
theorem register_answers_fields {r : Registry} (h : r.Reached)
    (hregistered : ∀ record ∈ r.records, ∀ f ∈ record.fields, Sealed f.name) (hint : String)
    {fields : List Field} (hknown : ∀ f ∈ fields, r.Knows f.layout)
    (hnames : ∀ f ∈ fields, Sealed f.name) :
    (∃ record, (r.register hint fields).2.record? (r.register hint fields).1 = some record
        ∧ List.Forall₂ Field.Same fields record.fields)
      ∧ ∀ name, ¬ Sealed name → ∃ (l : Layout) (others : List Field),
        bodyKey [⟨name, l⟩] = bodyKey others ∧ ¬ List.Forall₂ Field.Same [⟨name, l⟩] others := by
  have hfiled := h.filed
  refine ⟨?_, fun name hname => exists_body_eq_of_not_sealed hname⟩
  rcases r.register_cases hint fields with ⟨id, hlookup, heq⟩ | ⟨hnone, heq⟩
  · rw [heq]
    obtain ⟨record, hrecord, rfl⟩ := List.mem_map.mp (hfiled.wellFormed.bodies _ _ hlookup)
    have hfound := record?_of_mem hfiled.wellFormed hrecord
    have hfields : r.fields record.id = record.fields := by rw [Registry.fields, hfound]; rfl
    refine ⟨record, hfound, ?_⟩
    rw [← hfields]
    exact hfiled.same_of_lookup hknown hnames hlookup (hfields ▸ hregistered record hrecord)
  · have hpushed := hfiled.register hint hknown
    rw [heq] at hpushed ⊢
    refine ⟨_, record?_of_mem hpushed.wellFormed (List.mem_append_right _ (List.mem_singleton_self _)),
      ?_⟩
    exact List.forall₂_same.mpr fun f _ => ⟨rfl, (Layout.written_same_iff _ _).mpr rfl⟩

/-- A field more than a list node has, which holds itself. -/
theorem register_answers_fields_node :
    ∃ record, (((({} : Registry).register "node" []).2.extend 1 "" [] ["next"]).2.register "pair"
        [⟨"next", .record 2⟩, ⟨"value", .dynamic .integer⟩]).2.record? 3 = some record
      ∧ List.Forall₂ Field.Same [⟨"next", .record 2⟩, ⟨"value", .dynamic .integer⟩]
        record.fields := by
  have hreached : ((({} : Registry).register "node" []).2.extend 1 "" [] ["next"]).2.Reached :=
    (Reached.start.register "node" [] (by simp)).extend 1 (by decide +kernel) "" [] (by simp) _
  have hrecords : ((({} : Registry).register "node" []).2.extend 1 "" [] ["next"]).2.records
      = [⟨1, "node", "", []⟩, ⟨2, "node", "", [⟨"next", .record 2⟩]⟩] := by decide +kernel
  refine (register_answers_fields hreached ?_ "pair" ?_ ?_).1
  · rw [hrecords]
    simpa using Sealed.of_space_notMem (by decide)
  · simp only [List.forall_mem_cons, knows_record]
    exact ⟨by decide +kernel, knows_scalar _ .integer, by simp⟩
  · simpa using ⟨Sealed.of_space_notMem (by decide), Sealed.of_space_notMem (by decide)⟩

/-- A name can hold the end of one field and the beginning of the next: a single field is answered
with a record of two. -/
theorem register_conflates_split_name : ∃ r : Registry, r.Reached
    ∧ (r.register "single" [⟨"a;int16_t b", .integer⟩]).1 = 1
    ∧ (r.register "single" [⟨"a;int16_t b", .integer⟩]).2.record? 1
      = some ⟨1, "pair", "", [⟨"a", .integer⟩, ⟨"b", .integer⟩]⟩ := by
  refine ⟨_, Reached.start.register "pair" [⟨"a", .integer⟩, ⟨"b", .integer⟩] (by simp), ?_, ?_⟩
  all_goals decide +kernel

/-- **Registering the fields of a record.** In every registry that is reached, registering the fields
of a record once more finds the record and changes nothing, exactly if the record does not hold
itself. Of two records with the same fields the earlier one holds itself and the later one does
not. -/
theorem register_finds_iff {r : Registry} (h : r.Reached) :
    (∀ record ∈ r.records, ∀ hint : String,
        r.register hint record.fields = (record.id, r) ↔ ¬ record.HoldsItself)
      ∧ ∀ a ∈ r.records, ∀ b ∈ r.records, a.id < b.id →
        List.Forall₂ Field.Same a.fields b.fields → a.HoldsItself ∧ ¬ b.HoldsItself := by
  have hfiled := h.filed
  refine ⟨?_, ?_⟩
  · intro record hrecord hint
    rw [← hfiled.lookup_iff hrecord]
    refine ⟨fun heq => ?_, fun hlookup => register_of_lookup hlookup hint⟩
    rcases r.register_cases hint record.fields with ⟨id, hlookup, heq'⟩ | ⟨-, heq'⟩
    · rw [heq'] at heq
      rw [hlookup, (Prod.mk.inj heq).1]
    · -- A new record would have a number that no record has.
      have hmem : record.id ∈ r.ids := List.mem_map_of_mem hrecord
      rw [hfiled.wellFormed.ids, List.mem_range'_1] at hmem
      have hid := (Prod.mk.inj (heq'.symm.trans heq)).1
      omega
  · intro a ha b hb hlt hsame
    have hbself : ¬ b.HoldsItself := by
      rintro ⟨f, hf, hself⟩
      obtain ⟨g, hg, -, hkey⟩ := exists_of_mem_right hsame hf
      rw [Layout.written_same_iff, hself] at hkey
      exact absurd (hfiled.refers_le ha hg (eq_record_of_key_eq hkey)) (Nat.not_le.mpr hlt)
    refine ⟨?_, hbself⟩
    by_contra haself
    have hlookup := (hfiled.lookup_iff ha).mpr haself
    rw [bodyKey_eq_of_same hsame, (hfiled.lookup_iff hb).mpr hbself] at hlookup
    exact absurd (Option.some.inj hlookup) (Nat.ne_of_gt hlt)

/-- The second record with the fields of a list node is found again, since it refers to the first. -/
theorem register_finds_iff_copy :
    ((((({} : Registry).register "node" []).2.extend 1 "" [] ["next"]).2.register "copy"
      [⟨"next", .record 2⟩]).2.register "" [⟨"next", .record 2⟩]).1 = 3 := by
  have hnode : ((({} : Registry).register "node" []).2.extend 1 "" [] ["next"]).2.Reached :=
    (Reached.start.register "node" [] (by simp)).extend 1 (by decide +kernel) "" [] (by simp) _
  have hcopy := hnode.register "copy" [⟨"next", .record 2⟩] (by
    simp only [List.forall_mem_singleton, knows_record]
    decide +kernel)
  have hfound := (register_finds_iff hcopy).1 ⟨3, "copy", "", [⟨"next", .record 2⟩]⟩
    (by decide +kernel) ""
  exact (Prod.mk.inj (hfound.mpr (by simp [Record.HoldsItself]))).1

/-- A list node that holds itself is not found by its fields: registering them makes a second record
that is the same. -/
theorem register_misses_node : ∃ r : Registry, r.Reached
    ∧ r.record? 2 = some ⟨2, "node", "", [⟨"next", .record 2⟩]⟩
    ∧ (r.register "copy" [⟨"next", .record 2⟩]).1 = 3
    ∧ (r.register "copy" [⟨"next", .record 2⟩]).2.record? 3
      = some ⟨3, "copy", "", [⟨"next", .record 2⟩]⟩ := by
  refine ⟨_, (Reached.start.register "node" [] (by simp)).extend 1 (by decide +kernel) "" []
    (by simp) ["next"], ?_⟩
  decide +kernel

end Registry

end LayoutInference
