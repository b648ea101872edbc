import Mathlib
import LayoutInference.Proofs.PropertyNames

/-!
# Extending records

To extend a record is to lay fields over a copy of its own. A field that is laid over takes the place
of the one with its name, or stands behind all others; of several with one name the last counts
(`mem_foldl_overlay_iff`), and the order of names is that of their first appearance
(`names_foldl_overlay_eq`). The fields named in `self` come last of all, pointing at record 0, which
stands for the extension until it has a number.

`Registry.extend_overlays` says from this what an extension is, and that making it changes no record and
need not be done twice.
-/

namespace LayoutInference

/-- The record `new` has the fields of `record`, overlaid by those added and by fields named in `self`
that hold `new` itself. -/
structure Record.OverlaidBy (record : Record) (added : List Field) (self : List String) (new : Record) :
    Prop where
  /-- The names of the record come first, then those that are new to it, each where it first appears. -/
  names : new.fields.map (·.name) = record.fields.map (·.name)
    ++ ((added.map (·.name) ++ self).filter (· ∉ record.fields.map (·.name))).eraseDups
  /-- A field named in `self` holds the new record, any other one is the last that was added under its
  name, and one that was not added is that of the record. -/
  fields : ∀ f, f ∈ new.fields ↔ f.name ∈ self ∧ f.layout = .record new.id
    ∨ f.name ∉ self ∧ (added.filter (·.name = f.name)).getLast? = some f
    ∨ f.name ∉ self ∧ f.name ∉ added.map (·.name) ∧ f ∈ record.fields

namespace Registry

/-! ## Laying fields over others -/

/-- The names behind those of the overlaid fields are the new ones, each where it first appears. -/
theorem names_foldl_overlay_eq (fields added : List Field) :
    (added.foldl overlay fields).map (·.name) = fields.map (·.name)
      ++ ((added.map (·.name)).filter (· ∉ fields.map (·.name))).eraseDups := by
  induction added using List.reverseRecOn with
  | nil => simp
  | append_singleton added f ih =>
    rw [List.foldl_append, List.foldl_cons, List.foldl_nil, names_overlay,
      if_congr mem_names_foldl_overlay rfl rfl, ih, List.map_append, List.filter_append,
      List.eraseDups_append, List.map_singleton]
    generalize fields.map (·.name) = names
    generalize added.map (·.name) = before
    by_cases hold : f.name ∈ names
    · simp [hold, List.removeAll]
    · by_cases hbefore : f.name ∈ before <;>
        simp [hold, hbefore, List.removeAll, List.eraseDups_cons]

/-- Overlaying keeps names distinct. -/
theorem nodup_names_foldl_overlay {fields : List Field} (hnames : (fields.map (·.name)).Nodup)
    (added : List Field) : ((added.foldl overlay fields).map (·.name)).Nodup := by
  have hallows : Allows List.Nodup (added.map (·.name)) := by
    refine ⟨List.nodup_nil, fun names hnames name _ hnew => ?_⟩
    exact List.nodup_append_comm.mp (List.nodup_cons.mpr ⟨hnew, hnames⟩)
  exact names_foldl_overlay hallows hnames fun f hf => List.mem_map_of_mem hf

/-- Among fields with different names, a field that is laid over replaces the one with its name. -/
theorem mem_overlay_iff {fields : List Field} (hnames : (fields.map (·.name)).Nodup) {f g : Field} :
    g ∈ overlay fields f ↔ g = f ∨ g ∈ fields ∧ g.name ≠ f.name := by
  induction fields with
  | nil => simp [overlay]
  | cons e es ih =>
    rw [List.map_cons] at hnames
    obtain ⟨he, hes⟩ := List.nodup_cons.mp hnames
    rw [overlay]
    split
    · next hsame =>
      have hfield : { e with layout := f.layout } = f := by rw [hsame]
      have hother (hg : g ∈ es) : g.name ≠ f.name := by
        intro hname
        rw [hsame, ← hname] at he
        exact he (List.mem_map_of_mem hg)
      rw [hfield, List.mem_cons, List.mem_cons]
      constructor
      · exact Or.imp_right fun hg => ⟨.inr hg, hother hg⟩
      · rintro (hg | ⟨rfl | hg, hname⟩)
        · exact .inl hg
        · exact absurd hsame hname
        · exact .inr hg
    · next hdiffers =>
      rw [List.mem_cons, ih hes, List.mem_cons]
      constructor
      · rintro (rfl | hg | ⟨hg, hname⟩)
        · exact .inr ⟨.inl rfl, hdiffers⟩
        · exact .inl hg
        · exact .inr ⟨.inr hg, hname⟩
      · rintro (hg | ⟨hg | hg, hname⟩)
        · exact .inr (.inl hg)
        · exact .inl hg
        · exact .inr (.inr ⟨hg, hname⟩)

/-- Of the fields laid over under one name the last counts. -/
theorem mem_foldl_overlay_iff {fields : List Field} (hnames : (fields.map (·.name)).Nodup)
    (added : List Field) {g : Field} :
    g ∈ added.foldl overlay fields ↔ (added.filter (·.name = g.name)).getLast? = some g
      ∨ g.name ∉ added.map (·.name) ∧ g ∈ fields := by
  induction added using List.reverseRecOn with
  | nil => simp
  | append_singleton added f ih =>
    rw [List.foldl_append, List.foldl_cons, List.foldl_nil,
      mem_overlay_iff (nodup_names_foldl_overlay hnames added), ih, List.filter_append,
      List.getLast?_append, List.map_append, List.mem_append]
    by_cases hname : f.name = g.name
    · simp [hname, eq_comm]
    · have hne : g ≠ f := fun h => hname (h ▸ rfl)
      simp [hname, hne, Ne.symm hname]

/-! ## The extension of a record -/

/-- Of the fields that are to hold the record itself, the last with a name is the one with that name. -/
theorem getLast?_filter_mk (self : List String) (l : Layout) (name : String) :
    ((self.map (Field.mk · l)).filter (·.name = name)).getLast?
      = if name ∈ self then some ⟨name, l⟩ else none := by
  induction self using List.reverseRecOn with
  | nil => rfl
  | append_singleton self own ih =>
    rw [List.map_append, List.filter_append, List.getLast?_append, ih]
    by_cases hname : own = name
    · simp [hname]
    · simp [hname, Ne.symm hname]

/-- The fields of an extension, in which the extension itself is written as record 0. -/
theorem mem_extendedFields_iff {r : Registry} {id : RecordId}
    (hnames : ((r.fields id).map (·.name)).Nodup) (added : List Field) (self : List String) {g : Field} :
    g ∈ r.extendedFields id added self ↔ g.name ∈ self ∧ g.layout = .record 0
      ∨ g.name ∉ self ∧ (added.filter (·.name = g.name)).getLast? = some g
      ∨ g.name ∉ self ∧ g.name ∉ added.map (·.name) ∧ g ∈ r.fields id := by
  rw [extendedFields, mem_foldl_overlay_iff hnames, List.filter_append, List.getLast?_append,
    getLast?_filter_mk, List.map_append, List.mem_append, List.map_map]
  obtain ⟨name, l⟩ := g
  by_cases hself : name ∈ self
  · simp [hself, eq_comm]
  · simp [hself]

/-- A new extension of a record is the record overlaid. -/
theorem overlaidBy_extendedFields {r : Registry} (hr : r.WellFormed) {record new : Record}
    (hrecord : record ∈ r.records) (hnames : (record.fields.map (·.name)).Nodup) {added : List Field}
    (hadded : ∀ f ∈ added, r.Knows f.layout) {self : List String}
    (hnew : new.fields = (r.extendedFields record.id added self).map (close new.id)) :
    record.OverlaidBy added self new := by
  have hfields : r.fields record.id = record.fields := by
    rw [Registry.fields, record?_of_mem hr hrecord]
    rfl
  have hmem (g : Field) := mem_extendedFields_iff (hfields ▸ hnames) added self (g := g)
  -- Only the fields named in `self` are open, since the others refer to registered records.
  have hlast {g : Field} (hg : (added.filter (·.name = g.name)).getLast? = some g) :
      close new.id g = g :=
    close_of_knows hr (hadded g (List.mem_of_mem_filter (List.mem_of_getLast? hg))) _
  have hkept {g : Field} (hg : g ∈ r.fields record.id) : close new.id g = g :=
    close_of_knows hr (hr.fields record hrecord g (hfields ▸ hg)) _
  constructor
  case names =>
    rw [hnew, names_close, extendedFields, names_foldl_overlay_eq, hfields, List.map_append, List.map_map]
    simp [Function.comp_def]
  case fields =>
    intro f
    rw [hnew, List.mem_map, ← hfields]
    constructor
    · rintro ⟨g, hg, rfl⟩
      rcases (hmem g).mp hg with ⟨hself, hzero⟩ | ⟨hself, hg⟩ | ⟨hself, hname, hg⟩
      · rw [close, if_pos hzero]
        exact .inl ⟨hself, rfl⟩
      · rw [hlast hg]
        exact .inr (.inl ⟨hself, hg⟩)
      · rw [hkept hg]
        exact .inr (.inr ⟨hself, hname, hg⟩)
    · rintro (⟨hself, hown⟩ | ⟨hself, hg⟩ | ⟨hself, hname, hg⟩)
      · refine ⟨⟨f.name, .record 0⟩, (hmem _).mpr (.inl ⟨hself, rfl⟩), ?_⟩
        rw [close, if_pos rfl, ← hown]
      · exact ⟨f, (hmem f).mpr (.inr (.inl ⟨hself, hg⟩)), hlast hg⟩
      · exact ⟨f, (hmem f).mpr (.inr (.inr ⟨hself, hname, hg⟩)), hkept hg⟩

/-- **Extending a record.** In every registry that is reached, extending a record whose fields have
different names leaves all records as they are, and doing it once more answers the same and changes
nothing. If nothing is added, the record itself is answered. Otherwise the answer is the record that is
filed under the overlaid fields; if there is none, one is added, which is the record overlaid. -/
theorem extend_overlays {r r' : Registry} (h : r.Reached) {record : Record}
    (hrecord : record ∈ r.records) (hnames : (record.fields.map (·.name)).Nodup) (hint : String)
    {added : List Field} (hadded : ∀ f ∈ added, r.Knows f.layout) (self : List String) {out : RecordId}
    (hout : r.extend record.id hint added self = (out, r')) :
    r.records <+: r'.records
      ∧ r'.extend record.id hint added self = (out, r')
      ∧ (added = [] ∧ self = [] → out = record.id ∧ r' = r)
      ∧ (¬(added = [] ∧ self = []) →
        match r.bodies.lookup (bodyKey (r.extendedFields record.id added self)) with
        | some found => out = found ∧ r' = r
        | none => ∃ new, r'.records = r.records ++ [new] ∧ new.id = out ∧ out ∉ r.ids
          ∧ record.OverlaidBy added self new) := by
  have hr := h.filed.wellFormed
  -- A registry is at least itself, so the answer is repeated in the one that the extension left.
  have hagain : r'.extend record.id hint added self = (out, r') := by
    have hruns : Runs True (fun id r' => id ∈ r'.ids) (·.extend record.id hint added self) r :=
      extend_runs hr (List.mem_map_of_mem hrecord) hadded True
    have hrepeats := hruns.repeats trivial r'
    have hsound := hruns.sound
    simp only [hout] at hrepeats hsound
    exact hrepeats hsound (le_refl r')
  have hnothing : added = [] ∧ self = [] → out = record.id ∧ r' = r := by
    rintro ⟨rfl, rfl⟩
    cases hout
    exact ⟨rfl, rfl⟩
  rcases extend_cases hr record.id hint added self with
    ⟨hempty, heq⟩ | ⟨found, hfound, heq⟩ | ⟨hnone, hint', heq⟩
  · obtain ⟨rfl, rfl⟩ := Prod.mk.inj (hout.symm.trans heq)
    refine ⟨List.prefix_rfl, hagain, hnothing, fun hsome => absurd ?_ hsome⟩
    simpa using hempty
  · obtain ⟨rfl, rfl⟩ := Prod.mk.inj (hout.symm.trans heq)
    refine ⟨List.prefix_rfl, hagain, hnothing, fun _ => ?_⟩
    rw [hfound]
    exact ⟨rfl, rfl⟩
  · obtain ⟨rfl, rfl⟩ := Prod.mk.inj (hout.symm.trans heq)
    refine ⟨List.prefix_append _ _, hagain, hnothing, fun _ => ?_⟩
    rw [hnone]
    refine ⟨_, rfl, rfl, ?_, overlaidBy_extendedFields hr hrecord hnames hadded rfl⟩
    -- The new record has the number behind all others.
    intro hmem
    rw [hr.ids, List.mem_range'_1] at hmem
    omega

/-- A list node that is overlaid: its value is replaced, its next node stays one of the old kind, of two
tags the last counts, and `up` holds the new record although a layout was given for it. -/
theorem extend_overlays_node :
    let r := ((({} : Registry).register "node" []).2.extend 1 "" [⟨"value", .integer⟩] ["next"]).2
    let added := [⟨"tag", .integer⟩, ⟨"value", .dynamic .integer⟩, ⟨"tag", .record 1⟩, ⟨"up", .integer⟩]
    let r' := (r.extend 2 "tree" added ["up", "down"]).2
    let node : Record := ⟨2, "node", "", [⟨"value", .integer⟩, ⟨"next", .record 2⟩]⟩
    r.records = [⟨1, "node", "", []⟩, node]
      ∧ r'.records = r.records ++ [⟨3, "tree", "", [⟨"value", .dynamic .integer⟩, ⟨"next", .record 2⟩,
        ⟨"tag", .record 1⟩, ⟨"up", .record 3⟩, ⟨"down", .record 3⟩]⟩]
      ∧ r.records <+: r'.records
      ∧ r'.extend 2 "tree" added ["up", "down"] = (3, r') := by
  intro r added r' node
  have hreached : r.Reached := by
    refine (Reached.start.register "node" [] (by simp)).extend 1 (by decide +kernel) "" _ ?_ _
    exact List.forall_mem_singleton.mpr (knows_scalar _ .integer)
  have hadded : ∀ f ∈ added, r.Knows f.layout := by
    simp only [added, List.forall_mem_cons, knows_record]
    exact ⟨knows_scalar _ .integer, knows_scalar _ .integer, by decide +kernel,
      knows_scalar _ .integer, by simp⟩
  have hout : r.extend 2 "tree" added ["up", "down"] = (3, r') := Prod.ext (by decide +kernel) rfl
  have hoverlays := extend_overlays hreached (show node ∈ r.records by decide +kernel) (by decide) "tree"
    hadded ["up", "down"] hout
  exact ⟨by decide +kernel, by decide +kernel, hoverlays.1, hoverlays.2.1⟩

end Registry

end LayoutInference
