import Mathlib
import LayoutInference.Proofs.Laws
import LayoutInference.Proofs.Registration
import LayoutInference.Proofs.SelfContained

/-!
# Layouts that fit apparent types

A layout fits an apparent type if it says nothing, or says the same as the type as far as both go
(`Apparent.Fits`): the scalar of a scalar, an array of fitting elements, a record of fitting fields.

The registry does not hand out what was asked for but what it has under the same key, and keys leave
the order of arrays of fixed and of growing length open. What fits does not depend on this order:
`Apparent.Fits.of_key_eq`. If the names of fields allow no confusion, the record that is found for
fields has the same fields (`Registry.Bodied.register_same`). So it fits a type whose members the
fields fit: `Apparent.Fits.of_suits`.
-/

namespace LayoutInference

/-! ## What keys show of containers -/

namespace Outline

/-- The outline of a spine shows every container once. -/
theorem length_ofSpine (ws : List Wrapper) :
    (ofSpine ws).outer.length + (ofSpine ws).dims.length + (ofSpine ws).inner.length = ws.length := by
  induction ws with
  | nil => rfl
  | cons w ws ih =>
    cases w with
    | fixed capacity =>
      simp only [ofSpine, List.length_cons]
      omega
    | dynamic | dict =>
      simp only [ofSpine, wrap, List.length_cons]
      split <;> simp only [List.length_cons] <;> omega

/-- A dictionary in a spine shows as its macro in the outline. -/
theorem dict_mem_ofSpine (ws : List Wrapper) :
    Wrapper.dict ∈ ws ↔ Macro.dict ∈ (ofSpine ws).outer ∨ Macro.dict ∈ (ofSpine ws).inner := by
  induction ws with
  | nil => simp [ofSpine]
  | cons w ws ih =>
    cases w with
    | fixed capacity => simpa [ofSpine] using ih
    | dynamic | dict =>
      simp only [ofSpine, wrap]
      split <;> simp [ih]

end Outline

namespace Layout

/-- No container of the layout is a dictionary. -/
def Dictless (l : Layout) : Prop := Wrapper.dict ∉ l.spine

/-- Layouts with one key have the same leaf, the same number of containers, and dictionaries both or
neither. -/
theorem shape_of_key_eq {l l' : Layout} (h : l'.key = l.key) :
    l'.leaf = l.leaf ∧ l'.spine.length = l.spine.length ∧ (l'.Dictless ↔ l.Dictless) := by
  obtain ⟨hleaf, houtline⟩ := (key_eq_iff l' l).mp h
  rw [outline, outline] at houtline
  refine ⟨hleaf, ?_, ?_⟩
  · rw [← Outline.length_ofSpine, ← Outline.length_ofSpine l.spine, houtline]
  · rw [Dictless, Dictless, Outline.dict_mem_ofSpine, Outline.dict_mem_ofSpine l.spine, houtline]

/-- Plain layouts without containers are told by their leaves. -/
theorem eq_of_leaf_eq {l l' : Layout} (hl : l.spine = []) (hplain : l.isPlain = true)
    (hl' : l'.spine = []) (hplain' : l'.isPlain = true) (hleaf : l'.leaf = l.leaf) : l' = l := by
  have hscalar {k k' : Scalar} (hk : k.isPlain = true) (hk' : k'.isPlain = true)
      (hcode : k'.code = k.code) : k' = k := by
    cases k <;> cases k' <;> simp_all [Scalar.code, Scalar.isPlain]
  cases l with
  | missing => cases hplain
  | fixed | dynamic | dict => cases hl
  | scalar k =>
    cases l' with
    | missing => cases hplain'
    | fixed | dynamic | dict => cases hl'
    | scalar k' => rw [hscalar hplain hplain' (Leaf.scalar.inj hleaf)]
    | record id => cases hleaf
  | record id =>
    cases l' with
    | missing => cases hplain'
    | fixed | dynamic | dict => cases hl'
    | scalar k' => cases hleaf
    | record id' => rw [Leaf.record.inj hleaf]

end Layout

/-! ## Fitting -/

/-- The layout says nothing, or the same as the type. What the fields of a record say is told by the
registry. -/
inductive Apparent.Fits (r : Registry) : Apparent → Layout → Prop where
  | fallback {t : Apparent} {l : Layout} (h : l.isFallback = true) : Fits r t l
  | string : Fits r .string .string
  | number : Fits r .number .integer
  | boolean : Fits r .boolean .boolean
  | fixed {t : Apparent} {e : Layout} (he : Fits r t e) (capacity : Int) :
    Fits r (.array t) (.fixed e capacity)
  | dynamic {t : Apparent} {e : Layout} (he : Fits r t e) : Fits r (.array t) (.dynamic e)
  | record {ms : List (Member Apparent)} {id : RecordId} (hid : id ∈ r.ids)
    (hfields : ∀ name l, (r.record? id).bind (·.field? name) = some l →
      Fits r (((Apparent.object ms).member? name).getD .any) l) : Fits r (.object ms) (.record id)

namespace Apparent.Fits

variable {r r' : Registry} {t : Apparent} {l l' : Layout}

/-- A layout that fits still fits when the registry has grown. -/
theorem mono (h : t.Fits r l) (hle : r ≤ r') : t.Fits r' l := by
  induction h with
  | fallback h => exact .fallback h
  | string => exact .string
  | number => exact .number
  | boolean => exact .boolean
  | fixed _ capacity ih => exact .fixed ih capacity
  | dynamic _ ih => exact .dynamic ih
  | record hid _ ih =>
    refine .record (hle.ids _ hid) fun name l hl => ih name l ?_
    rwa [← Registry.bind_field?_of_le hle hid]

/-- A layout that fits has no dictionary. -/
theorem dictless (h : t.Fits r l) : l.Dictless := by
  induction h with
  | @fallback t l h =>
    cases l with
    | missing | scalar => simp [Layout.Dictless, Layout.spine]
    | fixed | dynamic | dict | record => cases h
  | string | number | boolean | record => simp [Layout.Dictless, Layout.spine]
  | fixed _ _ ih | dynamic _ ih => simpa [Layout.Dictless, Layout.spine] using ih

/-- What fits does not depend on the order of the arrays around a leaf. -/
theorem of_shape (h : t.Fits r l) (hl : l.isPlain = true) (hl' : l'.isPlain = true)
    (hleaf : l'.leaf = l.leaf) (hlength : l'.spine.length = l.spine.length)
    (hdictless : l'.Dictless) : t.Fits r l' := by
  -- A layout without containers is the same layout.
  have hsame {l l' : Layout} (hl : l.isPlain = true) (hl' : l'.isPlain = true)
      (hleaf : l'.leaf = l.leaf) (hlength : l'.spine.length = l.spine.length)
      (hspine : l.spine = []) : l' = l :=
    Layout.eq_of_leaf_eq hspine hl (List.eq_nil_of_length_eq_zero (by rw [hlength, hspine]; rfl)) hl'
      hleaf
  induction h generalizing l' with
  | @fallback t l h =>
    have hspine : l.spine = [] := by
      cases l with
      | missing | scalar => rfl
      | fixed | dynamic | dict | record => cases h
    rw [hsame hl hl' hleaf hlength hspine]
    exact .fallback h
  | string =>
    rw [hsame hl hl' hleaf hlength rfl]
    exact .string
  | number =>
    rw [hsame hl hl' hleaf hlength rfl]
    exact .number
  | boolean =>
    rw [hsame hl hl' hleaf hlength rfl]
    exact .boolean
  | record hid hfields =>
    rw [hsame hl hl' hleaf hlength rfl]
    exact .record hid hfields
  | fixed _ _ ih | dynamic _ ih =>
    cases l' with
    | missing | scalar | record => simp [Layout.spine] at hlength
    | dict e' => exact absurd (List.mem_cons_self) hdictless
    | fixed e' capacity =>
      refine .fixed (@ih e' hl hl' hleaf (Nat.succ.inj hlength) fun h => hdictless ?_) capacity
      exact List.mem_cons_of_mem _ h
    | dynamic e' =>
      refine .dynamic (@ih e' hl hl' hleaf (Nat.succ.inj hlength) fun h => hdictless ?_)
      exact List.mem_cons_of_mem _ h

/-- What fits can be replaced by what has its key. -/
theorem of_key_eq (h : t.Fits r l) (hl : l.isPlain = true) (hl' : l'.isPlain = true)
    (hkey : l'.key = l.key) : t.Fits r l' := by
  obtain ⟨hleaf, hlength, hdictless⟩ := Layout.shape_of_key_eq hkey
  exact h.of_shape hl hl' hleaf hlength (hdictless.mpr h.dictless)

end Apparent.Fits

/-! ## Records that are found -/

namespace Registry

/-- Closing a field twice is closing it once. -/
theorem close_close (id : RecordId) (f : Field) : close id (close id f) = close id f := by
  unfold close
  by_cases hzero : f.layout = .record 0
  · rw [if_pos hzero]
    split <;> rfl
  · rw [if_neg hzero, if_neg hzero]

@[simp] theorem ids_closeSelf (r : Registry) (out : RecordId) : (r.closeSelf out).ids = r.ids := by
  simp only [ids, closeSelf, List.map_map]
  refine List.map_congr_left fun record _ => ?_
  simp only [Function.comp_apply]
  split <;> rfl

/-- Closing a record changes the fields of that record alone. -/
theorem fields_closeSelf (r : Registry) (out id : RecordId) : (r.closeSelf out).fields id
    = if id = out then (r.fields id).map (close out) else r.fields id := by
  have hrecord : (r.closeSelf out).record? id = (r.record? id).map fun record =>
      if record.id = out then { record with fields := record.fields.map (close out) }
      else record := by
    rw [record?, closeSelf, List.find?_map]
    congr 1
    refine congrArg (List.find? · r.records) (funext fun record => ?_)
    simp only [Function.comp_apply]
    split <;> rfl
  rw [fields, hrecord, fields]
  cases hfound : r.record? id with
  | none => simp
  | some record =>
    have hid : record.id = id := by simpa using List.find?_some hfound
    simp only [Option.map_some, Option.getD_some, hid]
    split <;> rfl

/-- Records are numbered in order, and a body is that of fields with which its record was registered,
whether references to the record itself have been closed since or not. -/
structure Bodied (r : Registry) : Prop where
  ids : r.ids = List.range' 1 r.records.length
  bodies : ∀ key id, r.bodies.lookup key = some id → id ∈ r.ids ∧ ∃ fields, key = bodyKey fields
    ∧ (r.fields id).map (close id) = fields.map (close id)

namespace Bodied

variable {r : Registry} (h : r.Bodied)

include h

/-- Registering a record keeps bodies those of fields. -/
theorem register (hint : String) (fields : List Field) : (r.register hint fields).2.Bodied := by
  rcases r.register_cases hint fields with ⟨id, -, heq⟩ | ⟨hnone, heq⟩
  · rwa [heq]
  · have hle := le_push hnone (identifier hint) fields
    rw [heq]
    refine ⟨?_, fun key id hkey => ?_⟩
    · rw [ids_push, h.ids, push, List.length_append, List.length_singleton, List.range'_concat,
        Nat.one_mul, Nat.add_comm 1]
    · rcases lookup_cons_cases hkey with hkey | ⟨rfl, rfl⟩
      · obtain ⟨hid, fields', hbody, hfields⟩ := h.bodies key id hkey
        exact ⟨hle.ids id hid, fields', hbody, by rw [hle.fields id hid, hfields]⟩
      · exact ⟨by simp [ids_push], fields, rfl, by rw [fields_push r h.ids]⟩

/-- Closing a record over itself keeps bodies those of fields. -/
theorem closeSelf (out : RecordId) : (r.closeSelf out).Bodied := by
  refine ⟨?_, fun key id hkey => ?_⟩
  · rw [ids_closeSelf, h.ids, Registry.closeSelf, List.length_map]
  · obtain ⟨hid, fields, hbody, hfields⟩ := h.bodies key id hkey
    refine ⟨by rwa [ids_closeSelf], fields, hbody, ?_⟩
    rw [fields_closeSelf, ← hfields]
    split
    · next hout =>
      rw [hout, List.map_map]
      exact List.map_congr_left fun f _ => close_close out f
    · rfl

/-- Interning a container leaves bodies alone. -/
theorem intern (l : Layout) : (r.intern l).2.Bodied := by
  rcases r.intern_cases l with ⟨-, heq⟩ | ⟨kept, -, -, heq⟩ | ⟨-, c, heq⟩
  all_goals
    rw [heq]
    exact ⟨h.ids, h.bodies⟩

/-- Final names leave bodies alone. -/
theorem finalize (roots : List Layout) : (r.finalize roots).2.Bodied := by
  have hle := r.le_finalize roots
  refine ⟨?_, fun key id hkey => ?_⟩
  · rw [ids_finalize, h.ids, (r.records_finalize roots).length_eq]
  · obtain ⟨hid, fields, hbody, hfields⟩ := h.bodies key id hkey
    exact ⟨hle.ids id hid, fields, hbody, by rw [hle.fields id hid, hfields]⟩

end Bodied

/-- Runs make plain layouts, and file records under the bodies they were registered with. -/
theorem bodied_law : Law (fun l => l.isPlain = true) fun r => r.Plain ∧ r.Bodied where
  scalar hkind := hkind
  record _ := rfl
  elem := plain_law.elem
  fields hr _ hrecord := plain_law.fields hr.1 hrecord
  empty := ⟨plain_law.empty, ⟨rfl, by simp⟩⟩
  register hr hint fields hfields := ⟨hr.1.register hint hfields, hr.2.register hint fields⟩
  closeSelf hr id := ⟨hr.1.closeSelf id, hr.2.closeSelf id⟩
  intern hr l _ helem hl :=
    ⟨⟨(plain_law.intern hr.1 helem hl).1, hr.2.intern l⟩, (plain_law.intern hr.1 helem hl).2⟩
  finalize hr roots := ⟨hr.1.finalize roots, hr.2.finalize roots⟩

/-- Registering known fields with sealed names answers a record of these fields. -/
theorem Bodied.register_same {r : Registry} (h : r.Bodied) (hr : r.WellFormed)
    (hregistered : ∀ record ∈ r.records, ∀ f ∈ record.fields, Sealed f.name) (hint : String)
    {fields : List Field} (hknown : ∀ f ∈ fields, r.Knows f.layout)
    (hnames : ∀ f ∈ fields, Sealed f.name) :
    List.Forall₂ Field.Same fields
      ((r.register hint fields).2.fields (r.register hint fields).1) := by
  rcases r.register_cases hint fields with ⟨id, hlookup, heq⟩ | ⟨hnone, heq⟩
  · obtain ⟨hid, fields', hbody, hfields⟩ := h.bodies _ _ hlookup
    obtain ⟨record, hrecord, rfl⟩ := List.mem_map.mp hid
    have hfound : r.fields record.id = record.fields := by
      rw [Registry.fields, record?_of_mem hr hrecord]
      rfl
    have hclosed : (r.fields record.id).map (close record.id) = r.fields record.id := by
      rw [hfound]
      exact (List.map_congr_left fun f hf =>
        close_of_knows hr (hr.fields record hrecord f hf) _).trans (List.map_id _)
    rw [heq]
    refine same_of_body hr hknown hnames hbody (hclosed.symm.trans hfields) ?_
    rw [hfound]
    exact hregistered record hrecord
  · rw [heq, fields_push r h.ids]
    exact List.forall₂_same.mpr fun f _ => ⟨rfl, (Layout.written_same_iff _ _).mpr rfl⟩

end Registry

/-! ## Records for types -/

/-- The field is one for the member of a type. -/
structure Member.Suits (r : Registry) (m : Member Apparent) (f : Field) : Prop where
  name : f.name = m.name
  plain : f.layout.isPlain = true
  fits : m.type.Fits r f.layout

/-- The same fields suit the same members. -/
theorem Member.Suits.of_same {r : Registry} {ms : List (Member Apparent)} {fields fields' : List Field}
    (h : List.Forall₂ (Member.Suits r) ms fields) (hsame : List.Forall₂ Field.Same fields fields')
    (hplain : ∀ f ∈ fields', f.layout.isPlain = true) :
    List.Forall₂ (Member.Suits r) ms fields' := by
  induction h generalizing fields' with
  | nil =>
    cases hsame
    exact .nil
  | cons hmf _ ih =>
    cases hsame with
    | cons hfg hrest =>
      obtain ⟨hg, hgs⟩ := List.forall_mem_cons.mp hplain
      refine .cons ⟨hfg.1 ▸ hmf.name, hg, ?_⟩ (ih hrest hgs)
      exact hmf.fits.of_key_eq hmf.plain hg ((Layout.written_same_iff _ _).mp hfg.2).symm

/-- The first field with a name suits the first member with it. -/
theorem Member.Suits.find {r : Registry} {ms : List (Member Apparent)} {fields : List Field}
    (h : List.Forall₂ (Member.Suits r) ms fields) {name : String} {l : Layout}
    (hl : (fields.find? (·.name = name)).map (·.layout) = some l) :
    (((Apparent.object ms).member? name).getD .any).Fits r l := by
  induction h with
  | nil => simp at hl
  | @cons m f ms fields hmf _ ih =>
    rw [Apparent.member?, List.find?_cons]
    rw [List.find?_cons, hmf.name] at hl
    by_cases hname : m.name = name
    · simp only [hname, decide_true, Option.map_some, Option.some.injEq] at hl ⊢
      exact hl ▸ hmf.fits
    · simp only [hname, decide_false] at hl ⊢
      exact ih hl

/-- A record of suiting fields fits the type. -/
theorem Apparent.Fits.of_suits {r : Registry} {ms : List (Member Apparent)} {id : RecordId}
    (hid : id ∈ r.ids) (h : List.Forall₂ (Member.Suits r) ms (r.fields id)) :
    (Apparent.object ms).Fits r (.record id) := by
  refine .record hid fun name l hl => Member.Suits.find h ?_
  rwa [← Registry.bind_field?_eq]

end LayoutInference
