import Mathlib
import LayoutInference.Proofs.Bodies
import LayoutInference.Proofs.FixedPoint
import LayoutInference.Proofs.StoreInvariants

/-!
# Laws of layouts

Layouts are made in few ways: from scalars, from records that are registered, from containers of other
layouts that are interned, and by reading elements and fields back. `Registry.Law L I` says that all of
these keep to `L` as long as the registry satisfies `I`, and keep `I`. Derivation then keeps to the law
as well: `Subject.upholds_obeys`.

The law used most is `Registry.plain_law`: layouts are built from the scalars of the language alone,
with nothing missing inside, and a container is kept under its own key.
-/

namespace LayoutInference

/-- A law of layouts: `L` is kept by all ways of making a layout from others while the registry
satisfies `I`, and `I` is kept by what these register. -/
structure Registry.Law (L : Layout → Prop) (I : Registry → Prop) : Prop where
  scalar {kind : Scalar} (hkind : kind.isPlain = true) : L (.scalar kind)
  record (id : RecordId) : L (.record id)
  elem {l elem : Layout} (hl : L l) (helem : l.elem? = some elem) : L elem
  fields {r : Registry} (hr : I r) {record : Record} (hrecord : record ∈ r.records) :
    ∀ f ∈ record.fields, L f.layout
  empty : I {}
  register {r : Registry} (hr : I r) (hint : String) {fields : List Field}
    (hfields : ∀ f ∈ fields, L f.layout) : I (r.register hint fields).2
  closeSelf {r : Registry} (hr : I r) (id : RecordId) : I (r.closeSelf id)
  intern {r : Registry} (hr : I r) {l elem : Layout} (helem : l.elem? = some elem) (hl : L elem) :
    I (r.intern l).2 ∧ L (r.intern l).1
  finalize {r : Registry} (hr : I r) (roots : List Layout) : I (r.finalize roots).2

variable {L : Layout → Prop} {I : Registry → Prop}

namespace Registry

namespace Law

variable (law : Law L I) {r : Registry} (hr : I r)

include law hr

/-- A field that is looked up keeps to the law. -/
theorem field {id : RecordId} {name : String} {l : Layout}
    (hl : (r.record? id).bind (·.field? name) = some l) : L l := by
  obtain ⟨record, hrecord, hl⟩ := Option.bind_eq_some_iff.mp hl
  obtain ⟨f, hf, rfl⟩ := Option.map_eq_some_iff.mp hl
  exact law.fields hr (List.mem_of_find?_eq_some hrecord) f (List.mem_of_find?_eq_some hf)

/-- Extending a record is registering one and closing it. -/
theorem extend (id : RecordId) (hint : String) {added : List Field}
    (hadded : ∀ f ∈ added, L f.layout) (self : List String) :
    I (r.extend id hint added self).2 := by
  rw [Registry.extend]
  split
  · exact hr
  · refine law.closeSelf (law.register hr _ fun g hg => ?_) _
    rcases mem_foldl_overlay hg with hg | ⟨f, hf, heq⟩
    · rw [Registry.fields] at hg
      cases hrecord : r.record? id with
      | none => simp [hrecord] at hg
      | some record =>
        rw [hrecord] at hg
        exact law.fields hr (List.mem_of_find?_eq_some hrecord) g hg
    · rw [heq]
      rcases List.mem_append.mp hf with hf | hf
      · exact hadded f hf
      · obtain ⟨name, -, rfl⟩ := List.mem_map.mp hf
        exact law.record 0

end Law

end Registry

/-! ## Plain layouts -/

/-- Whether a layout is built from the scalars of the language with nothing missing inside. -/
def Layout.isPlain : Layout → Bool
  | .missing => false
  | .scalar kind => kind.isPlain
  | .fixed elem _ | .dynamic elem | .dict elem => elem.isPlain
  | .record _ => true

/-- A container is plain exactly when its elements are. -/
theorem Layout.isPlain_of_elem? {l elem : Layout} (helem : l.elem? = some elem) :
    l.isPlain = elem.isPlain := by
  cases l with
  | missing | scalar | record => cases helem
  | fixed | dynamic | dict =>
    cases helem
    rfl

namespace Registry

/-- The fields and the containers of a registry are plain, and containers are kept under their own
keys. -/
structure Plain (r : Registry) : Prop where
  fields : ∀ record ∈ r.records, ∀ f ∈ record.fields, f.layout.isPlain = true
  containers : ∀ key l, r.containers.lookup key = some l → l.isPlain = true ∧ l.key = key

namespace Plain

variable {r : Registry} (h : r.Plain)

include h

/-- Registering plain fields leaves a registry plain. -/
theorem register (hint : String) {fields : List Field}
    (hfields : ∀ f ∈ fields, f.layout.isPlain = true) : (r.register hint fields).2.Plain := by
  rcases r.register_cases hint fields with ⟨id, -, heq⟩ | ⟨-, heq⟩
  · rwa [heq]
  · rw [heq]
    refine ⟨fun record hrecord => ?_, h.containers⟩
    rcases List.mem_append.mp hrecord with hrecord | hrecord
    · exact h.fields record hrecord
    · rw [List.mem_singleton.mp hrecord]
      exact hfields

/-- Closing a record over itself leaves a registry plain. -/
theorem closeSelf (id : RecordId) : (r.closeSelf id).Plain := by
  refine ⟨fun record' hrecord' f' hf' => ?_, h.containers⟩
  obtain ⟨record, hrecord, rfl⟩ := List.mem_map.mp hrecord'
  split at hf'
  · obtain ⟨f, hf, rfl⟩ := List.mem_map.mp hf'
    split
    · rfl
    · exact h.fields record hrecord f hf
  · exact h.fields record hrecord f' hf'

/-- Interning a plain layout leaves a registry plain, and the answer is plain. -/
theorem intern {l : Layout} (hl : l.isPlain = true) :
    (r.intern l).2.Plain ∧ (r.intern l).1.isPlain = true := by
  rcases r.intern_cases l with ⟨-, heq⟩ | ⟨kept, hkept, -, heq⟩ | ⟨-, c, heq⟩
  · rw [heq]
    exact ⟨⟨h.fields, forall_lookup_cons h.containers ⟨hl, rfl⟩⟩, hl⟩
  · rw [heq]
    exact ⟨h, (h.containers _ _ hkept).1⟩
  · rw [heq]
    exact ⟨⟨h.fields, h.containers⟩, hl⟩

/-- What is answered for a container has its key. -/
theorem key_intern (l : Layout) : (r.intern l).1.key = l.key := by
  rcases r.intern_cases l with ⟨-, heq⟩ | ⟨kept, hkept, -, heq⟩ | ⟨-, c, heq⟩
  · rw [heq]
  · rw [heq]
    exact (h.containers _ _ hkept).2
  · rw [heq]

/-- Final names leave a registry plain. -/
theorem finalize (roots : List Layout) : (r.finalize roots).2.Plain := by
  refine ⟨fun record' hrecord' => ?_, h.containers⟩
  obtain ⟨record, hrecord, name, rfl⟩ := exists_of_mem_right (r.records_finalize roots) hrecord'
  exact h.fields record hrecord

end Plain

/-- Runs make plain layouts. -/
theorem plain_law : Law (fun l => l.isPlain = true) Plain where
  scalar hkind := hkind
  record _ := rfl
  elem hl helem := (Layout.isPlain_of_elem? helem).symm.trans hl
  fields hr _ hrecord := hr.fields _ hrecord
  empty := ⟨by simp, by simp⟩
  register hr hint _ hfields := hr.register hint hfields
  closeSelf hr id := hr.closeSelf id
  intern hr _ _ helem hl := hr.intern ((Layout.isPlain_of_elem? helem).trans hl)
  finalize hr roots := hr.finalize roots

end Registry

/-! ## Derivation -/

namespace Store

/-- The registry and the layouts of the literals keep to a law. -/
structure Obeys (L : Layout → Prop) (I : Registry → Prop) (st : Store) : Prop where
  registry : I st.registry
  literals : ∀ id l, st.literals.lookup id = some l → L l

/-- An operation on the registry that keeps a law keeps it in the store. -/
theorem withRegistry_obeys {α : Type} {Q : α → Prop} {operation : Registry → α × Registry}
    (h : Keeps I Q operation) : Keeps (Obeys L I) Q (withRegistry operation) := by
  intro st hst
  obtain ⟨hregistry, hanswer⟩ := h st.registry hst.registry
  exact ⟨⟨hregistry, hst.literals⟩, hanswer⟩

/-- A note changes nothing that a law speaks of. -/
theorem note_obeys (p : Program) (notice : Notice) (node : Option NodeId) :
    Keeps (Obeys L I) (fun _ => True) (note p notice node) :=
  fun _ hst => ⟨⟨hst.registry, hst.literals⟩, trivial⟩

variable (law : Registry.Law L I)

include law

/-- A fixed array of lawful elements is lawful. -/
theorem fixedArray_obeys {elem : Layout} (helem : L elem) (capacity : Int) :
    Keeps I L (fun r => r.fixedArray elem capacity) :=
  fun _ hr => law.intern hr rfl helem

/-- A growing array of lawful elements is lawful. -/
theorem dynamicArray_obeys {elem : Layout} (helem : L elem) :
    Keeps I L (fun r => r.dynamicArray elem) :=
  fun _ hr => law.intern hr rfl helem

/-- A dictionary of lawful elements is lawful. -/
theorem dictionary_obeys {elem : Layout} (helem : L elem) :
    Keeps I L (fun r => r.dictionary elem) :=
  fun _ hr => law.intern hr rfl helem

end Store

/-- Derivation keeps to a law. -/
theorem Subject.upholds_obeys (s : Subject) (law : Registry.Law L I) :
    s.Upholds (fun _ => True) (fun _ => True) (Store.Obeys L I) L L where
  toTyped := s.typed_true
  scalar hkind := law.scalar hkind
  record id := law.record id
  weaken h := h
  register hint _ _ hfields :=
    Store.withRegistry_obeys fun _ hr => ⟨law.register hr hint hfields, trivial⟩
  dynamic helem := Store.withRegistry_obeys (Store.dynamicArray_obeys law helem)
  note _ node := Store.note_obeys _ _ node
  known hst := hst.literals _ _
  fixed helem capacity := Store.withRegistry_obeys (Store.fixedArray_obeys law helem capacity)
  keep hst _ _ hl := ⟨hst.registry, forall_lookup_cons hst.literals hl⟩

end LayoutInference
