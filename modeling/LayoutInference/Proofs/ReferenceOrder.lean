import Mathlib
import LayoutInference.Proofs.Questions
import LayoutInference.Proofs.Registration

/-!
# The order of references

Records are numbered in the order in which they are registered. The fields of a record refer to records
registered before it, inside any number of containers, or else are the record itself; so definitions
written in this order never refer forward.

References are numbers, and what a number stands for never changes: a record keeps its place, its
number and its fields through every later operation (`Registry.Reached.keeps`). Only its name changes,
when final names are given, and the key of a layout does not mention names.
-/

namespace LayoutInference

namespace Registry

/-- `Step r r'`: one operation leads from `r` to `r'`. Records that are referred to or extended are
registered before. -/
inductive Step (r : Registry) : Registry → Prop where
  | register (hint : String) (fields : List Field) (hfields : ∀ f ∈ fields, r.Knows f.layout) :
    Step r (r.register hint fields).2
  | extend (id : RecordId) (hid : id ∈ r.ids) (hint : String) (added : List Field)
    (hadded : ∀ f ∈ added, r.Knows f.layout) (self : List String) :
    Step r (r.extend id hint added self).2
  | make (w : Wrapper) (elem : Layout) (helem : r.Knows elem) : Step r (r.make w elem).2
  | finalize (roots : List Layout) : Step r (r.finalize roots).2

/-- Every record of `r` has its place in `r'`, with its number, its hint and its fields. -/
def Keeps (r r' : Registry) : Prop :=
  ∀ (k : Nat) (record : Record), r.records[k]? = some record →
    ∃ name, r'.records[k]? = some { record with name }

/-- The key of a layout as a registry tells it: a reference is written with the number that the record
at its place carries. -/
def keyOf (r : Registry) (l : Layout) : String :=
  (l.declarator fun id => "@" ++ toString (((r.records[id - 1]?).map (·.id)).getD 0)).text

variable {r r' r'' : Registry}

namespace Reached

/-- One more operation leads to a registry that is reached. -/
theorem step (h : r.Reached) (hstep : r.Step r') : r'.Reached := by
  cases hstep with
  | register hint fields hfields => exact h.register hint fields hfields
  | extend id hid hint added hadded self => exact h.extend id hid hint added hadded self
  | make w elem helem => exact h.make w elem helem
  | finalize roots => exact h.finalize roots

/-- Any number of operations leads to a registry that is reached. -/
theorem steps (h : r.Reached) (hsteps : Relation.ReflTransGen Step r r') : r'.Reached := by
  induction hsteps with
  | refl => exact h
  | tail _ hstep ih => exact ih.step hstep

end Reached

/-! ## Records stay -/

namespace Keeps

/-- A registry keeps its records. -/
theorem refl (r : Registry) : r.Keeps r := fun _ record hrecord => ⟨record.name, hrecord⟩

/-- What keeps the records twice keeps them. -/
theorem trans (h : r.Keeps r') (h' : r'.Keeps r'') : r.Keeps r'' := by
  intro k record hrecord
  obtain ⟨name, hlater⟩ := h k record hrecord
  obtain ⟨name', hlast⟩ := h' k _ hlater
  exact ⟨name', hlast⟩

/-- One more record leaves the others in their places. -/
theorem push (r : Registry) (key hint : String) (fields : List Field) :
    r.Keeps (r.push key hint fields) := by
  intro k record hrecord
  refine ⟨record.name, ?_⟩
  exact (List.getElem?_append_left (List.getElem?_eq_some_iff.mp hrecord).1).trans hrecord

/-- Final names leave the records in their places. -/
theorem finalize (r : Registry) (roots : List Layout) : r.Keeps (r.finalize roots).2 := by
  intro k record hrecord
  have hrenamed := List.forall₂_iff_get.mp (r.records_finalize roots)
  obtain ⟨hk, rfl⟩ := List.getElem?_eq_some_iff.mp hrecord
  obtain ⟨name, hname⟩ := hrenamed.2 k hk (hrenamed.1 ▸ hk)
  exact ⟨name, List.getElem?_eq_some_iff.mpr ⟨hrenamed.1 ▸ hk, hname⟩⟩

end Keeps

namespace Reached

/-- One operation adds a record behind all others, or only names records. -/
theorem keeps_step (h : r.Reached) (hstep : r.Step r') : r.Keeps r' := by
  cases hstep with
  | register hint fields =>
    rcases r.register_cases hint fields with ⟨id, -, heq⟩ | ⟨-, heq⟩ <;> rw [heq]
    · exact .refl r
    · exact .push r _ _ _
  | extend id hid hint added hadded self =>
    rcases extend_cases h.filed.wellFormed id hint added self with
      ⟨-, heq⟩ | ⟨out, -, heq⟩ | ⟨-, hint', heq⟩ <;> rw [heq]
    · exact .refl r
    · exact .refl r
    · exact .push r _ _ _
  | make w elem =>
    rw [make_eq_intern]
    rcases r.intern_cases (w.around elem) with ⟨-, heq⟩ | ⟨kept, -, -, heq⟩ | ⟨-, c, heq⟩ <;>
      rw [heq] <;> exact .refl r
  | finalize roots => exact .finalize r roots

/-- Whatever series of operations follows, records stay. -/
theorem keeps (h : r.Reached) (hsteps : Relation.ReflTransGen Step r r') : r.Keeps r' := by
  induction hsteps with
  | refl => exact .refl r
  | tail hsteps hstep ih => exact ih.trans ((h.steps hsteps).keeps_step hstep)

end Reached

/-! ## References -/

namespace Filed

variable (h : r.Filed)
include h

/-- A record carries the number of its place. -/
theorem id_of_getElem? {k : Nat} {record : Record} (hrecord : r.records[k]? = some record) :
    record.id = k + 1 := by
  have hid : r.ids[k]? = some record.id := by rw [ids, List.getElem?_map, hrecord]; rfl
  obtain ⟨hk, -⟩ := List.getElem?_eq_some_iff.mp hrecord
  rw [h.wellFormed.ids, List.getElem?_range' hk] at hid
  rw [← Option.some.inj hid, Nat.one_mul, Nat.add_comm]

/-- What a field refers to is registered before its record, or the field is the record itself. -/
theorem refers {record : Record} (hrecord : record ∈ r.records) {f : Field}
    (hf : f ∈ record.fields) {i : RecordId} (hi : f.layout.recordId? = some i) :
    i < record.id ∨ f.layout = .record record.id := by
  obtain ⟨fields, -, hfields, hopen⟩ := h.registered hrecord
  rw [hfields] at hf
  obtain ⟨g, hg, rfl⟩ := List.mem_map.mp hf
  by_cases hself : g.layout = .record 0
  · rw [close, if_pos hself]
    exact .inr rfl
  · rw [close, if_neg hself] at hi
    exact .inl ((hopen g hg).resolve_left hself i hi).2

/-- The key that a registry tells is the key. -/
theorem keyOf_eq {l : Layout} (hl : r.Knows l) : r.keyOf l = l.key := by
  refine congrArg Declarator.text (Layout.declarator_congr fun id hid => ?_)
  obtain ⟨record, hrecord, rfl⟩ := List.mem_map.mp (hl id hid)
  obtain ⟨k, hk⟩ := List.mem_iff_getElem?.mp hrecord
  have hplace := h.id_of_getElem? hk
  rw [hplace, Nat.add_sub_cancel, hk, Option.map_some, Option.getD_some, hplace]

end Filed

/-- **References are ordered and stable.** In every registry that is reached, the records are numbered
by their places from 1 on. What a field refers to, inside any number of containers, is registered and
no later than the record of the field, which only a field that is the record itself refers to; none
refers to record 0. Whatever operations follow, every record keeps its place, number and fields, and
every layout made of registered records keeps its key. -/
theorem references_ordered {r r' : Registry} (h : r.Reached)
    (hsteps : Relation.ReflTransGen Step r r') :
    (∀ (k : Nat) (record : Record), r.records[k]? = some record → record.id = k + 1)
      ∧ (∀ record ∈ r.records, ∀ f ∈ record.fields, ∀ i, f.layout.recordId? = some i →
        i ≠ 0 ∧ i ∈ r.ids ∧ i ≤ record.id ∧ (i = record.id → f.layout = .record i))
      ∧ r.Keeps r'
      ∧ ∀ l, r.Knows l → r.keyOf l = l.key ∧ r'.keyOf l = l.key := by
  have hfiled := h.filed
  refine ⟨fun k record => hfiled.id_of_getElem?, ?_, h.keeps hsteps, fun l hl => ⟨?_, ?_⟩⟩
  · intro record hrecord f hf i hi
    have hmem : i ∈ r.ids := hfiled.wellFormed.fields record hrecord f hf i hi
    refine ⟨?_, hmem, ?_⟩
    · rintro rfl
      exact zero_notMem_ids hfiled.wellFormed hmem
    · rcases hfiled.refers hrecord hf hi with hlt | hself
      · exact ⟨hlt.le, fun heq => absurd heq hlt.ne⟩
      · rw [hself] at hi ⊢
        exact ⟨(Option.some.inj hi).ge, fun heq => by rw [heq]⟩
  · exact hfiled.keyOf_eq hl
  · have hmem (id : RecordId) (hid : l.recordId? = some id) : id ∈ r'.ids := by
      obtain ⟨record, hrecord, rfl⟩ := List.mem_map.mp (hl id hid)
      obtain ⟨k, hk⟩ := List.mem_iff_getElem?.mp hrecord
      obtain ⟨name, hlater⟩ := h.keeps hsteps k record hk
      exact List.mem_map.mpr ⟨_, List.mem_of_getElem? hlater, rfl⟩
    exact (h.steps hsteps).filed.keyOf_eq hmem

/-- A list node that holds itself, and a record registered after it that holds an array of nodes. -/
theorem references_ordered_node :
    let r := ((({} : Registry).register "node" []).2.extend 1 "" [] ["next"]).2
    let r' := (r.register "list" [⟨"nodes", .dynamic (.record 2)⟩]).2
    r.records = [⟨1, "node", "", []⟩, ⟨2, "node", "", [⟨"next", .record 2⟩]⟩]
      ∧ r'.records = r.records ++ [⟨3, "list", "", [⟨"nodes", .dynamic (.record 2)⟩]⟩]
      ∧ r'.keyOf (.dynamic (.record 2)) = (Layout.dynamic (.record 2)).key := by
  intro r r'
  have hreached : r.Reached :=
    (Reached.start.register "node" [] (by simp)).extend 1 (by decide +kernel) "" [] (by simp) _
  have hknows : r.Knows (.dynamic (.record 2)) := by
    intro id hid
    cases hid
    decide +kernel
  have hordered := references_ordered hreached
    (.single (.register "list" [⟨"nodes", .dynamic (.record 2)⟩] (by simpa using hknows)))
  exact ⟨by decide +kernel, by decide +kernel, (hordered.2.2.2 _ hknows).2⟩

end Registry

end LayoutInference
