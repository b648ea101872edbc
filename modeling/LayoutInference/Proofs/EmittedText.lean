import Mathlib
import LayoutInference.Layout.Rendering
import LayoutInference.Proofs.FinalNames

/-!
# Emitted text

After final names are given, the written form of a layout tells which layout it is. Names are
identifiers, so none of them holds the space that stands behind it, and no two records at hand have the
same one; what a written form shows of a layout is then what its key shows
(`Layout.written_eq_iff`). So `render_eq_iff`: layouts are written alike exactly if they have the same
key.
-/

namespace LayoutInference

/-- A layout whose leaf is a record is made of that record. -/
theorem Layout.recordId?_of_leaf {l : Layout} {id : RecordId} (h : l.leaf = .record id) :
    l.recordId? = some id := by
  induction l with
  | missing | scalar => cases h
  | fixed elem _ ih | dynamic elem ih | dict elem ih => exact ih h
  | record i => rw [← Leaf.record.inj h]; rfl

namespace Registry

variable {r : Registry}

/-- A record that got a final name is written by it. -/
theorem recordName_of_mem (hr : r.WellFormed) {record : Record} (h : record ∈ r.records)
    (hname : IsIdentifier record.name) : r.recordName record.id = record.name := by
  rw [recordName, record?_of_mem hr h]
  refine if_pos fun hempty => ?_
  obtain ⟨c, cs, htext, -⟩ := hname
  rw [hempty] at htext
  cases htext

/-- Final names tell the records within the roots apart. -/
theorem Reached.recordName_inj (h : r.Reached) {roots : List Layout} {i j : RecordId}
    (hids : i ∈ r.ids ∧ j ∈ r.ids) (hi : r.Within roots (.record i))
    (hj : r.Within roots (.record j))
    (hname : (r.finalize roots).2.recordName i = (r.finalize roots).2.recordName j) : i = j := by
  have hfinal := h.filed.wellFormed.finalize roots
  have hfinalizes := finalizes_of_reached h roots
  rw [← ids_finalize r roots] at hids
  obtain ⟨⟨a, ha, rfl⟩, b, hb, rfl⟩ := hids.imp List.mem_map.mp List.mem_map.mp
  rw [recordName_of_mem hfinal ha (hfinalizes.identifiers a ha hi),
    recordName_of_mem hfinal hb (hfinalizes.identifiers b hb hj)] at hname
  rw [hfinalizes.distinct a ha b hb hi hj hname]

/-- After final names are given, two layouts within the roots are written alike exactly if they are the
same. -/
theorem render_eq_iff (h : r.Reached) {roots : List Layout} (hroots : ∀ l ∈ roots, r.Knows l)
    {t u : Layout} (ht : r.Within roots t) (hu : r.Within roots u) :
    (r.finalize roots).2.render t = (r.finalize roots).2.render u ↔ t.same u = true := by
  have hr := h.filed.wellFormed
  -- The missing layout has no written form, so it is like no other.
  by_cases htm : t = .missing
  · subst htm
    cases u <;> simp [render, Layout.same]
  · by_cases hum : u = .missing
    · subst hum
      cases t <;> simp_all [render, Layout.same]
    · rw [render, render, if_neg htm, if_neg hum, Except.ok.injEq, Layout.same_iff_key_eq htm hum,
        Layout.key_eq_iff]
      refine Layout.written_eq_iff (fun id => ?_) fun i j hi hj hname => ?_
      · exact ((h.spelled.finalize roots).isIdentifier_recordName id).space_notMem
      · have hi := Layout.recordId?_of_leaf hi
        have hj := Layout.recordId?_of_leaf hj
        exact h.recordName_inj ⟨ht.knows hr hroots i hi, hu.knows hr hroots j hj⟩ (ht.record hi)
          (hu.record hj) hname

/-- The elements of an array inside a record that is reached through another one, and a root. -/
theorem render_eq_iff_collidingHints :
    collidingHints.Reached
      ∧ (∀ l ∈ [.fixed (.record 5) 3, .record 3], collidingHints.Knows l)
      ∧ collidingHints.Within [.fixed (.record 5) 3, .record 3] (.record 1)
      ∧ collidingHints.Within [.fixed (.record 5) 3, .record 3] (.record 3)
      ∧ (collidingHints.finalize [.fixed (.record 5) 3, .record 3]).2.render (.record 1)
        ≠ (collidingHints.finalize [.fixed (.record 5) 3, .record 3]).2.render (.record 3) := by
  have hroots : ∀ l ∈ [.fixed (.record 5) 3, .record 3], collidingHints.Knows l := by
    simp only [List.forall_mem_cons, knows_record]
    refine ⟨fun id hid => ?_, by decide +kernel, by simp⟩
    obtain rfl : 5 = id := Option.some.inj hid
    decide +kernel
  have hholder : collidingHints.Within [.fixed (.record 5) 3, .record 3] (.record 5) :=
    .elem (.root (List.mem_cons_self ..)) rfl
  have howner : collidingHints.Within [.fixed (.record 5) 3, .record 3] (.record 2) :=
    hholder.field (f := ⟨"owner", .record 2⟩) (by decide +kernel)
  have harray : collidingHints.Within [.fixed (.record 5) 3, .record 3] (.dynamic (.record 1)) :=
    howner.field (f := ⟨"b", .dynamic (.record 1)⟩) (by decide +kernel)
  have hlast : collidingHints.Within [.fixed (.record 5) 3, .record 3] (.record 3) :=
    .root (List.mem_cons_of_mem _ (List.mem_singleton_self _))
  refine ⟨collidingHints_reached, hroots, harray.elem rfl, hlast, fun heq => ?_⟩
  have hsame := (render_eq_iff collidingHints_reached hroots (harray.elem rfl) hlast).mp heq
  revert hsame
  decide +kernel

end Registry

end LayoutInference
