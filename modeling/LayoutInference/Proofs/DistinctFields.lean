import Mathlib
import LayoutInference.Proofs.WrittenFields

/-!
# Fields with distinct names

Two fields of a record have the same name only if an object literal says so. A record starts with the
members of an object literal as they stand there, and from then on it grows by names that it lacks: a
property that is added under a name already there changes the layout of that field.
`Program.FieldNames` says so of a list of names. It holds of every record that a run registers, so the
fields of all records are distinct in a program whose literals repeat no name:
`infer_fields_distinct`.

Literals may repeat names, and the records made from them do so too: `repeatedMember_repeats`.
-/

namespace LayoutInference

namespace Program

/-- The names are those of the members of an object literal, if of any, and behind them distinct names
that are not among those. -/
def FieldNames (p : Program) (names : List String) : Prop :=
  ∃ base added, names = base ++ added
    ∧ (base = [] ∨ ∃ n ∈ p.nodes.toList, n.kind = .objectLiteral ∧ base = p.memberNames n.items)
    ∧ added.Nodup ∧ base.Disjoint added

variable {p : Program}

/-- A name that is new may be put behind the names of fields. -/
theorem FieldNames.snoc {names : List String} (h : p.FieldNames names) {name : String}
    (hnew : name ∉ names) : p.FieldNames (names ++ [name]) := by
  obtain ⟨base, added, rfl, hbase, hadded, hdisjoint⟩ := h
  rw [List.mem_append, not_or] at hnew
  refine ⟨base, added ++ [name], List.append_assoc .., hbase, ?_, ?_⟩
  · exact hadded.append (List.nodup_singleton name) (List.disjoint_singleton.mpr hnew.2)
  · exact List.disjoint_append_right.mpr ⟨hdisjoint, List.disjoint_singleton.mpr hnew.1⟩

/-- Names repeat only where an object literal repeats them. -/
theorem FieldNames.nodup {names : List String} (h : p.FieldNames names)
    (hliterals : ∀ n ∈ p.nodes.toList, n.kind = .objectLiteral → (p.memberNames n.items).Nodup) :
    names.Nodup := by
  obtain ⟨base, added, rfl, hbase, hadded, hdisjoint⟩ := h
  have hnodup : base.Nodup := by
    rcases hbase with rfl | ⟨n, hn, hkind, rfl⟩
    · exact List.nodup_nil
    · exact hliterals n hn hkind
  exact hnodup.append hadded hdisjoint

/-- Names of fields are admitted: those of a literal, and new ones behind them. -/
theorem admits_fieldNames (p : Program) : p.Admits p.FieldNames where
  nil := ⟨[], [], rfl, .inl rfl, List.nodup_nil, List.disjoint_nil_left _⟩
  snoc _ hnames _ _ hnew := hnames.snoc hnew
  literal n hn hkind := ⟨p.memberNames n.items, [], (List.append_nil _).symm, .inr ⟨n, hn, hkind, rfl⟩,
    List.nodup_nil, List.disjoint_nil_right _⟩

end Program

/-- What a program admits holds of the names in all records of a result. -/
theorem Result.records_named {P : List String → Prop} {s : Subject} (hs : s.Named P) {bound : Nat}
    {record : Record} (hrecord : record ∈ (ofOutcome s (s.resolve bound)).records) :
    P (record.fields.map (·.name)) := by
  obtain ⟨id, -, hid⟩ := List.mem_filterMap.mp hrecord
  exact (finalState_named hs bound).store.registry.fields record (List.mem_of_find?_eq_some hid)

/-- In every record of a result, the names are those of an object literal and behind them distinct new
ones. So no record has two fields with the same name, unless an object literal has two members with
the same name. -/
theorem infer_fields_distinct {p : Program} {max : Int} {r : Result} (hr : infer p max = .ok r) :
    (∀ record ∈ r.records, p.FieldNames (record.fields.map (·.name)))
      ∧ ((∀ n ∈ p.nodes.toList, n.kind = .objectLiteral → (p.memberNames n.items).Nodup) →
        ∀ record ∈ r.records, (record.fields.map (·.name)).Nodup) := by
  obtain ⟨bound, rfl⟩ : ∃ bound, r = Result.ofOutcome (Subject.of p) ((Subject.of p).resolve bound) :=
    ⟨_, (infer_eq_ok_iff.mp hr).1⟩
  have hnames : ∀ record ∈ (Result.ofOutcome (Subject.of p) ((Subject.of p).resolve bound)).records,
      p.FieldNames (record.fields.map (·.name)) := fun _ hrecord =>
    Result.records_named (Subject.named_of p.admits_fieldNames) hrecord
  exact ⟨hnames, fun hliterals record hrecord => (hnames record hrecord).nodup hliterals⟩

/-- `let x = {a: 1}; x.a = 2; x.b = x;` -/
def Script.extendedLiteral : Script :=
  ⟨[declares "x" (.object ⟨0, 0⟩ [memberOf "a" (numberOf "1")]),
    assigns (.dot ⟨0, 0⟩ (nameOf "x") "a") (numberOf "2"),
    assigns (.dot ⟨0, 0⟩ (nameOf "x") "b") (nameOf "x")]⟩

/-- The property `a` is there when it is written again, and `b` is put behind it. -/
theorem infer_fields_distinct_extendedLiteral :
    ∃ r, infer Script.extendedLiteral.program 64 = .ok r
      ∧ (∀ n ∈ Script.extendedLiteral.program.nodes.toList, n.kind = .objectLiteral →
        (Script.extendedLiteral.program.memberNames n.items).Nodup)
      ∧ r.records.map (fun record => record.fields.map (·.name)) = [["a", "b"]]
      ∧ ∀ record ∈ r.records, (record.fields.map (·.name)).Nodup := by
  have hrun : infer Script.extendedLiteral.program 64
      = .ok (runInference Script.extendedLiteral.program 64) :=
    infer_eq_ok_iff.mpr ⟨rfl, by decide +kernel⟩
  have hliterals : ∀ n ∈ Script.extendedLiteral.program.nodes.toList, n.kind = .objectLiteral →
      (Script.extendedLiteral.program.memberNames n.items).Nodup := by
    decide +kernel
  have hrecords : (runInference Script.extendedLiteral.program 64).records.map
      (fun record => record.fields.map (·.name)) = [["a", "b"]] := by
    cbv
  exact ⟨_, hrun, hliterals, hrecords, (infer_fields_distinct hrun).2 hliterals⟩

/-- `let x = {a: 1, a: 2};` -/
def Script.repeatedMember : Script :=
  ⟨[declares "x" (.object ⟨0, 0⟩ [memberOf "a" (numberOf "1"), memberOf "a" (numberOf "2")])]⟩

/-- The record of a literal that repeats a name has two fields with that name. -/
theorem repeatedMember_repeats :
    ∃ r, infer Script.repeatedMember.program 64 = .ok r
      ∧ r.records.map (fun record => record.fields.map (·.name)) = [["a", "a"]] := by
  have hrun : infer Script.repeatedMember.program 64
      = .ok (runInference Script.repeatedMember.program 64) :=
    infer_eq_ok_iff.mpr ⟨rfl, by decide +kernel⟩
  exact ⟨_, hrun, by cbv⟩

end LayoutInference
