import LayoutInference.Layout.Registry
import LayoutInference.Text.Fresh

/-!
# Final names of records

Once the layouts to be shown are known, the records they are made of get their final names in the
order of registration: the hint with `_t`, numbered from 2 on when that is taken, or a numbered name
for a record without hint. Other records keep the name they have.
-/

namespace LayoutInference

namespace Registry

/-- The numbers of all records in order. -/
def ids (r : Registry) : List RecordId := r.records.map (·.id)

/-- The records of `unseen` that cannot be reached from `work` through them. -/
def unreached (r : Registry) (unseen : List RecordId) (work : List Layout) : List RecordId :=
  match work with
  | [] => unseen
  | l :: work =>
    match l.recordId? with
    | none => r.unreached unseen work
    | some id =>
      if _h : id ∈ unseen then
        r.unreached (unseen.erase id) ((r.fields id).map (·.layout) ++ work)
      else r.unreached unseen work
termination_by (unseen.length, work.length)
decreasing_by
  · exact Prod.Lex.right _ (by simp)
  · refine Prod.Lex.left _ _ ?_
    rw [List.length_erase_of_mem _h]
    have := List.length_pos_of_mem _h
    omega
  · exact Prod.Lex.right _ (by simp)

/-- The records that `roots` are made of, directly or through fields, in order. -/
def reachable (r : Registry) (roots : List Layout) : List RecordId :=
  let others := r.unreached r.ids roots
  r.ids.filter (· ∉ others)

/-- The names given so far, and the first number not tried for records without hint. -/
structure Names where
  used : List String := []
  anonymous : Nat := 0

/-- The name of a record without hint. -/
def anonymousName (k : Nat) : String := "struct_" ++ toString k ++ "_t"

/-- The names of a record with a hint in the order in which they are tried, from number 1. -/
def hintedName (hint : String) (k : Nat) : String :=
  if k = 1 then hint ++ "_t" else hint ++ "_" ++ toString k ++ "_t"

/-- The next name for a record with the given hint. -/
def Names.give (names : Names) (hint : String) : String × Names :=
  if hint = "" then
    let k := firstFree names.used anonymousName names.anonymous
    (anonymousName k, ⟨anonymousName k :: names.used, k + 1⟩)
  else
    let name := hintedName hint (firstFree names.used (hintedName hint) 1)
    (name, { names with used := name :: names.used })

/-- The records with final names for those of `ids`. -/
def named (ids : List RecordId) : Names → List Record → List Record
  | _, [] => []
  | names, record :: records =>
    if record.id ∈ ids then
      let (name, names) := names.give record.hint
      { record with name } :: named ids names records
    else record :: named ids names records

/-- Give final names to the records that `roots` are made of. The answer lists those that have
fields. -/
def finalize (r : Registry) (roots : List Layout) : List RecordId × Registry :=
  let ids := r.reachable roots
  let r := { r with records := named ids {} r.records }
  ((r.records.filter fun record => record.id ∈ ids ∧ !record.fields.isEmpty).map (·.id), r)

end Registry

end LayoutInference
