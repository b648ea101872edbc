import Mathlib
import LayoutInference.Proofs.ApparentCache
import LayoutInference.Proofs.Bodies
import LayoutInference.Proofs.Registration
import LayoutInference.Proofs.StoreInvariants

/-!
# Where the names of fields come from

The fields of a record have the names of the members of an object literal, and to them names of
properties in the program (`Program.propertyNames`) are added. What is true of the former and stays so
when the latter are added (`Program.Admits`) is true of the names in all records that are registered
while layouts are derived (`Subject.upholds_named`). One such fact is that all names stand in the
program. Together with what bodies tell, it says that a record is found only for fields with its own
names, if the names of the program allow no confusion.
-/

namespace LayoutInference

/-! ## Lists of names -/

/-- Lists of names that satisfy `P` may be extended by `names`. -/
structure Allows (P : List String → Prop) (names : List String) : Prop where
  nil : P []
  snoc : ∀ fields, P fields → ∀ name ∈ names, name ∉ fields → P (fields ++ [name])

/-- The names of the members of every object literal satisfy `P`, and may be extended by names of
properties. -/
structure Program.Admits (p : Program) (P : List String → Prop) : Prop
    extends Allows P p.propertyNames where
  literal : ∀ n ∈ p.nodes.toList, n.kind = .objectLiteral → P (p.memberNames n.items)

/-- The members of an object literal have names of the program. -/
theorem Program.memberNames_subset (p : Program) (properties : List NodeId) :
    p.memberNames properties ⊆ p.propertyNames := by
  intro name hname
  obtain ⟨n, hn, rfl⟩ := List.mem_map.mp hname
  obtain ⟨hn, hmember⟩ := List.mem_filter.mp hn
  obtain ⟨id, -, hid⟩ := List.mem_filterMap.mp hn
  exact member_named hid hmember

/-- Names of properties are what every program admits. -/
theorem Program.admits_subset (p : Program) : p.Admits (· ⊆ p.propertyNames) where
  nil := List.nil_subset _
  snoc _ hfields _ hname _ := List.append_subset.mpr ⟨hfields, by simpa using hname⟩
  literal _ _ _ := p.memberNames_subset _

/-! ## Members of apparent types -/

namespace Apparent

mutual

/-- Whether the names of members satisfy `P`, in a type and in those inside it. -/
@[simp] def NamedBy (P : List String → Prop) : Apparent → Prop
  | .object members => P (members.map (·.name)) ∧ MembersNamedBy P members
  | .array elem => elem.NamedBy P
  | _ => True

/-- The same of the types of a list of members. -/
@[simp] def MembersNamedBy (P : List String → Prop) : List (Member Apparent) → Prop
  | [] => True
  | ⟨_, type, _⟩ :: members => type.NamedBy P ∧ MembersNamedBy P members

end

variable {P : List String → Prop}

/-- The names in the elements of a type satisfy the condition if those in the type do. -/
theorem NamedBy.element {t : Apparent} (h : t.NamedBy P) : t.element.NamedBy P := by
  cases t with
  | array elem =>
    rw [NamedBy] at h
    exact h
  | _ => simp [Apparent.element]

/-- The names in the type of a member satisfy the condition if those in the members do. -/
theorem MembersNamedBy.of_mem {members : List (Member Apparent)} (h : MembersNamedBy P members)
    {m : Member Apparent} (hm : m ∈ members) : m.type.NamedBy P := by
  induction members with
  | nil => exact absurd hm (by simp)
  | cons first rest ih =>
    obtain ⟨name, type, node⟩ := first
    rw [MembersNamedBy] at h
    rcases List.mem_cons.mp hm with rfl | hm
    · exact h.1
    · exact ih h.2 hm

/-- The names in the type of a looked-up member satisfy the condition. -/
theorem NamedBy.member {t : Apparent} (h : t.NamedBy P) (name : String) :
    ((t.member? name).getD .any).NamedBy P := by
  cases t with
  | object members =>
    cases hfind : members.find? (·.name = name) with
    | none => simp [member?, hfind]
    | some m =>
      rw [NamedBy] at h
      simpa [member?, hfind] using h.2.of_mem (List.mem_of_find?_eq_some hfind)
  | _ => simp [member?]

/-- The types of string methods have no members. -/
theorem stringMethod_named (name : String) : (stringMethod name).NamedBy P := by
  unfold stringMethod
  split <;> simp

/-- The names in the type of an array method are those in its elements. -/
theorem arrayMethod_named {elem : Apparent} (h : elem.NamedBy P) (name : String) :
    (arrayMethod elem name).NamedBy P := by
  unfold arrayMethod
  split <;> simp [h]

/-- The types of global functions have no members. -/
theorem globalFunction_named (name : String) : (globalFunction name).NamedBy P := by
  unfold globalFunction
  split <;> simp

end Apparent

section Rules

variable {p : Program} {I : Apparent.Cache → Prop} {P : List String → Prop}

section Lists

variable {α : Type} {look : α → StateM Apparent.Cache Apparent}
  (h : ∀ x, Keeps I (Apparent.NamedBy P) (look x))
include h

/-- The common type with a first one has names that satisfy the condition. -/
theorem agreeWith_named {first : Apparent} (hfirst : first.NamedBy P) (xs : List α) :
    Keeps I (Apparent.NamedBy P) (agreeWith look first xs) := by
  induction xs with
  | nil => exact .pure hfirst
  | cons x xs ih =>
    refine (h x).bind fun a _ => ?_
    split
    · exact ih
    · exact .pure (by simp)

/-- The common type of a list has names that satisfy the condition. -/
theorem agreement_named {default : Apparent} (hdefault : default.NamedBy P) (xs : List α) :
    Keeps I (Apparent.NamedBy P) (agreement look default xs) := by
  cases xs with
  | nil => exact .pure hdefault
  | cons x xs => exact (h x).bind fun first hfirst => agreeWith_named h hfirst xs

end Lists

variable {look : NodeId → StateM Apparent.Cache Apparent}

section Names

variable (h : ∀ id, Keeps I (Apparent.NamedBy P) (look id))
include h

/-- The type of what may not be there has names that satisfy the condition. -/
theorem lookOpt_named (id : Option NodeId) :
    Keeps I (Apparent.NamedBy P) (lookOpt look id) := by
  cases id with
  | none => exact .pure (by simp)
  | some id => exact h id

/-- The type of an operation has names that satisfy the condition. -/
theorem operation_named (operator : String) (left right : Option NodeId) :
    Keeps I (Apparent.NamedBy P) (operation look operator left right) := by
  unfold operation
  split
  · refine (lookOpt_named h left).bind fun l _ => (lookOpt_named h right).bind fun r _ => ?_
    repeat' split
    all_goals exact .pure (by simp)
  · exact .pure (by simp)
  · exact .pure (by simp)
  · exact agreement_named h (by simp) _
  · exact .pure (by simp)

/-- The type of a declaration has names that satisfy the condition. -/
theorem declaredType_named (n : Node) :
    Keeps I (Apparent.NamedBy P) (declaredType p look n) := by
  unfold declaredType
  split
  · split
    · exact .pure (by simp)
    · split
      · exact (lookOpt_named h _).bind fun a ha => .pure ha.element
      · exact lookOpt_named h _
  · exact lookOpt_named h _

/-- The type of a returned value has names that satisfy the condition. -/
theorem returnedType_named (fn : NodeId) :
    Keeps I (Apparent.NamedBy P) (returnedType p look fn) := by
  refine agreement_named (fun ret => ?_) (by simp) (p.returns fn)
  split
  · exact h _
  · exact .pure (by simp)

/-- The type of a call has names that satisfy the condition. -/
theorem callType_named (n : Node) : Keeps I (Apparent.NamedBy P) (callType p look n) := by
  have hany : Keeps I (Apparent.NamedBy P) (pure .any) := .pure (by simp)
  unfold callType
  split
  · exact hany
  · split
    · split
      · exact hany
      · split
        · exact .pure (by simp)
        · refine (h _).bind fun a ha => ?_
          split
          · exact .pure (Apparent.stringMethod_named _)
          · rw [Apparent.NamedBy] at ha
            exact .pure (Apparent.arrayMethod_named ha _)
          · exact hany
    · split
      · exact returnedType_named h _
      · split
        · exact .pure (Apparent.globalFunction_named _)
        · exact hany

end Names

/-- The members of an object literal have its member names, and types with names that satisfy the
condition. -/
theorem memberTypes_named (h : ∀ id, Keeps I (Apparent.NamedBy P) (look id)) (ids : List NodeId) :
    Keeps I (fun members => members.map (·.name) = p.memberNames ids
      ∧ Apparent.MembersNamedBy P members) (memberTypes p look ids) := by
  induction ids with
  | nil => exact .pure (by simp)
  | cons id ids ih =>
    rw [memberTypes]
    cases hn : p.node? id with
    | none =>
      rw [Program.memberNames_cons_of_none hn]
      exact ih
    | some property =>
      simp only
      split
      · next hmember =>
        rw [Program.memberNames_cons_of_isMember hn hmember]
        refine (lookOpt_named h _).bind fun type htype => ih.bind fun members hmembers => .pure ?_
        rw [List.map_cons, hmembers.1, Apparent.MembersNamedBy]
        exact ⟨rfl, htype, hmembers.2⟩
      · next hmember =>
        rw [Program.memberNames_cons_of_not_isMember hn hmember]
        exact ih

/-- The rules for a node give types with names that satisfy the condition, if lookups do. -/
theorem apparent_named (hp : p.Admits P) (h : ∀ id, Keeps I (Apparent.NamedBy P) (look id))
    {n : Node} (hn : n ∈ p.nodes.toList) : Keeps I (Apparent.NamedBy P) (n.apparent p look) := by
  unfold Node.apparent
  cases hkind : n.kind with
  | identifier =>
    dsimp only
    split
    · exact h _
    · refine .pure ?_
      split <;> simp
  | «variable» => exact declaredType_named h n
  | parameter => exact lookOpt_named h _
  | arrayLiteral => exact (lookOpt_named h _).bind fun elem helem => .pure (by simpa using helem)
  | objectLiteral =>
    refine (memberTypes_named h _).bind fun members hmembers => .pure ?_
    rw [Apparent.NamedBy, hmembers.1]
    exact ⟨hp.literal n hn hkind, hmembers.2⟩
  | propertyAccess =>
    refine (lookOpt_named h _).bind fun object hobject => ?_
    split
    · refine .pure ?_
      split <;> simp
    · refine .pure ?_
      split <;> simp
    · exact .pure (hobject.member _)
  | elementAccess =>
    refine (lookOpt_named h _).bind fun collection hcollection => ?_
    split
    · split
      · split
        · exact .pure (hcollection.member _)
        · exact .pure (by simp)
      · exact .pure (by simp)
    · exact .pure hcollection.element
  | call => exact callType_named h n
  | assign =>
    dsimp only
    split
    · exact lookOpt_named h _
    · exact operation_named h _ _ _
  | binary => exact operation_named h _ _ _
  | unary =>
    dsimp only
    split <;> exact .pure (by simp)
  | conditional => exact agreement_named h (by simp) _
  | _ => exact .pure (by simp)

end Rules

/-- The names of members satisfy `P` in all answers that are kept. -/
def Apparent.Cache.NamedBy (P : List String → Prop) (c : Apparent.Cache) : Prop :=
  ∀ id type, c.answers.lookup id = some type → type.NamedBy P

/-- Evaluation gives types with names that satisfy the condition, and keeps such types only. -/
theorem Program.evaluate_named {p : Program} {P : List String → Prop} (hp : p.Admits P)
    (fresh : List NodeId) (id : NodeId) :
    Keeps (Apparent.Cache.NamedBy P) (Apparent.NamedBy P)
      (p.evaluate fresh id) := by
  intro c hc
  cases hlookup : c.answers.lookup id with
  | some type =>
    rw [evaluate_known hlookup]
    exact ⟨hc, hc id type hlookup⟩
  | none =>
    cases hnode : p.node? id with
    | none =>
      rw [evaluate_outside hlookup hnode]
      exact ⟨hc, by simp⟩
    | some n =>
      by_cases hid : id ∈ fresh
      · rw [evaluate_fresh hlookup hnode hid]
        have hrules := apparent_named hp (fun other => evaluate_named hp (fresh.erase id) other)
          (mem_nodes hnode) { c with cut := false } hc
        generalize n.apparent p (p.evaluate (fresh.erase id)) { c with cut := false } = outcome
          at hrules ⊢
        obtain ⟨type, after⟩ := outcome
        obtain ⟨hafter, htype⟩ := hrules
        -- The answer is kept unless a cycle was cut below; either way all answers are named.
        refine ⟨fun other type hother => ?_, htype⟩
        simp only [keep] at hother
        split at hother
        · exact hafter other type hother
        · exact forall_lookup_cons hafter htype other type hother
      · rw [evaluate_cut hlookup hnode hid]
        exact ⟨hc, by simp⟩
termination_by fresh.length
decreasing_by
  rw [List.length_erase_of_mem hid]
  have := List.length_pos_of_mem hid
  omega

/-- All apparent types of a program have names that satisfy the condition. -/
theorem Program.apparentTable_named {p : Program} {P : List String → Prop} (hp : p.Admits P) :
    ∀ t ∈ p.apparentTable, t.NamedBy P := by
  have hkeeps : Keeps (Apparent.Cache.NamedBy P) _ (p.ids.mapM p.ask) :=
    .mapM fun id _ => evaluate_named hp p.ids id
  simpa [apparentTable, askAll] using (hkeeps {} fun _ _ h => by cases h).2

/-! ## Fields of records -/

namespace Registry

/-- A name that is laid over others is put behind them if they lack it. -/
theorem names_overlay (fields : List Field) (f : Field) :
    (overlay fields f).map (·.name) = if f.name ∈ fields.map (·.name) then fields.map (·.name)
      else fields.map (·.name) ++ [f.name] := by
  induction fields with
  | nil => simp [overlay]
  | cons g gs ih =>
    rw [overlay]
    split
    · next hsame => simp [hsame]
    · next hdiffers =>
      have hmem : f.name ∈ (g :: gs).map (·.name) ↔ f.name ∈ gs.map (·.name) := by
        simp [Ne.symm hdiffers]
      rw [List.map_cons, ih, if_congr hmem rfl rfl]
      split <;> rfl

/-- Overlaying a field adds its name. -/
theorem mem_names_overlay {fields : List Field} {f : Field} {name : String} :
    name ∈ (overlay fields f).map (·.name) ↔ name ∈ fields.map (·.name) ∨ name = f.name := by
  rw [names_overlay]
  split
  · next hmem => exact ⟨.inl, fun h => h.elim id fun hname => hname ▸ hmem⟩
  · rw [List.mem_append, List.mem_singleton]

/-- Overlaying fields adds their names. -/
theorem mem_names_foldl_overlay {added fields : List Field} {name : String} :
    name ∈ (added.foldl overlay fields).map (·.name)
      ↔ name ∈ fields.map (·.name) ∨ name ∈ added.map (·.name) := by
  induction added generalizing fields with
  | nil => simp
  | cons f fs ih =>
    rw [List.foldl_cons, ih, mem_names_overlay, List.map_cons, List.mem_cons, or_assoc]

/-- An extension has the names of the record and those added. -/
theorem mem_names_extendedFields {r : Registry} {id : RecordId} {added : List Field}
    {self : List String} {name : String} :
    name ∈ (r.extendedFields id added self).map (·.name)
      ↔ name ∈ (r.fields id).map (·.name) ∨ name ∈ added.map (·.name) ∨ name ∈ self := by
  rw [extendedFields, mem_names_foldl_overlay, List.map_append, List.mem_append, List.map_map]
  simp [Function.comp_def]

/-- Names that may be extended satisfy `P` still when fields are laid over them. -/
theorem names_foldl_overlay {P : List String → Prop} {names : List String} (hP : Allows P names)
    {added fields : List Field} (hfields : P (fields.map (·.name)))
    (hadded : ∀ f ∈ added, f.name ∈ names) : P ((added.foldl overlay fields).map (·.name)) := by
  induction added generalizing fields with
  | nil => exact hfields
  | cons f fs ih =>
    obtain ⟨hf, hfs⟩ := List.forall_mem_cons.mp hadded
    refine ih ?_ hfs
    rw [names_overlay]
    split
    · exact hfields
    · next hnew => exact hP.snoc _ hfields _ hf hnew

/-- Closing fields changes no names. -/
@[simp] theorem names_close (id : RecordId) (fields : List Field) :
    (fields.map (close id)).map (·.name) = fields.map (·.name) := by
  refine List.map_map.trans (List.map_congr_left fun f _ => ?_)
  simp only [Function.comp_apply, close]
  split <;> rfl

/-- The names of the fields of every record satisfy `P`, and a record is filed under the body of such
fields with its own names. -/
structure NamedBy (P : List String → Prop) (r : Registry) : Prop where
  fields : ∀ record ∈ r.records, P (record.fields.map (·.name))
  bodies : ∀ key id, r.bodies.lookup key = some id → ∃ fields, key = bodyKey fields
    ∧ P (fields.map (·.name))
    ∧ ∃ record ∈ r.records, record.id = id ∧ record.fields.map (·.name) = fields.map (·.name)

namespace NamedBy

variable {P : List String → Prop} {names : List String} {r : Registry} (h : r.NamedBy P)

include h

/-- The names of the fields under a number satisfy the condition, also where there is no record. -/
theorem of_id (hnil : P []) (id : RecordId) : P ((r.fields id).map (·.name)) := by
  rw [Registry.fields]
  cases hrecord : r.record? id with
  | none => exact hnil
  | some record => exact h.fields record (List.mem_of_find?_eq_some hrecord)

/-- Registering fields with such names keeps the condition. -/
theorem register (hint : String) {fields : List Field} (hfields : P (fields.map (·.name))) :
    (r.register hint fields).2.NamedBy P := by
  rcases r.register_cases hint fields with ⟨id, -, heq⟩ | ⟨-, heq⟩
  · rwa [heq]
  · rw [heq]
    constructor
    · intro record hrecord
      rcases List.mem_append.mp hrecord with hrecord | hrecord
      · exact h.fields record hrecord
      · rw [List.mem_singleton.mp hrecord]
        exact hfields
    · intro key id hkey
      rcases lookup_cons_cases hkey with hkey | ⟨rfl, rfl⟩
      · obtain ⟨fields', hbody, hnames, record, hrecord, hsame⟩ := h.bodies key id hkey
        exact ⟨fields', hbody, hnames, record, List.mem_append_left _ hrecord, hsame⟩
      · exact ⟨fields, rfl, hfields, _, List.mem_append_right _ (List.mem_singleton_self _), rfl, rfl⟩

/-- Closing a record over itself leaves names alone. -/
theorem closeSelf (id : RecordId) : (r.closeSelf id).NamedBy P := by
  have hnames (record : Record) : (if record.id = id then
        { record with fields := record.fields.map (close id) } else record).fields.map (·.name)
      = record.fields.map (·.name) := by
    split
    · exact names_close id record.fields
    · rfl
  have hid (record : Record) : (if record.id = id then
        { record with fields := record.fields.map (close id) } else record).id = record.id := by
    split <;> rfl
  constructor
  · intro record' hrecord'
    obtain ⟨record, hrecord, rfl⟩ := List.mem_map.mp hrecord'
    have hfields := h.fields record hrecord
    rw [← hnames record] at hfields
    exact hfields
  · intro key out hkey
    obtain ⟨fields, hbody, hfields, record, hrecord, hout, hsame⟩ := h.bodies key out hkey
    exact ⟨fields, hbody, hfields, _, List.mem_map_of_mem hrecord, (hid record).trans hout,
      (hnames record).trans hsame⟩

/-- The fields of an extension have names that satisfy the condition, if the added ones are among those
allowed. -/
theorem extendedFields (hP : Allows P names) (id : RecordId) {added : List Field}
    (hadded : ∀ name ∈ added.map (·.name), name ∈ names) {self : List String}
    (hself : ∀ name ∈ self, name ∈ names) : P ((r.extendedFields id added self).map (·.name)) := by
  refine names_foldl_overlay hP (h.of_id hP.nil id) fun f hf => ?_
  rcases List.mem_append.mp hf with hf | hf
  · exact hadded _ (List.mem_map_of_mem hf)
  · obtain ⟨name, hname, rfl⟩ := List.mem_map.mp hf
    exact hself name hname

/-- Extending a record by allowed names keeps the condition. -/
theorem extend (hP : Allows P names) (id : RecordId) (hint : String) {added : List Field}
    (hadded : ∀ name ∈ added.map (·.name), name ∈ names) {self : List String}
    (hself : ∀ name ∈ self, name ∈ names) : (r.extend id hint added self).2.NamedBy P := by
  rw [Registry.extend]
  split
  · exact h
  · exact (h.register _ (h.extendedFields hP id hadded hself)).closeSelf _

/-- Where names allow no confusion, what is filed under the body of some fields has their names. -/
theorem names_of_lookup (hr : r.WellFormed)
    (hsealed : ∀ fields, P fields → ∀ name ∈ fields, Sealed name) {fields : List Field}
    (hfields : P (fields.map (·.name))) {id : RecordId}
    (hlookup : r.bodies.lookup (bodyKey fields) = some id) :
    (r.fields id).map (·.name) = fields.map (·.name) := by
  have hnames {fs : List Field} (hfs : P (fs.map (·.name))) : ∀ f ∈ fs, Sealed f.name :=
    fun f hf => hsealed _ hfs _ (List.mem_map_of_mem hf)
  -- The record was filed under the body of fields with its names; both bodies are the same text.
  obtain ⟨filed, hkey, hfiled, record, hrecord, rfl, hsame⟩ := h.bodies _ _ hlookup
  have hshape := (bodyKey_eq_iff (hnames hfields) (hnames hfiled)).mp hkey
  rw [Registry.fields, record?_of_mem hr hrecord, Option.map_some, Option.getD_some, hsame]
  exact map_eq_map_of_forall₂ hshape fun _ _ hf => hf.1.symm

/-- Interning a container leaves names alone. -/
theorem intern (l : Layout) : (r.intern l).2.NamedBy P := by
  rcases r.intern_cases l with ⟨-, heq⟩ | ⟨kept, -, -, heq⟩ | ⟨-, c, heq⟩
  all_goals
    rw [heq]
    exact ⟨h.fields, h.bodies⟩

end NamedBy

end Registry

/-! ## Derivation -/

namespace Store

/-- The names of the fields of every record satisfy `P`, and the layouts of the literals are there. -/
structure NamedBy (P : List String → Prop) (st : Store) : Prop where
  registry : st.registry.NamedBy P
  literals : ∀ id l, st.literals.lookup id = some l → l ≠ .missing

variable {P : List String → Prop}

/-- An operation on the registry that keeps the condition keeps it in the store. -/
theorem withRegistry_named {α : Type} {Q : α → Prop} {operation : Registry → α × Registry}
    (h : Keeps (Registry.NamedBy P) Q operation) :
    Keeps (NamedBy P) Q (withRegistry operation) := by
  intro st hst
  obtain ⟨hregistry, hanswer⟩ := h st.registry hst.registry
  exact ⟨⟨hregistry, hst.literals⟩, hanswer⟩

/-- Making a container. -/
theorem intern_named {l : Layout} (hl : l.container? ≠ none) :
    Keeps (Registry.NamedBy P) (· ≠ .missing) (fun r => r.intern l) :=
  fun _ hr => ⟨hr.intern l, Registry.intern_ne_missing hl⟩

/-- A note leaves names alone. -/
theorem note_named (p : Program) (notice : Notice) (node : Option NodeId) :
    Keeps (NamedBy P) (fun _ => True) (note p notice node) :=
  fun _ hst => ⟨⟨hst.registry, hst.literals⟩, trivial⟩

end Store

namespace Subject

/-- The members of object literals and of apparent types have names that satisfy `P`. -/
structure Named (P : List String → Prop) (s : Subject) : Prop where
  admits : s.program.Admits P
  apparent : ∀ id, (s.apparent id).NamedBy P

/-- A program that admits the condition gives a subject that keeps to it. -/
theorem named_of {p : Program} {P : List String → Prop} (hp : p.Admits P) :
    (Subject.of p).Named P where
  admits := hp
  apparent id := by
    have hany : Apparent.any.NamedBy P := by simp
    show (if id = 0 then Apparent.any else p.apparentTable.getD (id - 1) .any).NamedBy _
    split
    · exact hany
    · rw [Array.getD_eq_getD_getElem?]
      cases htype : p.apparentTable[id - 1]? with
      | none => exact hany
      | some t => exact Program.apparentTable_named hp t (Array.mem_of_getElem? htype)


variable {P : List String → Prop} {s : Subject} (hs : s.Named P)

include hs

/-- The types and member names of a subject satisfy the condition. -/
theorem Named.typed : s.Typed (Apparent.NamedBy P) P where
  apparent := hs.apparent
  array h := by
    rw [Apparent.NamedBy] at h
    exact h
  object h := by
    rw [Apparent.NamedBy] at h
    exact ⟨h.1, fun _ hm => h.2.of_mem hm⟩
  literal hn hkind := hs.admits.literal _ hn hkind

/-- Derivation keeps the names. -/
theorem upholds_named :
    s.Upholds (Apparent.NamedBy P) P (Store.NamedBy P) (· ≠ .missing) (· ≠ .missing) where
  toTyped := hs.typed
  scalar _ := by simp
  record _ := by simp
  weaken h := h
  register hint _ hnames _ :=
    Store.withRegistry_named fun _ hr => ⟨hr.register hint hnames, trivial⟩
  dynamic _ := Store.withRegistry_named (Store.intern_named (by simp [Layout.container?]))
  note _ node := Store.note_named _ _ node
  known hst := hst.literals _ _
  fixed _ _ := Store.withRegistry_named (Store.intern_named (by simp [Layout.container?]))
  keep hst _ _ hl := ⟨hst.registry, forall_lookup_cons hst.literals hl⟩

end Subject

end LayoutInference
