import Mathlib
import LayoutInference.Proofs.FittingLayouts
import LayoutInference.Proofs.Literals

/-!
# Derivation gives fitting layouts

The layout that is derived for a self-contained expression fits its apparent type. For literals this is
kept in the store (`Subject.Fitting`), since their layouts are derived once and used from then on, also
in the conversion of object types, whose members are read from literals.

`Subject.Yields` says of a step that it keeps the store so, that the registry grows, and what the answer
is in it. It is proved for one function after the other, along the recursion of derivation, for all
expressions of a program: what is said of an answer holds if the expression is self-contained.
-/

namespace LayoutInference

/-- All names can be read back from bodies. -/
abbrev AllSealed (names : List String) : Prop := ∀ name ∈ names, Sealed name

/-- The layouts that are kept for self-contained literals fit. -/
def Subject.LiteralsFit (s : Subject) (st : Store) : Prop :=
  ∀ id n l, s.program.node? id = some n → n.isCollection = true → s.program.SelfContained id →
    st.literals.lookup id = some l → (s.apparent id).Fits st.registry l

/-- The store keeps to the laws of registries, and the layouts of self-contained literals fit. -/
structure Subject.Fitting (s : Subject) (st : Store) : Prop where
  wellFormed : st.WellFormed
  obeys : st.Obeys (fun l => l.isPlain = true) fun r => r.Plain ∧ r.Bodied
  named : st.NamedBy AllSealed
  literals : s.LiteralsFit st

/-- Literals go on to fit while the registry grows. -/
theorem Subject.LiteralsFit.mono {s : Subject} {st st' : Store} (h : s.LiteralsFit st)
    (hle : st.registry ≤ st'.registry) (hliterals : st'.literals = st.literals) :
    s.LiteralsFit st' := fun id n l hn hcollection hid hl =>
  (h id n l hn hcollection hid (hliterals ▸ hl)).mono hle

/-- The step keeps the store fitting and lets it grow, and its answer satisfies `Q` in the end. -/
structure Subject.Yields (s : Subject) {α : Type} (Q : α → Registry → Prop) (m : StateM Store α)
    (st : Store) : Prop where
  fitting : s.Fitting (m st).2
  grows : st ≤ (m st).2
  holds : Q (m st).1 (m st).2.registry

namespace Subject.Yields

variable {s : Subject} {α β : Type} {Q Q' : α → Registry → Prop} {R : β → Registry → Prop}
  {m : StateM Store α} {f : α → StateM Store β} {st : Store}

/-- An answer alone is yielded in every fitting store. -/
theorem pure {a : α} (hst : s.Fitting st) (ha : Q a st.registry) :
    s.Yields Q (Pure.pure a : StateM Store α) st :=
  ⟨hst, le_refl st, ha⟩

/-- Steps that yield their answers may be put one after the other. -/
theorem bind (hm : s.Yields Q m st)
    (hf : ∀ a st', s.Fitting st' → st ≤ st' → Q a st'.registry → s.Yields R (f a) st') :
    s.Yields R (m >>= f) st := by
  have hrest := hf (m st).1 (m st).2 hm.fitting hm.grows hm.holds
  exact ⟨hrest.fitting, hm.grows.trans hrest.grows, hrest.holds⟩

/-- A step that depends on the store it starts in. -/
theorem read {f : Store → StateM Store β} (h : s.Yields R (f st) st) : s.Yields R (get >>= f) st :=
  ⟨h.fitting, h.grows, h.holds⟩

/-- What an answer satisfies may be weakened. -/
theorem imp (hm : s.Yields Q m st) (h : ∀ a r, st.registry ≤ r → Q a r → Q' a r) :
    s.Yields Q' m st :=
  ⟨hm.fitting, hm.grows, h _ _ hm.grows.registry hm.holds⟩

/-- What has to be shown of a step whose outcome is known. -/
theorem iff_of_eq {outcome : α × Store} (heq : m st = outcome) :
    s.Yields Q m st ↔ s.Fitting outcome.2 ∧ st ≤ outcome.2 ∧ Q outcome.1 outcome.2.registry := by
  subst heq
  exact ⟨fun h => ⟨h.fitting, h.grows, h.holds⟩, fun ⟨hfitting, hle, ha⟩ => ⟨hfitting, hle, ha⟩⟩

end Subject.Yields

/-- What is answered for a type: a plain layout that is known, and fits if `c` holds. -/
structure Answer (c : Prop) (t : Apparent) (l : Layout) (r : Registry) : Prop where
  known : r.Knows l
  plain : l.isPlain = true
  fits : c → t.Fits r l

namespace Answer

variable {c c' : Prop} {t t' : Apparent} {l : Layout} {r r' : Registry}

/-- An answer stays one as the registry grows. -/
theorem mono (h : Answer c t l r) (hle : r ≤ r') : Answer c t l r' :=
  ⟨h.known.mono hle, h.plain, fun hc => (h.fits hc).mono hle⟩

/-- An answer for a type is one for the same type under a stronger condition. -/
theorem imp (h : Answer c t l r) (hc : c' → c ∧ t' = t) : Answer c' t' l r :=
  ⟨h.known, h.plain, fun h' => (hc h').2 ▸ h.fits (hc h').1⟩

/-- The opaque pointer says nothing, so it is an answer for every type. -/
theorem pointer (c : Prop) (t : Apparent) (r : Registry) : Answer c t .pointer r :=
  ⟨r.knows_scalar _, rfl, fun _ => .fallback rfl⟩

/-- The universal value says nothing, so it is an answer for every type. -/
theorem universal (c : Prop) (t : Apparent) (r : Registry) : Answer c t .universal r :=
  ⟨r.knows_scalar _, rfl, fun _ => .fallback rfl⟩

end Answer

namespace Store

variable {s : Subject} {st : Store} (hst : s.Fitting st)

include hst

/-- An operation on the registry that keeps to the laws. -/
theorem withRegistry_yields {α : Type} {Q : α → Registry → Prop}
    (operation : Registry → α × Registry) (hwf : (operation st.registry).2.WellFormed)
    (hle : st.registry ≤ (operation st.registry).2)
    (hobeys : (operation st.registry).2.Plain ∧ (operation st.registry).2.Bodied)
    (hnamed : (operation st.registry).2.NamedBy AllSealed)
    (hholds : Q (operation st.registry).1 (operation st.registry).2) :
    s.Yields Q (withRegistry operation) st where
  fitting :=
    { wellFormed := ⟨hwf, fun id l hl => (hst.wellFormed.literals id l hl).mono hle⟩
      obeys := ⟨hobeys, hst.obeys.literals⟩
      named := ⟨hnamed, hst.named.literals⟩
      literals := hst.literals.mono hle rfl }
  grows := ⟨hle, fun _ _ hl => hl⟩
  holds := hholds

/-- Registering fields with sealed names yields a record of the same fields. -/
theorem record_yields (hint : String) {fields : List Field}
    (hknown : ∀ f ∈ fields, st.registry.Knows f.layout)
    (hplain : ∀ f ∈ fields, f.layout.isPlain = true) (hnames : ∀ f ∈ fields, Sealed f.name) :
    s.Yields (fun l r => ∃ id, l = .record id ∧ id ∈ r.ids
        ∧ List.Forall₂ Field.Same fields (r.fields id) ∧ ∀ f ∈ r.fields id, f.layout.isPlain = true)
      (record hint fields) st := by
  have hruns : Runs False (fun id r => id ∈ r.ids) (fun r => r.register hint fields) st.registry :=
    Registry.register_runs hst.wellFormed.registry hknown False
  have hnames' : AllSealed (fields.map (·.name)) := List.forall_mem_map.mpr hnames
  have hobeys := Registry.bodied_law.register hst.obeys.registry hint hplain
  refine (withRegistry_yields hst (·.register hint fields)
    (Q := fun id r => id ∈ r.ids ∧ List.Forall₂ Field.Same fields (r.fields id)) hruns.sound
    hruns.grows hobeys (hst.named.registry.register hint hnames') ⟨hruns.holds, ?_⟩).bind ?_
  · refine hst.obeys.registry.2.register_same hst.wellFormed.registry ?_ hint hknown hnames
    exact fun record hrecord => List.forall_mem_map.mp (hst.named.registry.fields record hrecord)
  · intro id st' hst' _ ⟨hid, hsame⟩
    refine .pure hst' ⟨id, rfl, hid, hsame, fun f hf => ?_⟩
    obtain ⟨record, hrecord, rfl⟩ := List.mem_map.mp hid
    rw [Registry.fields, Registry.record?_of_mem hst'.wellFormed.registry hrecord] at hf
    exact hst'.obeys.registry.1.fields record hrecord f hf

/-- Containers of plain elements are handed out under their keys. -/
theorem intern_yields {l elem : Layout} (helem : l.elem? = some elem) (hknown : st.registry.Knows l)
    (hplain : elem.isPlain = true) :
    s.Yields (fun l' r => r.Knows l' ∧ l'.isPlain = true ∧ l'.key = l.key)
      (withRegistry (·.intern l)) st := by
  have hruns := Registry.intern_runs hst.wellFormed.registry hknown False
  have hobeys := Registry.bodied_law.intern hst.obeys.registry helem hplain
  exact withRegistry_yields hst (·.intern l) hruns.sound hruns.grows hobeys.1
    (hst.named.registry.intern l) ⟨hruns.holds, hobeys.2, hst.obeys.registry.1.key_intern l⟩

/-- A container of what was answered for `t` is answered for arrays of `t`. -/
theorem array_yields {c : Prop} {t : Apparent} {l elem : Layout}
    (helem : l.elem? = some elem) (h : Answer c t elem st.registry) (hknown : st.registry.Knows l)
    (hfits : ∀ r, t.Fits r elem → t.array.Fits r l) :
    s.Yields (Answer c t.array) (withRegistry (·.intern l)) st := by
  refine (intern_yields hst helem hknown h.plain).imp ?_
  rintro l' r hle ⟨hknown', hplain, hkey⟩
  refine ⟨hknown', hplain, fun hc => ?_⟩
  have hl : l.isPlain = true := (Layout.isPlain_of_elem? helem).trans h.plain
  exact (hfits r ((h.fits hc).mono hle)).of_key_eq hl hplain hkey

/-- A note is taken in every fitting store. -/
theorem note_yields (p : Program) (notice : Notice) (node : Option NodeId) :
    s.Yields (fun _ _ => True) (note p notice node) st where
  fitting :=
    { wellFormed := ⟨hst.wellFormed.registry, hst.wellFormed.literals⟩
      obeys := ⟨hst.obeys.registry, hst.obeys.literals⟩
      named := ⟨hst.named.registry, hst.named.literals⟩
      literals := hst.literals }
  grows := ⟨le_refl _, fun _ _ hl => hl⟩
  holds := trivial

end Store

namespace Subject

variable {s : Subject}

/-- A way to derive literals that gives fitting layouts. -/
def DerivesFitting (s : Subject) (literal : String → Node → StateM Store Layout) : Prop :=
  ∀ hint id n st, s.program.node? id = some n → n.isCollection = true → s.Fitting st →
    s.Yields (Answer (s.program.SelfContained id) (s.apparent id)) (literal hint n) st

/-- The member is read from a self-contained expression of its type, if it says from where. -/
def GroundedMember (s : Subject) (m : Member Apparent) : Prop :=
  s.Grounded m.type ∧ ∀ c, m.node = some c → s.program.SelfContained c ∧ m.type = s.apparent c

/-- The fields that are made for members. -/
def FieldsFor (s : Subject) (ms : List (Member Apparent)) (fields : List Field) (r : Registry) : Prop :=
  List.Forall₂ (fun m f => f.name = m.name ∧ Answer (s.GroundedMember m) m.type f.layout r) ms fields

/-- A record of fields that were made for members is answered for their type. -/
theorem record_answers {c : Prop} {st : Store} (hst : s.Fitting st) (hint : String)
    {ms : List (Member Apparent)} {fields : List Field} (hfields : s.FieldsFor ms fields st.registry)
    (hnames : AllSealed (ms.map (·.name))) (hc : c → ∀ m ∈ ms, s.GroundedMember m) :
    s.Yields (Answer c (.object ms)) (Store.record hint fields) st := by
  have hfield {f : Field} (hf : f ∈ fields) : ∃ m ∈ ms, f.name = m.name
      ∧ Answer (s.GroundedMember m) m.type f.layout st.registry := exists_of_mem_right hfields hf
  have hsealed : ∀ f ∈ fields, Sealed f.name := by
    intro f hf
    obtain ⟨m, hm, hname, -⟩ := hfield hf
    exact hname ▸ hnames _ (List.mem_map_of_mem hm)
  refine (Store.record_yields hst hint (fun f hf => ?_) (fun f hf => ?_) hsealed).imp ?_
  · obtain ⟨m, -, -, hanswer⟩ := hfield hf
    exact hanswer.known
  · obtain ⟨m, -, -, hanswer⟩ := hfield hf
    exact hanswer.plain
  · rintro l r hle ⟨id, rfl, hid, hsame, hplain⟩
    refine ⟨(r.knows_record id).mpr hid, rfl, fun h => .of_suits hid ?_⟩
    refine Member.Suits.of_same ?_ hsame hplain
    exact ((List.forall₂_and_left _ _).mpr ⟨hc h, hfields⟩).imp fun m f ⟨hm, hname, hanswer⟩ =>
      ⟨hname, hanswer.plain, (hanswer.fits hm).mono hle⟩

section Literal

variable {literal : String → Node → StateM Store Layout}

mutual

/-- Converting a type yields a layout that fits it, if the type is grounded. -/
theorem convert_yields (hlit : s.DerivesFitting literal) (hint : String) :
    (t : Apparent) → t.NamedBy AllSealed → ∀ {st : Store}, s.Fitting st →
      s.Yields (Answer (s.Grounded t) t) (s.convert literal hint t) st
  | .string, _, st, hst => by
    rw [convert]
    exact .pure hst ⟨st.registry.knows_scalar _, rfl, fun _ => .string⟩
  | .number, _, st, hst => by
    rw [convert]
    exact .pure hst ⟨st.registry.knows_scalar _, rfl, fun _ => .number⟩
  | .boolean, _, st, hst => by
    rw [convert]
    exact .pure hst ⟨st.registry.knows_scalar _, rfl, fun _ => .boolean⟩
  | .void, _, st, hst => by
    rw [convert]
    exact .pure hst ⟨st.registry.knows_scalar _, rfl, fun hvoid => by cases hvoid⟩
  | .any, _, st, hst => by
    rw [convert]
    exact .pure hst (.pointer _ _ _)
  | .null, _, st, hst | .undefined, _, st, hst | .function, _, st, hst | .object [], _, st, hst => by
    rw [convert]
    exact .pure hst (.universal _ _ _)
  | .object (m :: ms), hnamed, st, hst => by
    rw [Apparent.NamedBy] at hnamed
    rw [convert]
    refine (convertMembers_yields hlit (m :: ms) hnamed.2 hst).bind fun fields st' hst' _ hfields => ?_
    refine record_answers hst' hint hfields hnamed.1 fun hground => ?_
    cases hground with
    | object htypes hnodes => exact fun m hm => ⟨htypes m hm, hnodes m hm⟩
  | .array elem, hnamed, st, hst => by
    rw [Apparent.NamedBy] at hnamed
    rw [convert]
    refine (convert_yields hlit "" elem hnamed hst).bind fun l st' hst' _ hl => ?_
    split
    · exact .pure hst' (.pointer _ _ _)
    · refine (Store.array_yields hst' (l := .dynamic l) rfl hl hl.known fun _ => .dynamic).imp ?_
      refine fun l' r _ hl' => hl'.imp fun hground => ⟨?_, rfl⟩
      cases hground with
      | array hground => exact hground

/-- Converting members yields a field for each of them. -/
theorem convertMembers_yields (hlit : s.DerivesFitting literal) :
    (ms : List (Member Apparent)) → Apparent.MembersNamedBy AllSealed ms →
      ∀ {st : Store}, s.Fitting st →
        s.Yields (s.FieldsFor ms) (s.convertMembers literal ms) st
  | [], _, st, hst => by
    rw [convertMembers]
    exact .pure hst .nil
  | ⟨name, type, node⟩ :: ms, hnamed, st, hst => by
    rw [Apparent.MembersNamedBy] at hnamed
    have hrest {l : Layout} {st' : Store} (hst' : s.Fitting st')
        (hl : Answer (s.GroundedMember ⟨name, type, node⟩) type l st'.registry) :
        s.Yields (s.FieldsFor (⟨name, type, node⟩ :: ms))
          (do return ⟨name, l⟩ :: (← s.convertMembers literal ms)) st' :=
      (convertMembers_yields hlit ms hnamed.2 hst').bind fun fields st'' hst'' hle hfields =>
        .pure hst'' (.cons ⟨rfl, hl.mono hle.registry⟩ hfields)
    have hconvert := (convert_yields hlit name type hnamed.1 hst).bind fun l st' hst' _ hl =>
      hrest hst' (hl.imp fun hground => ⟨hground.1, rfl⟩)
    rw [convertMembers]
    cases hn : s.program.at? node with
    | none => exact hconvert
    | some n =>
      obtain ⟨id, rfl, hnode⟩ := Option.bind_eq_some_iff.mp hn
      simp only
      split
      · next hcollection =>
        split
        · exact hrest hst (.pointer _ _ _)
        · exact (hlit name id n st hnode hcollection hst).bind fun l st' hst' _ hl =>
            hrest hst' (hl.imp fun hground => hground.2 id rfl)
      · exact hconvert

end

section

variable (hs : s.Ruled) (hnamed : s.Named AllSealed) (hlit : s.DerivesFitting literal) {st : Store}

include hs hnamed hlit

/-- Deriving an expression yields a layout that fits its type, if any and if it is self-contained. -/
theorem determineWith_yields (hint : String) (id : NodeId) (hst : s.Fitting st) :
    s.Yields (fun answer r => ∀ l, answer = some l →
      Answer (s.program.SelfContained id) (s.apparent id) l r) (s.determineWith literal hint id) st := by
  have hanswer {l : Layout} {r : Registry} {c : Prop} {t : Apparent} (hl : Answer c t l r)
      (l' : Layout) (hl' : some l = some l') : Answer c t l' r := Option.some.inj hl' ▸ hl
  rw [determineWith]
  cases hn : s.program.node? id with
  | none => exact .pure hst (hanswer (.pointer _ _ _))
  | some n =>
    simp only
    split
    · next hcollection =>
      exact (hlit hint id n st hn hcollection hst).bind fun l st' hst' _ hl => .pure hst' (hanswer hl)
    · split
      · exact .pure hst fun l hl => by cases hl
      · refine (convert_yields hlit hint _ (hnamed.apparent id) hst).bind fun l st' hst' _ hl => ?_
        have hl' := hanswer (hl.imp fun h => ⟨hs.grounded h, rfl⟩)
        split
        · exact (Store.note_yields hst' _ _ _).bind fun _ st'' hst'' hle _ =>
            .pure hst'' fun l hl => (hl' l hl).mono hle.registry
        · exact .pure hst' hl'

/-- What is put off counts as unknown inside a literal. -/
theorem determineWith_getD_yields (hint : String) (id : NodeId) (hst : s.Fitting st) :
    s.Yields (Answer (s.program.SelfContained id) (s.apparent id))
      (do return (← s.determineWith literal hint id).getD .pointer) st := by
  refine (determineWith_yields hs hnamed hlit hint id hst).bind fun answer st' hst' _ hanswer =>
    .pure hst' ?_
  cases answer with
  | none => exact .pointer _ _ _
  | some l => exact hanswer l rfl

/-- Deriving a property value yields a layout that fits its type, if it is self-contained. -/
theorem propertyLayout_yields (name : String) (value : Option NodeId) (hst : s.Fitting st) :
    s.Yields (Answer (∀ c, value = some c → s.program.SelfContained c) (s.typeAt value))
      (s.propertyLayout literal name value) st := by
  rw [propertyLayout]
  cases hn : s.program.at? value with
  | none => exact .pure hst (.pointer _ _ _)
  | some n =>
    obtain ⟨id, rfl, hnode⟩ := Option.bind_eq_some_iff.mp hn
    simp only
    split
    · exact .pure hst (.pointer _ _ _)
    · rw [hs.numbered.id_eq hnode]
      exact (determineWith_getD_yields hs hnamed hlit name id hst).imp fun l r _ hl =>
        hl.imp fun h => ⟨h id rfl, rfl⟩

/-- Deriving the fields of an object literal yields one for each of its members. -/
theorem literalFields_yields (ids : List NodeId) (hst : s.Fitting st) :
    s.Yields (s.FieldsFor ((s.program.members ids).map fun q => ⟨q.name, s.typeAt q.expr, q.expr⟩))
      (s.literalFields literal ids) st := by
  induction ids generalizing st with
  | nil => exact .pure hst .nil
  | cons id ids ih =>
    rw [literalFields]
    cases hn : s.program.node? id with
    | none => simpa [Program.members, hn] using ih hst
    | some property =>
      simp only
      split
      · next hmember =>
        have hmembers : s.program.members (id :: ids) = property :: s.program.members ids := by
          simp [Program.members, hn, hmember]
        rw [hmembers, List.map_cons]
        refine (propertyLayout_yields hs hnamed hlit _ _ hst).bind fun l st' hst' _ hl =>
          (ih hst').bind fun fields st'' hst'' hle hfields => .pure hst'' (.cons ⟨rfl, ?_⟩ hfields)
        exact (hl.mono hle.registry).imp fun hground => ⟨fun c hc => (hground.2 c hc).1, rfl⟩
      · next hmember => simpa [Program.members, hn, hmember] using ih hst

/-- Deriving the elements of an array literal yields a layout that fits the first of them, if all are
self-contained. -/
theorem literalElement_yields (items : List NodeId) (hst : s.Fitting st) :
    s.Yields (Answer (∀ c ∈ items, s.program.SelfContained c) (s.typeAt items.head?))
      (s.literalElement literal items) st := by
  rw [literalElement]
  cases hn : s.program.at? items.head? with
  | none => exact .pure hst (.pointer _ _ _)
  | some first =>
    obtain ⟨id, hid, hnode⟩ := Option.bind_eq_some_iff.mp hn
    simp only
    split
    · exact .pure hst (.pointer _ _ _)
    · rw [hs.numbered.id_eq hnode, hid]
      exact (determineWith_getD_yields hs hnamed hlit "" id hst).imp fun l r _ hl =>
        hl.imp fun h => ⟨h id (List.mem_of_head? hid), rfl⟩

/-- The layout of a literal fits its type. -/
theorem literalLayout_yields (hint : String) {id : NodeId} {n : Node}
    (hn : s.program.node? id = some n) (hcollection : n.isCollection = true) (hst : s.Fitting st) :
    s.Yields (Answer (s.program.SelfContained id) (s.apparent id)) (s.literalLayout literal hint n)
      st := by
  rw [literalLayout]
  split
  · next hkind =>
    refine (literalFields_yields hs hnamed hlit n.items hst).bind fun fields st' hst' _ hfields => ?_
    -- The names of the members stand in the program, so they can be read back.
    have hnames : AllSealed (((s.program.members n.items).map fun q =>
        (⟨q.name, s.typeAt q.expr, q.expr⟩ : Member Apparent)).map (·.name)) := by
      rw [List.map_map]
      exact hnamed.admits.literal n (Program.mem_nodes hn) hkind
    refine (record_answers (c := s.program.SelfContained id) hst' hint hfields hnames fun h => ?_).imp
      fun l r _ hl => hl.imp fun h => ⟨h, hs.apparent_objectLiteral h hn hkind⟩
    have hground := hs.apparent_objectLiteral h hn hkind ▸ hs.grounded h
    cases hground with
    | object htypes hnodes => exact fun m hm => ⟨htypes m hm, hnodes m hm⟩
  · next hkind =>
    have hkind : n.kind = .arrayLiteral := (n.isCollection_iff.mp hcollection).resolve_right hkind
    refine (literalElement_yields hs hnamed hlit n.items hst).bind fun elem st' hst' _ helem => ?_
    refine (Store.array_yields hst' (l := .fixed elem n.items.length) rfl helem helem.known
      fun _ h => .fixed h _).imp fun l r _ hl => hl.imp fun h => ⟨fun c hc => ?_, ?_⟩
    · exact h.child hn (Node.item_mem_children hc)
    · exact hs.apparent_arrayLiteral h hn hkind

end

end Literal

/-! ## Literals -/

/-- An answer for a literal can be kept. -/
theorem Fitting.keep {st : Store} (hst : s.Fitting st) {id : NodeId} {l : Layout}
    (hl : Answer (s.program.SelfContained id) (s.apparent id) l st.registry) :
    s.Fitting { st with literals := (id, l) :: st.literals } where
  wellFormed := ⟨hst.wellFormed.registry, forall_lookup_cons hst.wellFormed.literals hl.known⟩
  obeys := ⟨hst.obeys.registry, forall_lookup_cons hst.obeys.literals hl.plain⟩
  named := by
    have hthere : l ≠ .missing := by
      rintro rfl
      cases hl.plain
    exact ⟨hst.named.registry, forall_lookup_cons hst.named.literals hthere⟩
  literals := by
    intro other n l' hn hcollection hother hlookup
    rcases lookup_cons_cases hlookup with hold | ⟨rfl, rfl⟩
    · exact hst.literals other n l' hn hcollection hother hold
    · exact hl.fits hother

/-- What is kept for a literal is an answer for it. -/
theorem Fitting.answer {st : Store} (hst : s.Fitting st) {id : NodeId} {n : Node} {l : Layout}
    (hn : s.program.node? id = some n) (hcollection : n.isCollection = true)
    (hl : st.literals.lookup id = some l) :
    Answer (s.program.SelfContained id) (s.apparent id) l st.registry :=
  ⟨hst.wellFormed.literals id l hl, hst.obeys.literals id l hl,
    fun h => hst.literals id n l hn hcollection h hl⟩

variable (hs : s.Ruled) (hnamed : s.Named AllSealed)

include hs hnamed

/-- Deriving a literal gives fitting layouts, whatever is under construction. -/
theorem deriveLiteral_yields (fresh : List NodeId) : s.DerivesFitting (s.deriveLiteral fresh) := by
  intro hint id n st hn hcollection hst
  have hid : n.id = id := hs.numbered.id_eq hn
  have hgrows := (s.deriveLiteral_runs fresh hint n False.elim hst.wellFormed).grows
  cases hlookup : st.literals.lookup n.id with
  | some known =>
    rw [Yields.iff_of_eq (s.deriveLiteral_of_lookup hlookup)]
    exact ⟨hst, le_refl st, hst.answer hn hcollection (hid ▸ hlookup)⟩
  | none =>
    rw [Yields.iff_of_eq (s.deriveLiteral_of_lookup_none hlookup)]
    rw [s.deriveLiteral_of_lookup_none hlookup] at hgrows
    by_cases hmem : n.id ∈ fresh
    · rw [if_pos hmem] at hgrows ⊢
      have hyields := literalLayout_yields hs hnamed (deriveLiteral_yields (fresh.erase n.id)) hint hn
        hcollection hst
      exact ⟨hyields.fitting.keep (hid.symm ▸ hyields.holds), hgrows, hyields.holds⟩
    · rw [if_neg hmem]
      exact ⟨hst, le_refl st, .pointer _ _ _⟩
termination_by fresh.length
decreasing_by
  rw [List.length_erase_of_mem hmem]
  have := List.length_pos_of_mem hmem
  omega

/-- Deriving an expression from outside yields a layout that fits its type, if any and if it is
self-contained. -/
theorem determine_yields (hint : String) (id : NodeId) {st : Store} (hst : s.Fitting st) :
    s.Yields (fun answer r => ∀ l, answer = some l →
      Answer (s.program.SelfContained id) (s.apparent id) l r) (s.determine hint id) st :=
  determineWith_yields hs hnamed (deriveLiteral_yields hs hnamed s.program.ids) hint id hst

/-- The layout that a type tells fits it, if the expression is self-contained. -/
theorem quietLayout_yields (id : NodeId) {st : Store} (hst : s.Fitting st) :
    s.Yields (Answer (s.program.SelfContained id) (s.apparent id)) (s.quietLayout id) st :=
  (convert_yields (deriveLiteral_yields hs hnamed s.program.ids) "" _ (hnamed.apparent id) hst).imp
    fun _ _ _ hl => hl.imp fun h => ⟨hs.grounded h, rfl⟩

end Subject

end LayoutInference
