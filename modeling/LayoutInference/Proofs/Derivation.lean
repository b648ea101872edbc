import Mathlib
import LayoutInference.Inference.Current
import LayoutInference.Proofs.Growth
import LayoutInference.Proofs.Numbering

/-!
# Deriving layouts again

Asking for a layout may derive literals and register records, and it may add notes. All of that
happens the first time only: the layout of a literal is kept, and everything else is found in the
registry. So asking again, at any later time and under the same evidence, gives the same layout and
leaves the store as it is. `Subject.deriveAny_runs` says this of literals, `View.layoutOf_runs` of all
nodes.

Inside a literal this fails: a literal that is being derived counts as unknown there, and notes are
added. What is shown of the steps inside is therefore weaker, `Runs False`.
-/

namespace LayoutInference

namespace Store

/-- Whether the store has all records that a layout is made of. -/
abbrev Known (l : Layout) (st : Store) : Prop := st.registry.Knows l

/-- Layouts stay known as a store grows. -/
theorem Known.mono {l : Layout} {st st' : Store} (hl : Known l st) (h : st ≤ st') : Known l st' :=
  Registry.Knows.mono h.registry hl

/-- A record of known fields gives a known layout, and the same one when asked for again. -/
theorem record_runs {st : Store} (hst : st.WellFormed) (hint : String) {fields : List Field}
    (hfields : ∀ f ∈ fields, Known f.layout st) (again : Prop) :
    Runs again Known (record hint fields) st := by
  refine (withRegistry_runs hst (Registry.register_runs hst.registry hfields again)).bind ?_
  intro id st' hst' _ hid
  exact .pure hst' ((Registry.knows_record _ _).mpr hid)

/-- Notes are no part of what grows, but they are not repeated either. -/
theorem note_runs {st : Store} (hst : st.WellFormed) (p : Program) (notice : Notice)
    (node : Option NodeId) : Runs False (fun _ _ => True) (note p notice node) st :=
  ⟨⟨hst.registry, hst.literals⟩, ⟨le_refl st.registry, fun _ _ h => h⟩, trivial, False.elim⟩

end Store

open Store (Known)

namespace Subject

/-! ## Apparent types -/

/-- A way to derive literals that does its work as asked; see the head of this module. -/
def Derives (s : Subject) (again : Prop) (literal : String → Node → StateM Store Layout) : Prop :=
  ∀ hint id n st, s.program.node? id = some n → Store.WellFormed st →
    Runs again Known (literal hint n) st

section Literal

variable {s : Subject} {again : Prop} {literal : String → Node → StateM Store Layout}

mutual

/-- Converting a type gives a known layout, and repeats if deriving literals does. -/
theorem convert_runs (hlit : s.Derives again literal) (hint : String) {st : Store} :
    (t : Apparent) → st.WellFormed → Runs again Known (s.convert literal hint t) st
  | .string, hst | .number, hst | .boolean, hst | .void, hst | .any, hst | .null, hst
  | .undefined, hst | .function, hst | .object [], hst => by
    rw [convert]
    exact .pure hst (Registry.knows_scalar _ _)
  | .object (m :: ms), hst => by
    rw [convert]
    refine (convertMembers_runs hlit (m :: ms) hst).bind ?_
    intro fields st' hst' _ hfields
    exact Store.record_runs hst' hint hfields again
  | .array elem, hst => by
    rw [convert]
    refine (convert_runs hlit "" elem hst).bind ?_
    intro l st' hst' _ hl
    split
    · exact .pure hst' (Registry.knows_scalar _ _)
    · exact Store.withRegistry_runs hst' (Registry.dynamicArray_runs hst'.registry hl again)

/-- Converting members gives known fields, and repeats if deriving literals does. -/
theorem convertMembers_runs (hlit : s.Derives again literal) {st : Store} :
    (ms : List (Member Apparent)) → st.WellFormed →
      Runs again (fun fields st' => ∀ f ∈ fields, Known f.layout st') (s.convertMembers literal ms) st
  | [], hst => by
    rw [convertMembers]
    exact .pure hst (by simp)
  | ⟨name, type, node⟩ :: ms, hst => by
    rw [convertMembers]
    -- Wherever the layout of the first member comes from, the others follow.
    have hrest (l : Layout) (st' : Store) (hst' : st'.WellFormed) (_ : st ≤ st')
        (hl : Known l st') : Runs again (fun fields st'' => ∀ f ∈ fields, Known f.layout st'')
          (do return ⟨name, l⟩ :: (← s.convertMembers literal ms)) st' := by
      refine (convertMembers_runs hlit ms hst').bind ?_
      intro fields st'' hst'' hle hfields
      exact .pure hst'' (List.forall_mem_cons.mpr ⟨hl.mono hle, hfields⟩)
    cases hn : s.program.at? node with
    | none => exact (convert_runs hlit name type hst).bind hrest
    | some n =>
      obtain ⟨id, -, hid⟩ := Option.bind_eq_some_iff.mp hn
      simp only
      split
      · split
        · exact hrest .pointer st hst (le_refl st) (Registry.knows_scalar _ _)
        · exact (hlit name id n st hid hst).bind hrest
      · exact (convert_runs hlit name type hst).bind hrest

end

/-! ## Inside a literal -/

/-- A layout that may be put off. -/
abbrev KnownIfAny (l : Option Layout) (st : Store) : Prop := Known (l.getD .pointer) st

/-- Deriving an expression inside a literal gives a known layout, if any. -/
theorem determineWith_runs (hlit : s.Derives False literal) (hint : String) (id : NodeId)
    {st : Store} (hst : st.WellFormed) :
    Runs False KnownIfAny (s.determineWith literal hint id) st := by
  rw [determineWith]
  cases hn : s.program.node? id with
  | none => exact .pure hst (Registry.knows_scalar _ _)
  | some n =>
    simp only
    split
    · refine (hlit hint id n st hn hst).bind ?_
      exact fun l st' hst' _ hl => .pure hst' hl
    · split
      · exact .pure hst (Registry.knows_scalar _ _)
      · refine (convert_runs hlit hint (s.apparent id) hst).bind ?_
        intro l st' hst' _ hl
        split
        · refine (Store.note_runs hst' s.program _ (some id)).bind ?_
          exact fun _ st'' hst'' hle _ => .pure hst'' (hl.mono hle)
        · exact .pure hst' hl

/-- Deriving a property value inside a literal gives a known layout. -/
theorem propertyLayout_runs (hlit : s.Derives False literal) (name : String)
    (value : Option NodeId) {st : Store} (hst : st.WellFormed) :
    Runs False Known (s.propertyLayout literal name value) st := by
  rw [propertyLayout]
  cases s.program.at? value with
  | none => exact .pure hst (Registry.knows_scalar _ _)
  | some n =>
    simp only
    split
    · exact .pure hst (Registry.knows_scalar _ _)
    · refine (determineWith_runs hlit name n.id hst).bind ?_
      exact fun l st' hst' _ hl => .pure hst' hl

/-- Deriving the fields of an object literal gives known layouts. -/
theorem literalFields_runs (hlit : s.Derives False literal) (ids : List NodeId) {st : Store}
    (hst : st.WellFormed) :
    Runs False (fun fields st' => ∀ f ∈ fields, Known f.layout st') (s.literalFields literal ids)
      st := by
  induction ids generalizing st with
  | nil => exact .pure hst (by simp)
  | cons id ids ih =>
    rw [literalFields]
    cases s.program.node? id with
    | none => exact ih hst
    | some property =>
      simp only
      split
      · refine (propertyLayout_runs hlit property.name property.expr hst).bind ?_
        intro l st' hst' _ hl
        refine (ih hst').bind ?_
        intro fields st'' hst'' hle hfields
        exact .pure hst'' (List.forall_mem_cons.mpr ⟨hl.mono hle, hfields⟩)
      · exact ih hst

/-- Deriving the elements of an array literal gives a known layout. -/
theorem literalElement_runs (hlit : s.Derives False literal) (items : List NodeId) {st : Store}
    (hst : st.WellFormed) : Runs False Known (s.literalElement literal items) st := by
  rw [literalElement]
  cases s.program.at? items.head? with
  | none => exact .pure hst (Registry.knows_scalar _ _)
  | some first =>
    simp only
    split
    · exact .pure hst (Registry.knows_scalar _ _)
    · refine (determineWith_runs hlit "" first.id hst).bind ?_
      exact fun l st' hst' _ hl => .pure hst' hl

/-- Deriving a literal from its parts gives a known layout. -/
theorem literalLayout_runs (hlit : s.Derives False literal) (hint : String) (n : Node) {st : Store}
    (hst : st.WellFormed) : Runs False Known (s.literalLayout literal hint n) st := by
  rw [literalLayout]
  split
  · refine (literalFields_runs hlit n.items hst).bind ?_
    exact fun fields st' hst' _ hfields => Store.record_runs hst' hint hfields False
  · refine (literalElement_runs hlit n.items hst).bind ?_
    exact fun l st' hst' _ hl =>
      Store.withRegistry_runs hst' (Registry.fixedArray_runs hst'.registry hl _ False)

end Literal

/-! ## Literals -/

variable (s : Subject)

/-- A literal in the table is not derived again. -/
theorem deriveLiteral_of_lookup {fresh : List NodeId} {hint : String} {n : Node} {known : Layout}
    {st : Store} (h : st.literals.lookup n.id = some known) :
    s.deriveLiteral fresh hint n st = (known, st) := by
  rw [deriveLiteral, get_bind_apply, h]
  rfl

/-- The layout of a literal that is met for the first time is kept; while it is being derived, it is
unknown. -/
theorem deriveLiteral_of_lookup_none {fresh : List NodeId} {hint : String} {n : Node} {st : Store}
    (h : st.literals.lookup n.id = none) :
    s.deriveLiteral fresh hint n st =
      if n.id ∈ fresh then
        let derived :=
          s.literalLayout (fun hint m => s.deriveLiteral (fresh.erase n.id) hint m) hint n st
        (derived.1, { derived.2 with literals := (n.id, derived.1) :: derived.2.literals })
      else (.pointer, st) := by
  rw [deriveLiteral, get_bind_apply, h]
  by_cases hmem : n.id ∈ fresh
  · simp only [dif_pos hmem, if_pos hmem]
    rfl
  · simp only [dif_neg hmem, if_neg hmem]
    rfl

/-- The layout of a literal is kept, so it is not derived twice. The second time only matters for a
literal that is not being derived. -/
theorem deriveLiteral_runs (fresh : List NodeId) (hint : String) (n : Node) {again : Prop}
    (hfresh : again → n.id ∈ fresh) {st : Store} (hst : st.WellFormed) :
    Runs again Known (s.deriveLiteral fresh hint n) st := by
  cases hlookup : st.literals.lookup n.id with
  | some known =>
    refine .found hst (hst.literals _ _ hlookup) fun st' _ hle => ?_
    exact s.deriveLiteral_of_lookup (hle.literals _ _ hlookup)
  | none =>
    by_cases hmem : n.id ∈ fresh
    · -- Inside a literal nothing has to be repeated: from now on its layout is looked up.
      have hinner : s.Derives False (fun hint m => s.deriveLiteral (fresh.erase n.id) hint m) :=
        fun hint _ m _ _ hst => deriveLiteral_runs (fresh.erase n.id) hint m False.elim hst
      have hruns := literalLayout_runs hinner hint n hst
      set derived := s.literalLayout (fun hint m => s.deriveLiteral (fresh.erase n.id) hint m) hint n
      have hnow : s.deriveLiteral fresh hint n st = ((derived st).1,
          { (derived st).2 with
            literals := (n.id, (derived st).1) :: (derived st).2.literals }) := by
        rw [deriveLiteral_of_lookup_none s hlookup, if_pos hmem]
      refine .of_eq hnow
        ⟨hruns.sound.registry, forall_lookup_cons hruns.sound.literals hruns.holds⟩
        ⟨hruns.grows.registry, fun id l hl => ?_⟩ hruns.holds ?_
      · -- The literal may have come up again inside itself, but it was not there at the start.
        have hne : id ≠ n.id := by
          rintro rfl
          rw [hlookup] at hl
          cases hl
        rw [List.lookup_cons, beq_false_of_ne hne]
        exact hruns.grows.literals id l hl
      · exact fun _ st' _ hle => s.deriveLiteral_of_lookup (hle.literals _ _ (by simp))
    · have hnow : s.deriveLiteral fresh hint n st = (.pointer, st) := by
        rw [deriveLiteral_of_lookup_none s hlookup, if_neg hmem]
      refine .of_eq hnow hst (le_refl st) (Registry.knows_scalar _ _) ?_
      exact fun hagain => absurd (hfresh hagain) hmem
termination_by fresh.length
decreasing_by
  rw [List.length_erase_of_mem hmem]
  have := List.length_pos_of_mem hmem
  omega

variable {s}

/-- Deriving any literal from outside does its work as asked, and repeats. -/
theorem deriveAny_derives (hp : s.program.Numbered) (again : Prop) : s.Derives again s.deriveAny :=
  fun hint _ n _ hn hst => s.deriveLiteral_runs s.program.ids hint n (fun _ => hp.mem_ids hn) hst

/-- Deriving an expression gives a known layout, if any. -/
theorem determine_runs (hp : s.program.Numbered) (hint : String) (id : NodeId) {st : Store}
    (hst : st.WellFormed) : Runs False KnownIfAny (s.determine hint id) st :=
  determineWith_runs (deriveAny_derives hp False) hint id hst

/-- The layout that an expression's type tells is known, and the same when asked for again. -/
theorem quietLayout_runs (hp : s.program.Numbered) (id : NodeId) (again : Prop) {st : Store}
    (hst : st.WellFormed) : Runs again Known (s.quietLayout id) st :=
  convert_runs (deriveAny_derives hp again) "" (s.apparent id) hst

end Subject

/-! ## Current layouts -/

namespace Registry

/-- A record's field is looked up among the registered fields of its number. -/
theorem bind_field?_eq (r : Registry) (id : RecordId) (name : String) :
    (r.record? id).bind (·.field? name) = ((r.fields id).find? (·.name = name)).map (·.layout) := by
  rw [fields]
  cases r.record? id <;> rfl

/-- The fields of a record stay what they are. -/
theorem bind_field?_of_le {r r' : Registry} (h : r ≤ r') {id : RecordId} (hid : id ∈ r.ids)
    (name : String) : (r'.record? id).bind (·.field? name) = (r.record? id).bind (·.field? name) := by
  rw [bind_field?_eq, bind_field?_eq, h.fields id hid]

/-- The layout of a registered field is known. -/
theorem WellFormed.knows_field {r : Registry} (hr : r.WellFormed) (id : RecordId) (name : String) :
    r.Knows (((r.record? id).bind (·.field? name)).getD .missing) := by
  cases hrecord : r.record? id with
  | none => exact knows_missing r
  | some record =>
    have hmem : record ∈ r.records := List.mem_of_find?_eq_some hrecord
    cases hfield : record.fields.find? (·.name = name) with
    | none => simp [Record.field?, hfield]
    | some f =>
      have hf := hr.fields record hmem f (List.mem_of_find?_eq_some hfield)
      simpa [Record.field?, hfield] using hf

end Registry

namespace View

/-- The evidence speaks of known records only. -/
structure Known (v : View) (st : Store) : Prop where
  vars : ∀ x ∈ v.vars, st.registry.Knows x.winner
  routines : ∀ r ∈ v.routines, st.registry.Knows r.ret

/-- Evidence stays known as a store grows. -/
theorem Known.mono {v : View} {st st' : Store} (hv : v.Known st) (h : st ≤ st') : v.Known st' :=
  ⟨fun x hx => (hv.vars x hx).mono h.registry, fun r hr => (hv.routines r hr).mono h.registry⟩

/-- An element has the same layout in a registry that has grown. -/
theorem elementLayout?_of_le {r r' : Registry} (h : r ≤ r') {receiver : Layout}
    (hl : r.Knows receiver) (key : Option Node) :
    elementLayout? r' receiver key = elementLayout? r receiver key := by
  cases receiver with
  | record id =>
    simp only [elementLayout?, Registry.bind_field?_of_le h ((Registry.knows_record r id).mp hl)]
  | missing | scalar | fixed | dynamic | dict => rfl

/-- The layout of an element of a known container is known. -/
theorem knows_elementLayout? {r : Registry} (hr : r.WellFormed) {receiver l : Layout}
    (hl : r.Knows receiver) {key : Option Node} (h : elementLayout? r receiver key = some l) :
    r.Knows l := by
  unfold elementLayout? at h
  cases receiver with
  | record id =>
    simp only at h
    split at h
    · split at h <;> cases h
      · exact hr.knows_field id _
      · exact Registry.knows_missing r
    · cases h
      exact Registry.knows_missing r
  | scalar kind =>
    cases h
    split
    · exact Registry.knows_scalar r _
    · exact Registry.knows_missing r
  | missing => cases h
  | fixed | dynamic | dict =>
    cases h
    exact hl

/-- A property has the same layout in a registry that has grown. -/
theorem propertyLayout?_of_le {r r' : Registry} (h : r ≤ r') {receiver : Layout}
    (hl : r.Knows receiver) (name : String) :
    propertyLayout? r' receiver name = propertyLayout? r receiver name := by
  cases receiver with
  | record id =>
    simp only [propertyLayout?, Registry.bind_field?_of_le h ((Registry.knows_record r id).mp hl)]
  | missing | scalar | fixed | dynamic | dict => rfl

/-- The layout of a property is known. -/
theorem knows_propertyLayout? {r : Registry} (hr : r.WellFormed) {receiver l : Layout}
    {name : String} (h : propertyLayout? r receiver name = some l) : r.Knows l := by
  unfold propertyLayout? at h
  split at h
  · cases h
    exact Registry.knows_scalar r _
  · cases receiver with
    | record id =>
      cases h
      exact hr.knows_field id name
    | missing | scalar | fixed | dynamic | dict => cases h

/-- The layout of a method's result on a known receiver is known. -/
theorem knows_methodLayout? {r : Registry} {receiver l : Layout} (hl : r.Knows receiver)
    {method : String} (h : methodLayout? receiver method = some l) : r.Knows l := by
  unfold methodLayout? at h
  split at h
  · unfold arrayMethodLayout? at h
    split at h <;> cases h
    · exact hl.elem
    · exact hl.elem
    all_goals exact Registry.knows_scalar r _
  · split at h
    · unfold stringMethodLayout? at h
      split at h <;> cases h
      all_goals exact Registry.knows_scalar r _
    · cases h

/-- The layout that a function returns is known if that of its evidence is. -/
theorem knows_returned {r : Registry} {routine : Routine} (h : r.Knows routine.ret) :
    r.Knows routine.returned := by
  unfold Routine.returned
  split
  · split
    · exact Registry.knows_missing r
    · exact h
  · split
    · exact Registry.knows_missing r
    · exact Registry.knows_scalar r _

/-- The layout of a sum is a scalar, if any, so it is known. -/
theorem knows_sumLayout {r : Registry} (left right : Layout) : r.Knows (sumLayout left right) := by
  unfold sumLayout
  split
  · exact Registry.knows_scalar r _
  · split
    · exact Registry.knows_scalar r _
    · exact Registry.knows_missing r

variable {v : View} {st : Store}

/-- An answer that the registry may decide, and the apparent type otherwise. -/
theorem decided_runs (hp : v.program.Numbered) (hst : st.WellFormed) (id : NodeId)
    (decide : Registry → Option Layout)
    (hstable : ∀ st', st ≤ st' → decide st'.registry = decide st.registry)
    (hknown : ∀ l, decide st.registry = some l → Store.Known l st) :
    Runs True Store.Known (do
      match decide (← get).registry with
      | some l => pure l
      | none => v.quietLayout id) st := by
  refine Runs.read (g := fun st => decide st.registry)
    (k := fun answer => match answer with
      | some l => pure l
      | none => v.quietLayout id) ?_ fun _ => hstable
  cases hanswer : decide st.registry with
  | some l => exact .pure hst (hknown l hanswer)
  | none => exact Subject.quietLayout_runs hp id True hst

/-- The layout of a literal is the one that was derived, or is derived now. -/
theorem literal_runs (hp : v.program.Numbered) (hst : st.WellFormed) {id : NodeId} {n : Node}
    (hn : v.program.node? id = some n) (hliteral : n.isCollection = true) :
    Runs True Store.Known (do
      match (← get).literals.lookup id with
      | some known => pure known
      | none => return (← v.determine "" id).getD .missing) st := by
  have heq : (do
      match (← get).literals.lookup id with
      | some known => pure known
      | none => return (← v.determine "" id).getD .missing : StateM Store Layout)
      = v.deriveAny "" n := by
    funext st
    rw [get_bind_apply]
    cases hlookup : st.literals.lookup id with
    | some known => exact (v.deriveLiteral_of_lookup (by rwa [hp.id_eq hn])).symm
    | none =>
      simp only [Subject.determine, Subject.determineWith, hn, hliteral, if_true]
      rfl
  rw [heq]
  exact Subject.deriveAny_derives hp True "" id n st hn hst

/-- A name has the winner of its variable, or its apparent type if it belongs to none. -/
theorem name_runs (hp : v.program.Numbered) (hst : st.WellFormed) (hv : v.Known st) (id : NodeId)
    (n : Node) :
    Runs True Store.Known (match v.variableOf? id with
      | some owner => pure owner.winner
      | none =>
        if n.kind = .identifier ∧ n.decl ≠ none then pure .missing else v.quietLayout id) st := by
  cases hvar : v.variableOf? id with
  | some owner =>
    obtain ⟨decl, -, hfind⟩ := Option.bind_eq_some_iff.mp hvar
    exact .pure hst (hv.vars owner (List.mem_of_find?_eq_some hfind))
  | none =>
    simp only
    split
    · exact .pure hst (Registry.knows_missing _)
    · exact Subject.quietLayout_runs hp id True hst

/-- What a function returns, or the apparent type if there is no evidence about it. -/
theorem returned_runs (hp : v.program.Numbered) (hst : st.WellFormed) (hv : v.Known st) (id : NodeId)
    {found : Option Routine} :
    (∀ routine, found = some routine → routine ∈ v.routines) → Runs True Store.Known (match found with
      | some routine => pure routine.returned
      | none => v.quietLayout id) st := by
  intro hfound
  cases found with
  | some routine => exact .pure hst (knows_returned (hv.routines routine (hfound routine rfl)))
  | none => exact Subject.quietLayout_runs hp id True hst

/-- Parts have higher numbers, so a walk down has an end. -/
theorem measure_part_lt {p : Program} {id c : NodeId} {n : Node} (hn : p.node? id = some n)
    (hlt : id < c) : p.nodes.size + 1 - c < p.nodes.size + 1 - id := by
  have hsize : id - 1 < p.nodes.size := by
    rw [Program.node?] at hn
    split at hn
    · cases hn
    · exact (Array.getElem?_eq_some_iff.mp hn).1
  simp only [NodeId] at *
  omega

/-- A part of a node, as far as there is one. -/
theorem part_runs (hst : st.WellFormed) (id : NodeId) (child : Option NodeId)
    (hcurrent : ∀ c, id < c → Runs True Store.Known (v.current c) st) :
    Runs True Store.Known (match child with
      | none => pure .missing
      | some c => if _h : id < c then v.current c else pure .missing) st := by
  cases child with
  | none => exact .pure hst (Registry.knows_missing _)
  | some c =>
    simp only
    split
    · next hlt => exact hcurrent c hlt
    · exact .pure hst (Registry.knows_missing _)

/-- The current layout of a node is known, and the same when asked for again. -/
theorem current_runs (hp : v.program.Numbered) (id : NodeId) (hst : st.WellFormed)
    (hv : v.Known st) : Runs True Store.Known (v.current id) st := by
  -- The induction is on the room above the number of the node.
  induction hroom : v.program.nodes.size + 1 - id using Nat.strong_induction_on
    generalizing id st with | _ room ih
  have hquiet {st : Store} (hst : st.WellFormed) : Runs True Store.Known (v.quietLayout id) st :=
    Subject.quietLayout_runs hp id True hst
  have hscalar (k : Scalar) {st : Store} (hst : st.WellFormed) :
      Runs True Store.Known (pure (.scalar k) : StateM Store Layout) st :=
    .pure hst (Registry.knows_scalar _ _)
  have hmissing {st : Store} (hst : st.WellFormed) :
      Runs True Store.Known (pure .missing : StateM Store Layout) st :=
    .pure hst (Registry.knows_missing _)
  rw [current]
  split
  · exact hmissing hst
  · next n hn =>
    have hpart (child : Option NodeId) {st : Store} (hst : st.WellFormed) (hv : v.Known st) :=
      part_runs hst id child fun c hlt => ih _ (hroom ▸ measure_part_lt hn hlt) c hst hv rfl
    simp only
    split
    · exact hscalar _ hst
    · exact hscalar _ hst
    · exact hscalar _ hst
    · exact hscalar _ hst
    · next hkind => exact literal_runs hp hst hn (by simp [Node.isCollection, hkind])
    · next hkind => exact literal_runs hp hst hn (by simp [Node.isCollection, hkind])
    · exact name_runs hp hst hv id n
    · exact name_runs hp hst hv id n
    · exact name_runs hp hst hv id n
    · exact returned_runs hp hst hv id fun _ hfound => List.mem_of_find?_eq_some hfound
    · -- an element
      refine (hpart n.target hst hv).bind ?_
      intro receiver st' hst' _ hl
      exact decided_runs hp hst' id
        (fun registry => elementLayout? registry receiver (v.program.at? n.expr))
        (fun _ hle => elementLayout?_of_le hle.registry hl _)
        (fun _ => knows_elementLayout? hst'.registry hl)
    · -- a property
      refine (hpart n.target hst hv).bind ?_
      intro receiver st' hst' _ hl
      exact decided_runs hp hst' id (fun registry => propertyLayout? registry receiver n.name)
        (fun _ hle => propertyLayout?_of_le hle.registry hl _)
        (fun _ => knows_propertyLayout? hst'.registry)
    · -- a call
      cases v.program.at? n.target with
      | none => exact hmissing hst
      | some callee =>
        simp only
        split
        · refine (hpart callee.target hst hv).bind ?_
          intro receiver st' hst' _ hl
          exact decided_runs hp hst' id (fun _ => methodLayout? receiver callee.name)
            (fun _ _ => rfl) (fun _ => knows_methodLayout? hl)
        · refine returned_runs hp hst hv id fun routine hfound => ?_
          obtain ⟨fn, -, hfind⟩ := Option.bind_eq_some_iff.mp hfound
          exact List.mem_of_find?_eq_some hfind
    · -- an assignment
      split
      · exact hpart n.expr hst hv
      · exact hquiet hst
    · -- a binary expression
      split
      · exact hscalar _ hst
      · exact hscalar _ hst
      · refine (hpart n.target hst hv).bind ?_
        intro left st' hst' hle _
        refine (hpart n.expr hst' (hv.mono hle)).bind ?_
        intro right st'' hst'' _ _
        split
        · exact hquiet hst''
        · exact .pure hst'' (knows_sumLayout left right)
      · exact hquiet hst
      · exact hquiet hst
    · exact hquiet hst

/-- The layout of a node is known, and the same when asked for again. -/
theorem layoutOf_runs (hp : v.program.Numbered) (id : NodeId) (hst : st.WellFormed)
    (hv : v.Known st) : Runs True Store.Known (v.layoutOf id) st := by
  refine (current_runs hp id hst hv).bind ?_
  intro l st' hst' _ hl
  refine .pure hst' ?_
  split
  · exact Registry.knows_missing _
  · exact hl

end View

end LayoutInference
