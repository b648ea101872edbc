import Mathlib
import LayoutInference.Proofs.Derivation

/-!
# Literals under construction

The layout of a literal is derived from those of its parts, and through references a literal can be
part of itself. `Subject.deriveLiteral` is handed the literals that are not being derived yet. This
module writes the same recursion with the literals under construction in the state: one is put in when
its derivation begins and taken out when it ends (`Subject.buildLiteral`). How deep derivations may go
into each other is bounded, and one that would go deeper has no result.

Both agree (`Subject.buildLiteral_follows`): from every store, and whatever is under construction, a
derivation has a result as soon as the bound exceeds the number of nodes that are not under
construction. It is the one that `Subject.deriveLiteral` gives, and afterwards the same literals are
under construction as before.
-/

namespace LayoutInference

/-- A store with the literals whose layouts are being derived. -/
structure Site extends Store where
  building : List NodeId

/-- The nodes that are not under construction. -/
def Program.idle (p : Program) (building : List NodeId) : List NodeId :=
  p.ids.filter (· ∉ building)

@[simp] theorem Program.idle_nil (p : Program) : p.idle [] = p.ids := by simp [idle]

/-- At most as many nodes are idle as there are. -/
theorem Program.length_idle_le (p : Program) (building : List NodeId) :
    (p.idle building).length ≤ p.ids.length :=
  List.length_filter_le _ _

/-- A step of derivation that enters no literal. -/
def Site.step {α : Type} (m : StateM Store α) : StateT Site Option α := fun site =>
  some ((m site.toStore).1, { site with toStore := (m site.toStore).2 })

namespace Subject

/-! ## The recursion -/

section Literal

variable (s : Subject) (literal : String → Node → StateT Site Option Layout)

mutual

/-- The layout of an apparent type. -/
def buildType (hint : String) : Apparent → StateT Site Option Layout
  | .string => pure .string
  | .number => pure .integer
  | .boolean => pure .boolean
  | .void => pure .void
  | .any => pure .pointer
  | .null | .undefined | .function => pure .universal
  | .object [] => pure .universal
  | .object (m :: ms) => do Site.step (Store.record hint (← buildMembers (m :: ms)))
  | .array elem => do
    let l ← buildType "" elem
    if l.isFallback then pure .pointer else Site.step (Store.withRegistry (·.dynamicArray l))

/-- The fields of the members of an object type. -/
def buildMembers : List (Member Apparent) → StateT Site Option (List Field)
  | [] => pure []
  | ⟨name, type, node⟩ :: ms => do
    let l ← match s.program.at? node with
      | some n =>
        if n.isCollection then (if n.items.isEmpty then pure .pointer else literal name n)
        else buildType name type
      | none => buildType name type
    return ⟨name, l⟩ :: (← buildMembers ms)

end

/-- The layout of an expression; none if it must be put off. -/
def buildExpression (hint : String) (id : NodeId) : StateT Site Option (Option Layout) :=
  match s.program.node? id with
  | none => pure (some .pointer)
  | some n =>
    if n.isCollection then do return some (← literal hint n)
    else if s.defers id then pure none
    else do
      let l ← s.buildType literal hint (s.apparent id)
      if l = .universal then
        Site.step (Store.note s.program
          (.noStaticLayout (s.program.text id) (s.apparent id).text) (some id))
      return some l

/-- The layout of a property value inside a literal. -/
def buildProperty (name : String) (value : Option NodeId) : StateT Site Option Layout :=
  match s.program.at? value with
  | none => pure .pointer
  | some n =>
    if n.kind = .function || (n.isCollection && n.items.isEmpty) then pure .pointer
    else do return (← s.buildExpression literal name n.id).getD .pointer

/-- The fields of an object literal. -/
def buildFields : List NodeId → StateT Site Option (List Field)
  | [] => pure []
  | id :: ids =>
    match s.program.node? id with
    | none => buildFields ids
    | some property =>
      if property.isMember then do
        let l ← s.buildProperty literal property.name property.expr
        return ⟨property.name, l⟩ :: (← buildFields ids)
      else buildFields ids

/-- The layout of the elements of an array literal. -/
def buildElement (items : List NodeId) : StateT Site Option Layout :=
  match s.program.at? items.head? with
  | none => pure .pointer
  | some first =>
    if first.kind = .other then pure .pointer
    else do return (← s.buildExpression literal "" first.id).getD .pointer

/-- The layout of a literal that is under construction. -/
def buildLayout (hint : String) (n : Node) : StateT Site Option Layout :=
  if n.kind = .objectLiteral then do
    Site.step (Store.record hint (← s.buildFields literal n.items))
  else do
    let elem ← s.buildElement literal n.items
    Site.step (Store.withRegistry (·.fixedArray elem n.items.length))

end Literal

/-- Derive the layout of a literal, at most `depth` derivations into each other. A literal that is under
construction is unknown, and this is not kept. -/
def buildLiteral (s : Subject) : (depth : Nat) → String → Node → StateT Site Option Layout
  | 0, _, _ => failure
  | depth + 1, hint, n => do
    match (← get).literals.lookup n.id with
    | some known => return known
    | none =>
      if n.id ∈ (← get).building then return .pointer
      else
        modify fun site => { site with building := n.id :: site.building }
        let l ← s.buildLayout (s.buildLiteral depth) hint n
        modify fun site => { site with
          literals := (n.id, l) :: site.literals, building := site.building.erase n.id }
        return l

end Subject

/-! ## Both recursions agree -/

/-- Started while `building` is under construction, `m` has the result of `m'`, and afterwards the same
is under construction. -/
def Site.Follows {α : Type} (building : List NodeId) (m : StateT Site Option α)
    (m' : StateM Store α) : Prop :=
  ∀ st : Store, m ⟨st, building⟩ = some ((m' st).1, ⟨(m' st).2, building⟩)

namespace Site.Follows

variable {α β : Type} {building : List NodeId} {m : StateT Site Option α} {m' : StateM Store α}

/-- An answer alone follows itself. -/
theorem pure (a : α) : Follows building (Pure.pure a) (Pure.pure a) := fun _ => rfl

/-- A step that enters no literal follows the computation it is made from. -/
theorem step (m' : StateM Store α) : Follows building (Site.step m') m' := fun _ => rfl

/-- Computations that follow others may be put one after the other. -/
theorem bind {f : α → StateT Site Option β} {f' : α → StateM Store β}
    (hm : Follows building m m') (hf : ∀ a, Follows building (f a) (f' a)) :
    Follows building (m >>= f) (m' >>= f') := by
  intro st
  show (m ⟨st, building⟩ >>= fun a => f a.1 a.2) = _
  rw [hm st]
  exact hf _ _

end Site.Follows

namespace Subject

open Site (Follows)

section Literal

variable {s : Subject} {building : List NodeId}
  {literal : String → Node → StateT Site Option Layout}
  {literal' : String → Node → StateM Store Layout}

/-- Two ways to derive literals that agree on the literals of the program. -/
def LiteralsFollow (s : Subject) (building : List NodeId)
    (literal : String → Node → StateT Site Option Layout)
    (literal' : String → Node → StateM Store Layout) : Prop :=
  ∀ hint id n, s.program.node? id = some n → Follows building (literal hint n) (literal' hint n)

mutual

/-- The layout of an apparent type follows, if the literals do. -/
theorem buildType_follows (hlit : s.LiteralsFollow building literal literal') (hint : String) :
    (t : Apparent) → Follows building (s.buildType literal hint t) (s.convert literal' hint t)
  | .string | .number | .boolean | .void | .any | .null | .undefined | .function | .object [] => by
    rw [buildType, convert]
    exact .pure _
  | .object (m :: ms) => by
    rw [buildType, convert]
    exact (buildMembers_follows hlit (m :: ms)).bind fun _ => .step _
  | .array elem => by
    rw [buildType, convert]
    refine (buildType_follows hlit "" elem).bind fun l => ?_
    split
    · exact .pure _
    · exact .step _

/-- The fields of an object type follow, if the literals do. -/
theorem buildMembers_follows (hlit : s.LiteralsFollow building literal literal') :
    (ms : List (Member Apparent)) →
      Follows building (s.buildMembers literal ms) (s.convertMembers literal' ms)
  | [] => by
    rw [buildMembers, convertMembers]
    exact .pure _
  | ⟨name, type, node⟩ :: ms => by
    rw [buildMembers, convertMembers]
    have hrest (l : Layout) : Follows building
        (do return ⟨name, l⟩ :: (← s.buildMembers literal ms))
        (do return ⟨name, l⟩ :: (← s.convertMembers literal' ms)) :=
      (buildMembers_follows hlit ms).bind fun _ => .pure _
    cases hn : s.program.at? node with
    | none => exact (buildType_follows hlit name type).bind hrest
    | some n =>
      obtain ⟨id, -, hid⟩ := Option.bind_eq_some_iff.mp hn
      simp only
      split
      · split
        · exact hrest .pointer
        · exact (hlit name id n hid).bind hrest
      · exact (buildType_follows hlit name type).bind hrest

end

variable (hlit : s.LiteralsFollow building literal literal')

include hlit

/-- The layout of an expression follows, if the literals do. -/
theorem buildExpression_follows (hint : String) (id : NodeId) :
    Follows building (s.buildExpression literal hint id) (s.determineWith literal' hint id) := by
  rw [buildExpression, determineWith]
  cases hn : s.program.node? id with
  | none => exact .pure _
  | some n =>
    simp only
    split
    · exact (hlit hint id n hn).bind fun _ => .pure _
    · split
      · exact .pure _
      · refine (buildType_follows hlit hint _).bind fun l => ?_
        split
        · exact (Follows.step _).bind fun _ => .pure _
        · exact .pure _

/-- The layout of a property value follows, if the literals do. -/
theorem buildProperty_follows (name : String) (value : Option NodeId) :
    Follows building (s.buildProperty literal name value) (s.propertyLayout literal' name value) := by
  rw [buildProperty, propertyLayout]
  cases s.program.at? value with
  | none => exact .pure _
  | some n =>
    simp only
    split
    · exact .pure _
    · exact (buildExpression_follows hlit name n.id).bind fun _ => .pure _

/-- The fields of an object literal follow, if the literals do. -/
theorem buildFields_follows (ids : List NodeId) :
    Follows building (s.buildFields literal ids) (s.literalFields literal' ids) := by
  induction ids with
  | nil => exact .pure _
  | cons id ids ih =>
    rw [buildFields, literalFields]
    cases s.program.node? id with
    | none => exact ih
    | some property =>
      simp only
      split
      · exact (buildProperty_follows hlit _ _).bind fun _ => ih.bind fun _ => .pure _
      · exact ih

/-- The element layout of an array literal follows, if the literals do. -/
theorem buildElement_follows (items : List NodeId) :
    Follows building (s.buildElement literal items) (s.literalElement literal' items) := by
  rw [buildElement, literalElement]
  cases s.program.at? items.head? with
  | none => exact .pure _
  | some first =>
    simp only
    split
    · exact .pure _
    · exact (buildExpression_follows hlit "" first.id).bind fun _ => .pure _

/-- The layout of a literal under construction follows, if the literals in it do. -/
theorem buildLayout_follows (hint : String) (n : Node) :
    Follows building (s.buildLayout literal hint n) (s.literalLayout literal' hint n) := by
  rw [buildLayout, literalLayout]
  split
  · exact (buildFields_follows hlit n.items).bind fun _ => .step _
  · exact (buildElement_follows hlit n.items).bind fun _ => .step _

end Literal

/-! ## Literals inside literals -/

variable {s : Subject}

/-- A literal that is put in is taken from those that are not under construction. -/
theorem idle_cons (building : List NodeId) (id : NodeId) :
    s.program.idle (id :: building) = (s.program.idle building).erase id := by
  have hnodup : (s.program.idle building).Nodup := s.program.nodup_ids.filter _
  rw [hnodup.erase_eq_filter, Program.idle, Program.idle, List.filter_filter]
  refine List.filter_congr fun other _ => ?_
  simp [List.mem_cons, not_or, bne, beq_eq_decide]

section Cases

variable {depth : Nat} {hint : String} {n : Node} {st : Store} (building : List NodeId)

/-- A literal in the table is not built again. -/
theorem buildLiteral_of_lookup {known : Layout} (h : st.literals.lookup n.id = some known) :
    s.buildLiteral (depth + 1) hint n ⟨st, building⟩ = some (known, ⟨st, building⟩) := by
  rw [buildLiteral]
  show (match st.literals.lookup n.id with
    | some known => _
    | none => _ : StateT Site Option Layout) _ = _
  rw [h]
  rfl

/-- A literal that is met for the first time is under construction while its parts are derived. -/
theorem buildLiteral_of_lookup_none (h : st.literals.lookup n.id = none) :
    s.buildLiteral (depth + 1) hint n ⟨st, building⟩ =
      if n.id ∈ building then some (.pointer, ⟨st, building⟩)
      else (s.buildLayout (s.buildLiteral depth) hint n ⟨st, n.id :: building⟩).map fun built =>
        (built.1, { built.2 with
          literals := (n.id, built.1) :: built.2.literals
          building := built.2.building.erase n.id }) := by
  rw [buildLiteral]
  show (match st.literals.lookup n.id with
    | some known => _
    | none => _ : StateT Site Option Layout) _ = _
  rw [h]
  show (if n.id ∈ building then _ else _ : StateT Site Option Layout) _ = _
  split
  · rfl
  · show (s.buildLayout (s.buildLiteral depth) hint n ⟨st, n.id :: building⟩ >>= _) = _
    cases s.buildLayout (s.buildLiteral depth) hint n ⟨st, n.id :: building⟩ <;> rfl

end Cases

/-- Within the bound, the recursion with a set of literals under construction follows the one that is
handed the others. -/
theorem buildLiteral_follows (hp : s.program.Numbered) {depth : Nat} {building : List NodeId}
    (hdepth : (s.program.idle building).length < depth) (hint : String) {id : NodeId} {n : Node}
    (hn : s.program.node? id = some n) :
    Follows building (s.buildLiteral depth hint n)
      (s.deriveLiteral (s.program.idle building) hint n) := by
  induction depth generalizing building hint id n with
  | zero => omega
  | succ depth ih =>
    intro st
    cases hlookup : st.literals.lookup n.id with
    | some known => rw [deriveLiteral_of_lookup s hlookup, buildLiteral_of_lookup building hlookup]
    | none =>
      rw [deriveLiteral_of_lookup_none s hlookup, buildLiteral_of_lookup_none building hlookup]
      by_cases hmem : n.id ∈ building
      -- A literal under construction is unknown on both sides.
      · have hidle : n.id ∉ s.program.idle building := by simp [Program.idle, hmem]
        rw [if_neg hidle, if_pos hmem]
      · have hidle : n.id ∈ s.program.idle building := by
          simp [Program.idle, hmem, hp.mem_ids hn]
        -- One literal more is under construction, so the bound that is left still exceeds the idle nodes.
        have hless : (s.program.idle (n.id :: building)).length < depth := by
          rw [idle_cons, List.length_erase_of_mem hidle]
          have := List.length_pos_of_mem hidle
          omega
        have hinner := buildLayout_follows (fun hint _ _ hm => ih hless hint hm) hint n st
        rw [if_pos hidle, if_neg hmem, hinner, idle_cons]
        simp

/-- All functions of the recursion have a result while `building` is under construction, if derivations
go at most `depth` into each other: the one they have when they are handed the other nodes. Afterwards
the same is under construction. -/
structure Builds (s : Subject) (building : List NodeId) (depth : Nat) : Prop where
  expression (hint : String) (id : NodeId) :
    Follows building (s.buildExpression (s.buildLiteral depth) hint id)
      (s.determineWith (s.deriveLiteral (s.program.idle building)) hint id)
  type (hint : String) (t : Apparent) :
    Follows building (s.buildType (s.buildLiteral depth) hint t)
      (s.convert (s.deriveLiteral (s.program.idle building)) hint t)
  property (name : String) (value : Option NodeId) :
    Follows building (s.buildProperty (s.buildLiteral depth) name value)
      (s.propertyLayout (s.deriveLiteral (s.program.idle building)) name value)
  literal (hint : String) {id : NodeId} {n : Node} (hn : s.program.node? id = some n) :
    Follows building (s.buildLiteral depth hint n)
      (s.deriveLiteral (s.program.idle building) hint n)

/-- The recursion ends: it goes at most as deep as there are nodes that are not under construction, and
once more to find that out. -/
theorem builds_of_lt (hp : s.program.Numbered) {building : List NodeId} {depth : Nat}
    (hdepth : (s.program.idle building).length < depth) : s.Builds building depth where
  expression := buildExpression_follows fun hint _ _ => buildLiteral_follows hp hdepth hint
  type := buildType_follows fun hint _ _ => buildLiteral_follows hp hdepth hint
  property := buildProperty_follows fun hint _ _ => buildLiteral_follows hp hdepth hint
  literal hint _ _ := buildLiteral_follows hp hdepth hint

end Subject

end LayoutInference
