import Mathlib
import LayoutInference.Proofs.Derivation
import LayoutInference.Proofs.Walk

/-!
# Invariants of stores

`Keeps I Q m` says of a computation that it keeps `I` and that its answer satisfies `Q`.

Derivation changes a store in few ways: it registers records, makes arrays, takes notes and enters the
layouts of literals. What this asks of an invariant is said in three layers, for apparent types
(`Subject.Converts`), for expressions (`Subject.Determines`) and for literals (`Subject.Upholds`), and
proved along the recursion of derivation once for all invariants. `View.Answers` says the same of the
rules for current layouts.
-/

namespace LayoutInference

/-! ## Computations that keep an invariant -/

/-- The computation keeps `I`, and its answer satisfies `Q`. -/
def Keeps {σ α : Type} (I : σ → Prop) (Q : α → Prop) (m : StateM σ α) : Prop :=
  ∀ s, I s → I (m s).2 ∧ Q (m s).1

/-- The computation leads from `I` to `J`. -/
def Leads {σ α : Type} (I J : σ → Prop) (m : StateM σ α) : Prop := ∀ s, I s → J (m s).2

section Rules

variable {σ α β : Type} {I J : σ → Prop} {Q Q' : α → Prop} {R : β → Prop} {m : StateM σ α}
  {f : α → StateM σ β}

namespace Keeps

/-- An answer alone keeps every invariant. -/
theorem pure {a : α} (ha : Q a) : Keeps I Q (Pure.pure a : StateM σ α) := fun _ hs => ⟨hs, ha⟩

/-- Computations that keep an invariant keep it one after the other. -/
theorem bind (hm : Keeps I Q m) (hf : ∀ a, Q a → Keeps I R (f a)) : Keeps I R (m >>= f) := by
  intro s hs
  obtain ⟨hs', ha⟩ := hm s hs
  exact hf (m s).1 ha (m s).2 hs'

/-- What an answer satisfies may be weakened. -/
theorem imp (hm : Keeps I Q m) (h : ∀ a, Q a → Q' a) : Keeps I Q' m :=
  fun s hs => ⟨(hm s hs).1, h _ (hm s hs).2⟩

/-- A computation that first looks at the state. -/
theorem read {g : σ → StateM σ β} (h : ∀ s, I s → Keeps I R (g s)) : Keeps I R (get >>= g) :=
  fun s hs => h s hs s hs

/-- A computation that keeps an invariant for each element of a list keeps it for the list. -/
theorem mapM {xs : List α} {g : α → StateM σ β} (h : ∀ x ∈ xs, Keeps I R (g x)) :
    Keeps I (fun bs => ∀ b ∈ bs, R b) (xs.mapM g) := by
  induction xs with
  | nil =>
    rw [List.mapM_nil]
    exact pure (by simp)
  | cons x xs ih =>
    obtain ⟨hx, hxs⟩ := List.forall_mem_cons.mp h
    rw [List.mapM_cons]
    refine hx.bind fun b hb => (ih hxs).bind fun bs hbs => pure ?_
    exact List.forall_mem_cons.mpr ⟨hb, hbs⟩

/-- What keeps an invariant may come before what leads on from it. -/
theorem bind_leads (hm : Keeps I Q m) (hf : ∀ a, Q a → Leads I J (f a)) : Leads I J (m >>= f) :=
  fun s hs => hf _ (hm s hs).2 _ (hm s hs).1

end Keeps

/-- What keeps the goal may come after what leads there. -/
theorem Leads.bind (hm : Leads I J m) (hf : ∀ a, Keeps J R (f a)) : Leads I J (m >>= f) :=
  fun s hs => (hf _ _ (hm s hs)).1

end Rules

/-! ## Derivation -/

/-- Whether a scalar is one of the language, not made from a number. -/
def Scalar.isPlain : Scalar → Bool
  | .coded _ _ => false
  | _ => true

namespace Subject

/-- `T` holds of the apparent types of a subject and of the types inside them, and `N` of the names of
the members of object types and of object literals. -/
structure Typed (s : Subject) (T : Apparent → Prop) (N : List String → Prop) : Prop where
  apparent (id : NodeId) : T (s.apparent id)
  array {elem : Apparent} (h : T (.array elem)) : T elem
  object {members : List (Member Apparent)} (h : T (.object members)) :
    N (members.map (·.name)) ∧ ∀ m ∈ members, T m.type
  literal {n : Node} (hn : n ∈ s.program.nodes.toList) (hkind : n.kind = .objectLiteral) :
    N (s.program.memberNames n.items)

/-- Types and names always satisfy the trivial properties. -/
theorem typed_true (s : Subject) : s.Typed (fun _ => True) fun _ => True where
  apparent _ := trivial
  array _ := trivial
  object _ := ⟨trivial, fun _ _ => trivial⟩
  literal _ _ := trivial

/-- What converting apparent types asks of an invariant `I` of stores, of the layouts `S` of apparent
types and of the layouts `F` of fields. -/
structure Converts (s : Subject) (T : Apparent → Prop) (N : List String → Prop) (I : Store → Prop)
    (S F : Layout → Prop) : Prop extends s.Typed T N where
  scalar {kind : Scalar} (hkind : kind.isPlain = true) : S (.scalar kind)
  record (id : RecordId) : S (.record id)
  weaken {l : Layout} (h : S l) : F l
  register (hint : String) {fields : List Field} (hnames : N (fields.map (·.name)))
    (hfields : ∀ f ∈ fields, F f.layout) :
    Keeps I (fun _ => True) (Store.withRegistry (·.register hint fields))
  dynamic {elem : Layout} (helem : S elem) : Keeps I S (Store.withRegistry (·.dynamicArray elem))

/-- What deriving expressions asks, given a way to derive literals: notes are taken of layouts that are
not static. -/
structure Determines (s : Subject) (T : Apparent → Prop) (N : List String → Prop) (I : Store → Prop)
    (S F : Layout → Prop) : Prop extends s.Converts T N I S F where
  note {notice : Notice} (hnotice : notice.severity = .info) (node : Option NodeId) :
    Keeps I (fun _ => True) (Store.note s.program notice node)

/-- What deriving literals asks: their layouts are kept. -/
structure Upholds (s : Subject) (T : Apparent → Prop) (N : List String → Prop) (I : Store → Prop)
    (S F : Layout → Prop) : Prop extends s.Determines T N I S F where
  known {st : Store} (hst : I st) {id : NodeId} {l : Layout} (hl : st.literals.lookup id = some l) :
    F l
  fixed {elem : Layout} (helem : F elem) (capacity : Int) :
    Keeps I F (Store.withRegistry (·.fixedArray elem capacity))
  keep {st : Store} (hst : I st) (id : NodeId) {l : Layout} (hl : F l) :
    I { st with literals := (id, l) :: st.literals }

/-- A way to derive literals that keeps `I` and answers with layouts that satisfy `F`. -/
def KeepsLiterals (s : Subject) (I : Store → Prop) (F : Layout → Prop)
    (literal : String → Node → StateM Store Layout) : Prop :=
  ∀ hint id n, s.program.node? id = some n → n.isCollection = true → Keeps I F (literal hint n)

variable {s : Subject} {T : Apparent → Prop} {N : List String → Prop} {I : Store → Prop}
  {S F : Layout → Prop} {literal : String → Node → StateM Store Layout}

namespace Converts

/-- A record of proper fields can be registered, and the answer is a record. -/
theorem recorded (h : s.Converts T N I S F) (hint : String) {fields : List Field}
    (hnames : N (fields.map (·.name))) (hfields : ∀ f ∈ fields, F f.layout) :
    Keeps I (fun l => ∃ id, l = .record id) (Store.record hint fields) :=
  (h.register hint hnames hfields).bind fun id _ => .pure ⟨id, rfl⟩

/-- The opaque pointer is a proper layout for a field. -/
theorem pointer (h : s.Converts T N I S F) : F .pointer := h.weaken (h.scalar rfl)

mutual

/-- Converting a type keeps the invariant, and the layout is a proper one. -/
theorem convert (h : s.Converts T N I S F) (hlit : s.KeepsLiterals I F literal) (hint : String) :
    (t : Apparent) → T t → Keeps I S (s.convert literal hint t)
  | .string, _ | .number, _ | .boolean, _ | .void, _ | .any, _ | .null, _ | .undefined, _
  | .function, _ | .object [], _ => by
    rw [Subject.convert]
    exact .pure (h.scalar rfl)
  | .object (m :: ms), ht => by
    obtain ⟨hnames, hms⟩ := h.object ht
    rw [Subject.convert]
    refine (h.convertMembers hlit (m :: ms) hms).bind fun fields hfields => ?_
    refine (h.recorded hint (hfields.1.symm ▸ hnames) hfields.2).imp ?_
    rintro _ ⟨id, rfl⟩
    exact h.record id
  | .array elem, ht => by
    rw [Subject.convert]
    refine (h.convert hlit "" elem (h.array ht)).bind fun l hl => ?_
    split
    · exact .pure (h.scalar rfl)
    · exact h.dynamic hl

/-- Converting members keeps the invariant, and gives their names with proper layouts. -/
theorem convertMembers (h : s.Converts T N I S F) (hlit : s.KeepsLiterals I F literal) :
    (ms : List (Member Apparent)) → (∀ m ∈ ms, T m.type) →
      Keeps I (fun fields => fields.map (·.name) = ms.map (·.name) ∧ ∀ f ∈ fields, F f.layout)
        (s.convertMembers literal ms)
  | [], _ => by
    rw [Subject.convertMembers]
    exact .pure ⟨rfl, by simp⟩
  | ⟨name, type, node⟩ :: ms, hms => by
    obtain ⟨htype, hms⟩ := List.forall_mem_cons.mp hms
    rw [Subject.convertMembers]
    -- Wherever the layout of the first member comes from, the others follow.
    have hrest (l : Layout) (hl : F l) :
        Keeps I (fun fields => fields.map (·.name) = name :: ms.map (·.name)
          ∧ ∀ f ∈ fields, F f.layout)
          (do return ⟨name, l⟩ :: (← s.convertMembers literal ms)) := by
      refine (h.convertMembers hlit ms hms).bind fun fields hfields => .pure ⟨?_, ?_⟩
      · rw [List.map_cons, hfields.1]
      · exact List.forall_mem_cons.mpr ⟨hl, hfields.2⟩
    have hconvert := (h.convert hlit name type htype).bind fun l hl => hrest l (h.weaken hl)
    cases hn : s.program.at? node with
    | none => exact hconvert
    | some n =>
      simp only
      split
      · next hcollection =>
        split
        · exact hrest .pointer h.pointer
        · obtain ⟨id, -, hid⟩ := Option.bind_eq_some_iff.mp hn
          exact (hlit name id n hid hcollection).bind hrest
      · exact hconvert

end

end Converts

namespace Determines

variable (h : s.Determines T N I S F) (hlit : s.KeepsLiterals I F literal)

include h hlit

/-- Deriving an expression keeps the invariant, and a layout it gives is proper. -/
theorem determineWith (hint : String) (id : NodeId) :
    Keeps I (fun answer => ∀ l, answer = some l → F l) (s.determineWith literal hint id) := by
  have hanswer {l : Layout} (hl : F l) (l' : Layout) (hl' : some l = some l') : F l' :=
    Option.some.inj hl' ▸ hl
  rw [Subject.determineWith]
  cases hn : s.program.node? id with
  | none => exact .pure (hanswer h.pointer)
  | some n =>
    simp only
    split
    · next hcollection =>
      exact (hlit hint id n hn hcollection).bind fun l hl => .pure (hanswer hl)
    · split
      · exact .pure fun l hl => by cases hl
      · refine (h.convert hlit hint _ (h.apparent id)).bind fun l hl => ?_
        split
        · exact (h.note rfl _).bind fun _ _ => .pure (hanswer (h.weaken hl))
        · exact .pure (hanswer (h.weaken hl))

/-- What must be put off counts as unknown inside a literal. -/
theorem determineWith_getD (hint : String) (id : NodeId) :
    Keeps I F (do return (← s.determineWith literal hint id).getD .pointer) := by
  refine (h.determineWith hlit hint id).bind fun answer hanswer => .pure ?_
  cases answer with
  | none => exact h.pointer
  | some l => exact hanswer l rfl

/-- Deriving a property value keeps the invariant, and the layout is proper. -/
theorem propertyLayout (name : String) (value : Option NodeId) :
    Keeps I F (s.propertyLayout literal name value) := by
  rw [Subject.propertyLayout]
  cases s.program.at? value with
  | none => exact .pure h.pointer
  | some n =>
    simp only
    split
    · exact .pure h.pointer
    · exact h.determineWith_getD hlit name n.id

/-- Deriving the fields of an object literal keeps the invariant, and gives its member names with proper
layouts. -/
theorem literalFields (ids : List NodeId) :
    Keeps I (fun fields => fields.map (·.name) = s.program.memberNames ids
      ∧ ∀ f ∈ fields, F f.layout) (s.literalFields literal ids) := by
  induction ids with
  | nil => exact .pure ⟨rfl, by simp⟩
  | cons id ids ih =>
    rw [Subject.literalFields]
    cases hn : s.program.node? id with
    | none =>
      rw [Program.memberNames_cons_of_none hn]
      exact ih
    | some property =>
      simp only
      split
      · next hmember =>
        rw [Program.memberNames_cons_of_isMember hn hmember]
        refine (h.propertyLayout hlit _ _).bind fun l hl => ih.bind fun fields hfields => ?_
        refine .pure ⟨?_, ?_⟩
        · rw [List.map_cons, hfields.1]
        · exact List.forall_mem_cons.mpr ⟨hl, hfields.2⟩
      · next hmember =>
        rw [Program.memberNames_cons_of_not_isMember hn hmember]
        exact ih

/-- Deriving the elements of an array literal keeps the invariant, and the layout is proper. -/
theorem literalElement (items : List NodeId) : Keeps I F (s.literalElement literal items) := by
  rw [Subject.literalElement]
  cases s.program.at? items.head? with
  | none => exact .pure h.pointer
  | some first =>
    simp only
    split
    · exact .pure h.pointer
    · exact h.determineWith_getD hlit "" first.id

/-- The layout of an object literal is a record. -/
theorem literalRecord (hint : String) {n : Node} (hn : n ∈ s.program.nodes.toList)
    (hkind : n.kind = .objectLiteral) :
    Keeps I (fun l => ∃ id, l = .record id)
      (do Store.record hint (← s.literalFields literal n.items)) :=
  (h.literalFields hlit n.items).bind fun _ hfields =>
    h.recorded hint (hfields.1.symm ▸ h.literal hn hkind) hfields.2

end Determines

namespace Upholds

variable (h : s.Upholds T N I S F)

include h

/-- Deriving a literal from its parts keeps the invariant, and the layout is proper. -/
theorem literalLayout (hlit : s.KeepsLiterals I F literal) (hint : String) {n : Node}
    (hn : n ∈ s.program.nodes.toList) : Keeps I F (s.literalLayout literal hint n) := by
  rw [Subject.literalLayout]
  split
  · next hkind =>
    refine (h.literalRecord hlit hint hn hkind).imp ?_
    rintro _ ⟨id, rfl⟩
    exact h.weaken (h.record id)
  · exact (h.literalElement hlit n.items).bind fun elem helem => h.fixed helem _

/-- Deriving a literal keeps the invariant, whatever is under construction, and the layout is proper. -/
theorem deriveLiteral (fresh : List NodeId) (hint : String) {n : Node}
    (hn : n ∈ s.program.nodes.toList) : Keeps I F (s.deriveLiteral fresh hint n) := by
  intro st hst
  cases hlookup : st.literals.lookup n.id with
  | some known =>
    rw [deriveLiteral_of_lookup s hlookup]
    exact ⟨hst, h.known hst hlookup⟩
  | none =>
    rw [deriveLiteral_of_lookup_none s hlookup]
    by_cases hmem : n.id ∈ fresh
    · rw [if_pos hmem]
      obtain ⟨hderived, hl⟩ := h.literalLayout (fun hint _ _ hm _ =>
        deriveLiteral (fresh.erase n.id) hint (Program.mem_nodes hm)) hint hn st hst
      -- The literal itself is entered last, with the layout just derived.
      exact ⟨h.keep hderived n.id hl, hl⟩
    · rw [if_neg hmem]
      exact ⟨hst, h.pointer⟩
termination_by fresh.length
decreasing_by
  rw [List.length_erase_of_mem hmem]
  have := List.length_pos_of_mem hmem
  omega

/-- Deriving any literal from outside keeps the invariant. -/
theorem deriveAny : s.KeepsLiterals I F s.deriveAny :=
  fun hint _ _ hn _ => h.deriveLiteral s.program.ids hint (Program.mem_nodes hn)

/-- Deriving an expression from outside keeps the invariant, and a layout it gives is proper. -/
theorem determine (hint : String) (id : NodeId) :
    Keeps I (fun answer => ∀ l, answer = some l → F l) (s.determine hint id) :=
  h.determineWith h.deriveAny hint id

/-- The layout that an expression's type tells keeps the invariant and is proper. -/
theorem quietLayout (id : NodeId) : Keeps I S (s.quietLayout id) :=
  h.convert h.deriveAny "" _ (h.apparent id)

/-- The layout of a literal that is looked up, and derived if it is not there. -/
theorem lookedUp (id : NodeId) : Keeps I (fun l => l ≠ .missing → F l) (do
      match (← get).literals.lookup id with
      | some known => pure known
      | none => return (← s.determine "" id).getD .missing) := by
  refine .read fun st hst => ?_
  split
  · next known hknown => exact .pure fun _ => h.known hst hknown
  · refine (h.determine "" id).bind fun answer hanswer => .pure ?_
    cases answer with
    | none => exact fun hmissing => absurd rfl hmissing
    | some l => exact fun _ => hanswer l rfl

end Upholds

end Subject

/-! ## Current layouts -/

/-- What the rules for current layouts ask of an invariant `I` of stores and a property `Q` of
answers. -/
structure View.Answers (v : View) (I : Store → Prop) (Q : Layout → Prop) : Prop where
  missing : Q .missing
  scalar {kind : Scalar} (hkind : kind.isPlain = true) : Q (.scalar kind)
  winner {x : Variable} (hx : x ∈ v.vars) : Q x.winner
  returned {r : Routine} (hr : r ∈ v.routines) : Q r.returned
  elem {l : Layout} (hl : Q l) : Q l.elem
  field {st : Store} (hst : I st) (id : RecordId) (name : String) :
    Q (((st.registry.record? id).bind (·.field? name)).getD .missing)
  quiet (id : NodeId) : Keeps I Q (v.quietLayout id)
  literal {id : NodeId} {n : Node} (hn : v.program.node? id = some n) (hcollection : n.isCollection) :
    Keeps I Q (do
      match (← get).literals.lookup id with
      | some known => pure known
      | none => return (← v.determine "" id).getD .missing)

namespace View

variable {v : View} {I : Store → Prop} {Q : Layout → Prop}

namespace Answers

variable (h : v.Answers I Q)

include h

/-- A layout that was decided on is the answer, and the quiet layout stands in for one that was not. -/
theorem decided (id : NodeId) (answer : Option Layout) :
    (∀ l, answer = some l → Q l) → Keeps I Q (match answer with
      | some l => pure l
      | none => v.quietLayout id) := by
  intro hanswer
  cases answer with
  | some l => exact .pure (hanswer l rfl)
  | none => exact h.quiet id

/-- The layout of an element satisfies what the layout of its container does. -/
theorem elementLayout? {st : Store} (hst : I st) {receiver : Layout} (hreceiver : Q receiver)
    (key : Option Node) {l : Layout} (hl : elementLayout? st.registry receiver key = some l) :
    Q l := by
  have helem := h.elem hreceiver
  cases receiver with
  | record id =>
    simp only [View.elementLayout?] at hl
    repeat' split at hl
    all_goals
      cases hl
    · exact h.field hst id _
    · exact h.missing
    · exact h.missing
  | scalar kind =>
    simp only [View.elementLayout?] at hl
    split at hl
    all_goals cases hl
    · exact h.scalar rfl
    · exact h.missing
  | missing => cases hl
  | fixed elem _ | dynamic elem | dict elem =>
    cases hl
    exact helem

/-- The layout of a property satisfies what is asked of answers. -/
theorem propertyLayout? {st : Store} (hst : I st) {receiver : Layout} (name : String) {l : Layout}
    (hl : propertyLayout? st.registry receiver name = some l) : Q l := by
  unfold View.propertyLayout? at hl
  split at hl
  · cases hl
    exact h.scalar rfl
  · cases receiver <;> cases hl
    exact h.field hst _ name

/-- The layout of a method's result satisfies what is asked of answers. -/
theorem methodLayout? {receiver : Layout} (hreceiver : Q receiver) (method : String) {l : Layout}
    (hl : methodLayout? receiver method = some l) : Q l := by
  unfold View.methodLayout? at hl
  split at hl
  · unfold arrayMethodLayout? at hl
    split at hl <;> cases hl
    · exact h.elem hreceiver
    · exact h.elem hreceiver
    all_goals exact h.scalar rfl
  · unfold stringMethodLayout? at hl
    repeat' split at hl
    all_goals cases hl
    all_goals exact h.scalar rfl

/-- The layout of a sum satisfies what is asked of answers. -/
theorem sumLayout (left right : Layout) : Q (sumLayout left right) := by
  unfold View.sumLayout
  repeat' split
  · exact h.scalar rfl
  · exact h.scalar rfl
  · exact h.missing

/-- The layout of a name is that of its variable, and satisfies what is asked of answers. -/
theorem name (id : NodeId) (n : Node) : Keeps I Q (match v.variableOf? id with
      | some owner => pure owner.winner
      | none =>
        if n.kind = .identifier ∧ n.decl ≠ none then pure .missing else v.quietLayout id) := by
  cases howner : v.variableOf? id with
  | some owner =>
    obtain ⟨decl, -, hfind⟩ := Option.bind_eq_some_iff.mp howner
    exact .pure (h.winner (List.mem_of_find?_eq_some hfind))
  | none =>
    simp only
    split
    · exact .pure h.missing
    · exact h.quiet id

/-- The layout of a call is what its function returns, and satisfies what is asked of answers. -/
theorem routine (id : NodeId) (found : Option Routine) :
    (∀ r, found = some r → r ∈ v.routines) → Keeps I Q (match found with
      | some routine => pure routine.returned
      | none => v.quietLayout id) := by
  intro hfound
  cases found with
  | some r => exact .pure (h.returned (hfound r rfl))
  | none => exact h.quiet id

/-- The layout of a part satisfies what is asked of answers, if those of later nodes do. -/
theorem part (id : NodeId) (child : Option NodeId) (hcurrent : ∀ c, id < c → Keeps I Q (v.current c)) :
    Keeps I Q (match child with
      | none => pure .missing
      | some c => if _h : id < c then v.current c else pure .missing) := by
  cases child with
  | none => exact .pure h.missing
  | some c =>
    simp only
    split
    · next hlt => exact hcurrent c hlt
    · exact .pure h.missing

/-- Current layouts keep the invariant and have the property. -/
theorem current (id : NodeId) : Keeps I Q (v.current id) := by
  -- The induction is on the room above the number of the node.
  induction hroom : v.program.nodes.size + 1 - id using Nat.strong_induction_on
    generalizing id with | _ room ih
  have hscalar (kind : Scalar) (hkind : kind.isPlain = true) :
      Keeps I Q (pure (.scalar kind) : StateM Store Layout) := .pure (h.scalar hkind)
  rw [View.current]
  split
  · exact .pure h.missing
  · next n hn =>
    have hpart (child : Option NodeId) :=
      h.part id child fun c hlt => ih _ (hroom ▸ measure_part_lt hn hlt) c rfl
    simp only
    split
    · exact hscalar .string rfl
    · exact hscalar .string rfl
    · exact hscalar .integer rfl
    · exact hscalar .boolean rfl
    · next hkind => exact h.literal hn (by simp [Node.isCollection, hkind])
    · next hkind => exact h.literal hn (by simp [Node.isCollection, hkind])
    · exact h.name id n
    · exact h.name id n
    · exact h.name id n
    · exact h.routine id _ fun r hr => List.mem_of_find?_eq_some hr
    · exact (hpart n.target).bind fun receiver hreceiver => .read fun st hst =>
        h.decided id _ fun l hl => h.elementLayout? hst hreceiver _ hl
    · exact (hpart n.target).bind fun receiver hreceiver => .read fun st hst =>
        h.decided id _ fun l hl => h.propertyLayout? hst n.name hl
    · cases v.program.at? n.target with
      | none => exact .pure h.missing
      | some callee =>
        simp only
        split
        · exact (hpart callee.target).bind fun receiver hreceiver =>
            h.decided id _ fun l hl => h.methodLayout? hreceiver _ hl
        · refine h.routine id _ fun r hr => ?_
          obtain ⟨fn, -, hfn⟩ := Option.bind_eq_some_iff.mp hr
          exact List.mem_of_find?_eq_some hfn
    · split
      · exact hpart n.expr
      · exact h.quiet id
    · split
      · exact hscalar .integer rfl
      · exact hscalar .boolean rfl
      · refine (hpart n.target).bind fun left _ => (hpart n.expr).bind fun right _ => ?_
        split
        · exact h.quiet id
        · exact .pure (h.sumLayout left right)
      · exact h.quiet id
      · exact h.quiet id
    · exact h.quiet id

/-- The current layout of every node keeps the invariant and satisfies what is asked of answers. -/
theorem layoutOf (id : NodeId) : Keeps I Q (v.layoutOf id) := by
  refine (h.current id).bind fun l hl => .pure ?_
  split
  · exact h.missing
  · exact hl

end Answers

/-- Where nothing is said of the answers, the store alone matters. -/
theorem answers_true (hquiet : ∀ id, Keeps I (fun _ => True) (v.quietLayout id))
    (hliteral : ∀ id n, v.program.node? id = some n → n.isCollection = true →
      Keeps I (fun _ => True) (do
        match (← get).literals.lookup id with
        | some known => pure known
        | none => return (← v.determine "" id).getD .missing)) : v.Answers I fun _ => True where
  missing := trivial
  scalar _ := trivial
  winner _ := trivial
  returned _ := trivial
  elem _ := trivial
  field _ _ _ := trivial
  quiet := hquiet
  literal {id n} hn hcollection := hliteral id n hn hcollection

end View

/-- What upholds an invariant answers questions under it. -/
theorem Subject.Upholds.answers {v : View} {T : Apparent → Prop} {N : List String → Prop}
    {I : Store → Prop} {S F : Layout → Prop} (h : v.Upholds T N I S F) :
    v.Answers I fun _ => True :=
  View.answers_true (fun id => (h.quietLayout id).imp fun _ _ => trivial)
    fun id _ _ _ => (h.lookedUp id).imp fun _ _ => trivial

end LayoutInference
