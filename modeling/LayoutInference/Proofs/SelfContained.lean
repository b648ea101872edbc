import Mathlib
import LayoutInference.Proofs.ApparentCache
import LayoutInference.Proofs.Derivation
import LayoutInference.Proofs.Preorder

/-!
# Self-contained expressions

An expression is self-contained if it is built from literals, accesses, calls and operators alone, with
no names, functions or assignments in it (`Program.SelfContained`). No reference leads out of it, so its
apparent type follows by the rules from those of its parts: `Subject.Ruled.apparent_eq`. Where it is an
object type, its members are read from self-contained expressions too, and have their types:
`Subject.Ruled.grounded`.
-/

namespace LayoutInference

/-- The kinds of nodes that make up self-contained expressions. -/
def Kind.selfContained : Kind → Bool
  | .number | .string | .boolean | .null | .template | .arrayLiteral | .objectLiteral | .property
  | .propertyAccess | .elementAccess | .call | .unary | .binary | .conditional => true
  | _ => false

/-- All nodes of the expression are of these kinds. -/
inductive Program.SelfContained (p : Program) : NodeId → Prop where
  | mk {id : NodeId} {n : Node} (hn : p.node? id = some n) (hkind : n.kind.selfContained = true)
    (hchildren : ∀ c ∈ n.children, SelfContained p c) : SelfContained p id

namespace Node

variable {n : Node} {c : NodeId}

/-- The expression of a node is one of its children. -/
theorem expr_mem_children (h : n.expr = some c) : c ∈ n.children := by
  unfold children
  split <;> simp [h]

/-- The items of a node are among its children. -/
theorem item_mem_children (h : c ∈ n.items) : c ∈ n.children := by
  unfold children
  split <;> simp [h]

/-- The target of an access, a call or an operation is one of its children. -/
theorem target_mem_children (h : n.target = some c)
    (hkind : n.kind = .propertyAccess ∨ n.kind = .elementAccess ∨ n.kind = .call ∨ n.kind = .binary) :
    c ∈ n.children := by
  rcases hkind with hkind | hkind | hkind | hkind <;> simp [children, hkind, h]

end Node

namespace Program

variable {p : Program} {id c : NodeId} {n : Node}

/-- Nodes come before their children. -/
def Ascending (p : Program) : Prop := ∀ id, ∀ c ∈ p.children id, id < c

/-- The program of a script is numbered so. -/
theorem ofScript_ascending {source : Source} {script : Script}
    (h : ofScript source script = .ok p) : p.Ascending := by
  obtain ⟨rfl, -⟩ := ofScript_eq_ok_iff.mp h
  intro id c hc
  obtain ⟨x, z, above, -, hz, rfl, rfl⟩ := exists_path_of_mem_children hc
  exact Occurrence.id_lt_of_mem_parts hz

namespace SelfContained

variable (h : p.SelfContained id) (hn : p.node? id = some n)

include h

/-- A self-contained expression is a node. -/
theorem node : ∃ n, p.node? id = some n := by
  cases h with
  | mk hn _ _ => exact ⟨_, hn⟩

include hn

/-- A self-contained expression is of one of the kinds. -/
theorem kind : n.kind.selfContained = true := by
  cases h with
  | mk hn' hkind _ =>
    rw [hn'] at hn
    exact Option.some.inj hn ▸ hkind

/-- The children of a self-contained expression are self-contained. -/
theorem child (hc : c ∈ n.children) : p.SelfContained c := by
  cases h with
  | mk hn' _ hchildren =>
    rw [hn'] at hn
    exact hchildren c (Option.some.inj hn ▸ hc)

end SelfContained

/-- Whether the nodes of an expression of limited depth are all of these kinds. -/
def isSelfContained (p : Program) : Nat → NodeId → Bool
  | 0, _ => false
  | depth + 1, id =>
    match p.node? id with
    | none => false
    | some n => n.kind.selfContained && n.children.all (p.isSelfContained depth)

/-- An expression that is found self-contained to some depth is self-contained. -/
theorem SelfContained.of_isSelfContained {depth : Nat} (h : p.isSelfContained depth id = true) :
    p.SelfContained id := by
  induction depth generalizing id with
  | zero => cases h
  | succ depth ih =>
    rw [isSelfContained] at h
    split at h
    · cases h
    · next n hn =>
      obtain ⟨hkind, hchildren⟩ := Bool.and_eq_true_iff.mp h
      exact .mk hn hkind fun c hc => ih (List.all_eq_true.mp hchildren c hc)

/-- A self-contained expression that comes after `id`, as those inside it do. -/
structure Inner (p : Program) (id c : NodeId) : Prop where
  selfContained : p.SelfContained c
  lt : id < c

/-- The children of a self-contained expression come after it and are self-contained. -/
theorem SelfContained.inner (hup : p.Ascending) (h : p.SelfContained id) (hn : p.node? id = some n)
    (hc : c ∈ n.children) : p.Inner id c :=
  ⟨h.child hn hc, hup id c (by rwa [children, hn])⟩

/-- Induction over self-contained expressions, those inside first. -/
theorem SelfContained.induction {motive : (id : NodeId) → p.SelfContained id → Prop}
    (step : ∀ id h, (∀ c (hc : p.Inner id c), motive c hc.selfContained) → motive id h)
    (h : p.SelfContained id) : motive id h := by
  -- What bounds the induction is the room above the number of the node.
  induction hroom : p.nodes.size + 1 - id using Nat.strong_induction_on
    generalizing id with | _ room ih
  obtain ⟨n, hn⟩ := h.node
  exact step id h fun c hc => ih _ (hroom ▸ View.measure_part_lt hn hc.lt) hc.selfContained rfl

/-- What stands inside a self-contained expression comes after it as well. -/
theorem Inner.inner (hup : p.Ascending) (h : p.Inner id c) (hn : p.node? c = some n) {d : NodeId}
    (hd : d ∈ n.children) : p.Inner id d :=
  ⟨h.selfContained.child hn hd, h.lt.trans (h.selfContained.inner hup hn hd).lt⟩

end Program

/-! ## Rules that look at parts only -/

section Rules

variable {m : Type → Type} [Monad m] {look look' : NodeId → m Apparent}

/-- A lookup of what may not be there depends on that node alone. -/
theorem lookOpt_congr {id : Option NodeId} (h : ∀ c, id = some c → look c = look' c) :
    lookOpt look id = lookOpt look' id := by
  cases id with
  | none => rfl
  | some c => exact h c rfl

/-- The common type with a first one depends on the listed nodes alone. -/
theorem agreeWith_congr (first : Apparent) {xs : List NodeId} (h : ∀ x ∈ xs, look x = look' x) :
    agreeWith look first xs = agreeWith look' first xs := by
  induction xs with
  | nil => rfl
  | cons x xs ih =>
    obtain ⟨hx, hxs⟩ := List.forall_mem_cons.mp h
    rw [agreeWith, agreeWith, hx, ih hxs]

/-- The common type of a list depends on the listed nodes alone. -/
theorem agreement_congr (default : Apparent) {xs : List NodeId} (h : ∀ x ∈ xs, look x = look' x) :
    agreement look default xs = agreement look' default xs := by
  cases xs with
  | nil => rfl
  | cons x xs =>
    obtain ⟨hx, hxs⟩ := List.forall_mem_cons.mp h
    rw [agreement, agreement, hx]
    exact bind_congr fun first => agreeWith_congr first hxs

/-- The type of an operation depends on its operands alone. -/
theorem operation_congr (operator : String) {left right : Option NodeId}
    (hleft : ∀ c, left = some c → look c = look' c)
    (hright : ∀ c, right = some c → look c = look' c) :
    operation look operator left right = operation look' operator left right := by
  unfold operation
  split
  · rw [lookOpt_congr hleft, lookOpt_congr hright]
  · rfl
  · rfl
  · refine agreement_congr _ fun x hx => ?_
    rcases List.mem_append.mp hx with hx | hx
    · exact hleft x (Option.mem_toList.mp hx)
    · exact hright x (Option.mem_toList.mp hx)
  · rfl

/-- The members of an object literal depend on the values of its properties alone. -/
theorem memberTypes_congr {p : Program} {ids : List NodeId}
    (h : ∀ id ∈ ids, ∀ property, p.node? id = some property →
      ∀ c, property.expr = some c → look c = look' c) :
    memberTypes p look ids = memberTypes p look' ids := by
  induction ids with
  | nil => rfl
  | cons id ids ih =>
    obtain ⟨hid, hids⟩ := List.forall_mem_cons.mp h
    rw [memberTypes, memberTypes]
    split
    · exact ih hids
    · next property hproperty =>
      rw [lookOpt_congr (hid property hproperty), ih hids]

end Rules

namespace Program

variable {p : Program} {id c : NodeId} {n : Node}

/-- What a self-contained call calls is no function of the program. -/
theorem SelfContained.functionOf_eq_none (h : p.SelfContained id) : p.functionOf id = none := by
  obtain ⟨n, hn⟩ := h.node
  have hkind := h.kind hn
  simp only [functionOf, hn, Option.bind_eq_bind, Option.bind_some]
  split
  · next hfunction => rw [hfunction] at hkind; cases hkind
  · next hidentifier => rw [hidentifier] at hkind; cases hkind
  · rfl

section Congruence

variable {m : Type → Type} [Monad m] {look look' : NodeId → m Apparent}
  (hp : p.Numbered) (hup : p.Ascending) (h : p.SelfContained id) (hn : p.node? id = some n)
  (hlook : ∀ c, p.Inner id c → look c = look' c)

include hp hup h hn hlook

/-- The type of a self-contained call depends on its parts alone. -/
theorem SelfContained.callType_congr (hkind : n.kind = .call) :
    callType p look n = callType p look' n := by
  unfold callType
  split
  · rfl
  · next callee hcallee =>
    obtain ⟨t, ht, htarget⟩ := Option.bind_eq_some_iff.mp hcallee
    have hinner := h.inner hup hn (Node.target_mem_children ht (by simp [hkind]))
    split
    · next hmethod =>
      split
      · rfl
      · next object hobject =>
        obtain ⟨u, hu, hnode⟩ := Option.bind_eq_some_iff.mp hobject
        have hu := hinner.inner hup htarget (Node.target_mem_children hu (.inl hmethod))
        rw [hp.id_eq hnode, hlook u hu]
    · rw [hp.id_eq htarget, hinner.selfContained.functionOf_eq_none]

/-- The type of a self-contained expression is made of those of self-contained parts. -/
theorem SelfContained.apparent_congr : n.apparent p look = n.apparent p look' := by
  have hchild {c : NodeId} (hc : c ∈ n.children) : look c = look' c := hlook c (h.inner hup hn hc)
  have htarget (hkind : n.kind = .propertyAccess ∨ n.kind = .elementAccess ∨ n.kind = .call
      ∨ n.kind = .binary) : ∀ c, n.target = some c → look c = look' c :=
    fun c hc => hchild (Node.target_mem_children hc hkind)
  have hitems : ∀ c ∈ n.items, look c = look' c := fun c hc => hchild (Node.item_mem_children hc)
  unfold Node.apparent
  cases hk : n.kind with
  | number | string | template | boolean | null | property | unary => rfl
  | arrayLiteral =>
    dsimp only
    rw [lookOpt_congr fun c hc => hitems c (List.mem_of_head? hc)]
  | objectLiteral =>
    dsimp only
    rw [memberTypes_congr fun item hitem property hproperty c hc => ?_]
    have hinner := h.inner hup hn (Node.item_mem_children hitem)
    exact hlook c (hinner.inner hup hproperty (Node.expr_mem_children hc))
  | propertyAccess | elementAccess =>
    dsimp only
    rw [lookOpt_congr (htarget (by simp [hk]))]
  | call => exact h.callType_congr hp hup hn hlook hk
  | binary =>
    exact operation_congr _ (htarget (by simp [hk])) fun c hc => hchild (Node.expr_mem_children hc)
  | conditional => exact agreement_congr _ hitems
  | _ => exact absurd (h.kind hn) (by rw [hk]; decide)

end Congruence

/-- What is being evaluated elsewhere does not matter for a self-contained expression. -/
theorem SelfContained.apparentOf_eq (hp : p.Numbered) (hup : p.Ascending) (h : p.SelfContained id)
    {fresh : List NodeId} (hfresh : ∀ c ∈ p.ids, id ≤ c → c ∈ fresh) :
    p.apparentOf fresh id = p.apparentOf p.ids id := by
  induction h using SelfContained.induction generalizing fresh with
  | step id h ih =>
    obtain ⟨n, hn⟩ := h.node
    have hid := mem_ids_of_node? hn
    rw [apparentOf_fresh hn (hfresh id hid (le_refl id)), apparentOf_fresh hn hid]
    refine congrArg Id.run (h.apparent_congr hp hup hn fun c hc => ?_)
    have herase {ids : List NodeId} (hids : ∀ other ∈ p.ids, id ≤ other → other ∈ ids) :
        ∀ other ∈ p.ids, c ≤ other → other ∈ ids.erase id := fun other hother hle =>
      (List.mem_erase_of_ne (hc.lt.trans_le hle).ne').mpr
        (hids other hother (hc.lt.le.trans hle))
    rw [ih c hc (herase hfresh), ih c hc (herase fun _ hother _ => hother)]

end Program

/-! ## Apparent types of self-contained expressions -/

/-- The apparent type of a node is the value of the walk without a cache. -/
theorem Subject.apparent_of (p : Program) (id : NodeId) :
    (Subject.of p).apparent id = p.apparentOf p.ids id := by
  show (if id = 0 then Apparent.any else p.apparentTable.getD (id - 1) .any) = _
  have houtside (hnone : p.node? id = none) : Apparent.any = p.apparentOf p.ids id :=
    (Program.apparentOf_outside hnone).symm
  split
  · next hzero => exact houtside (by rw [Program.node?, if_pos hzero])
  · next hne =>
    rw [Program.apparentTable, Program.askAll_eq, Array.getD_eq_getD_getElem?,
      List.getElem?_toArray, List.getElem?_map, Program.ids, List.getElem?_map]
    rcases Nat.lt_or_ge (id - 1) p.nodes.size with hlt | hge
    · rw [List.getElem?_range hlt]
      simp only [Option.map_some, Option.getD_some]
      rw [Nat.sub_add_cancel (Nat.pos_of_ne_zero hne)]
    · rw [List.getElem?_eq_none (by simpa using hge)]
      exact houtside (by rw [Program.node?, if_neg hne, Array.getElem?_eq_none hge])

/-- The apparent types, to be looked up by the rules. -/
def Subject.look (s : Subject) (id : NodeId) : Id Apparent := s.apparent id

/-- The apparent types of self-contained expressions follow by the rules from those of their parts. -/
structure Subject.Ruled (s : Subject) : Prop where
  numbered : s.program.Numbered
  ascending : s.program.Ascending
  apparent_eq {id : NodeId} {n : Node} (h : s.program.SelfContained id)
    (hn : s.program.node? id = some n) : s.apparent id = (n.apparent s.program s.look).run

/-- In the program of a script the types of self-contained expressions follow by the rules. -/
theorem Subject.ruled_of {source : Source} {script : Script} {p : Program}
    (hscript : Program.ofScript source script = .ok p) : (Subject.of p).Ruled where
  numbered := Program.ofScript_numbered hscript
  ascending := Program.ofScript_ascending hscript
  apparent_eq {id n} h hn := by
    have hp := Program.ofScript_numbered hscript
    have hup := Program.ofScript_ascending hscript
    change p.node? id = some n at hn
    change p.SelfContained id at h
    rw [Subject.apparent_of, Program.apparentOf_fresh hn (Program.mem_ids_of_node? hn)]
    refine congrArg Id.run (h.apparent_congr hp hup hn fun c ⟨hc, hlt⟩ => ?_)
    rw [Subject.look, Subject.apparent_of]
    refine hc.apparentOf_eq hp hup fun other hother hle => ?_
    exact (List.mem_erase_of_ne (hlt.trans_le hle).ne').mpr hother

/-! ## Types with their origin -/

/-- The type of a node that may be left out. -/
def Subject.typeAt (s : Subject) (id : Option NodeId) : Apparent := (id.map s.apparent).getD .any

/-- The properties that give an object literal its members. -/
def Program.members (p : Program) (properties : List NodeId) : List Node :=
  (properties.filterMap p.node?).filter (·.isMember)

namespace Apparent

/-- The type of a property of a value of type `t`. -/
def property (t : Apparent) (name : String) : Apparent :=
  match t with
  | .string | .array _ => if name = "length" then .number else .any
  | t => (t.member? name).getD .any

/-- The type of what a value of type `t` has under a key. -/
def elementAt (t : Apparent) (key : Option Node) : Apparent :=
  match t with
  | .object members =>
    match key with
    | some key =>
      if key.kind = .string then ((Apparent.object members).member? key.value).getD .any else .any
    | none => .any
  | t => t.element

/-- The type of what a method of a value of type `t` returns. -/
def method (t : Apparent) (name : String) : Apparent :=
  match t with
  | .string => stringMethod name
  | .array elem => arrayMethod elem name
  | _ => .any

/-- The type of the sum of values of types `t` and `t'`. -/
def sum (t t' : Apparent) : Apparent :=
  if t.isString || t'.isString then .string
  else if t.isNumber && t'.isNumber then .number
  else .any

end Apparent

/-- The type says where its members are read from: at self-contained expressions of their types. -/
inductive Subject.Grounded (s : Subject) : Apparent → Prop where
  | any : Grounded s .any
  | string : Grounded s .string
  | number : Grounded s .number
  | boolean : Grounded s .boolean
  | null : Grounded s .null
  | undefined : Grounded s .undefined
  | array {t : Apparent} (ht : Grounded s t) : Grounded s (.array t)
  | object {ms : List (Member Apparent)} (htypes : ∀ m ∈ ms, Grounded s m.type)
    (hnodes : ∀ m ∈ ms, ∀ c, m.node = some c → s.program.SelfContained c ∧ m.type = s.apparent c) :
    Grounded s (.object ms)

attribute [simp] Subject.Grounded.any Subject.Grounded.string Subject.Grounded.number
  Subject.Grounded.boolean Subject.Grounded.null Subject.Grounded.undefined Subject.Grounded.array

section Evaluated

variable {s : Subject}

/-- The type of what may not be there is looked up as such. -/
theorem lookOpt_eq (id : Option NodeId) :
    lookOpt s.look id = pure (s.typeAt id) := by
  cases id <;> rfl

/-- The common type of a list is that of its first or any. -/
theorem agreeWith_cases {α : Type} (look : α → Id Apparent) (first : Apparent) (xs : List α) :
    agreeWith look first xs = first ∨ agreeWith look first xs = Apparent.any := by
  induction xs with
  | nil => exact .inl rfl
  | cons x xs ih =>
    show (if Apparent.agrees (look x) first then agreeWith look first xs else Apparent.any) = _
      ∨ (if Apparent.agrees (look x) first then agreeWith look first xs else Apparent.any) = _
    split
    · exact ih
    · exact .inr rfl

/-- Types agree on the first of them or on nothing. -/
theorem agreement_cases {α : Type} (look : α → Id Apparent) (xs : List α) :
    agreement look .any xs = Apparent.any ∨ ∃ x ∈ xs, agreement look .any xs = look x := by
  cases xs with
  | nil => exact .inl rfl
  | cons x xs =>
    rcases agreeWith_cases look (look x) xs with hfirst | hany
    · exact .inr ⟨x, List.mem_cons_self, hfirst⟩
    · exact .inl hany

/-- The members of an object literal have the types of their values. -/
theorem memberTypes_eq (ids : List NodeId) :
    memberTypes s.program s.look ids
      = pure ((s.program.members ids).map fun q => ⟨q.name, s.typeAt q.expr, q.expr⟩) := by
  induction ids with
  | nil => rfl
  | cons id ids ih =>
    rw [memberTypes]
    cases hn : s.program.node? id with
    | none => simpa [Program.members, hn] using ih
    | some property =>
      by_cases hmember : property.isMember = true
      · simp only [hmember, if_true, ih, lookOpt_eq]
        simp [Program.members, hn, hmember]
      · simpa [Program.members, hn, hmember] using ih

namespace Subject.Grounded

variable {t : Apparent}

/-- The type of a looked-up member is grounded. -/
theorem member (h : s.Grounded t) (name : String) : s.Grounded ((t.member? name).getD .any) := by
  cases h with
  | object htypes _ =>
    rw [Apparent.member?]
    cases hfind : List.find? (fun m : Member Apparent => decide (m.name = name)) _ with
    | none => exact .any
    | some m => exact htypes m (List.mem_of_find?_eq_some hfind)
  | _ => exact .any

/-- The type of elements is grounded. -/
theorem element (h : s.Grounded t) : s.Grounded t.element := by
  cases h with
  | array ht => exact ht
  | string => exact .string
  | _ => exact .any

/-- The type of a property is grounded. -/
theorem property (h : s.Grounded t) (name : String) : s.Grounded (t.property name) := by
  unfold Apparent.property
  split
  · split <;> simp
  · split <;> simp
  · exact h.member name

/-- The type under a key is grounded. -/
theorem elementAt (h : s.Grounded t) (key : Option Node) : s.Grounded (t.elementAt key) := by
  unfold Apparent.elementAt
  repeat' split
  · exact h.member _
  · simp
  · simp
  · exact h.element

/-- The type of a method's result is grounded. -/
theorem method (h : s.Grounded t) (name : String) : s.Grounded (t.method name) := by
  unfold Apparent.method
  split
  · unfold Apparent.stringMethod
    split <;> simp
  · have helem := h.element
    rw [Apparent.element] at helem
    unfold Apparent.arrayMethod
    split <;> simp [helem]
  · exact .any

/-- The type of a sum has no members, so it is grounded. -/
theorem sum (t t' : Apparent) : s.Grounded (t.sum t') := by
  unfold Apparent.sum
  repeat' split
  all_goals simp

/-- The common type of grounded ones is grounded. -/
theorem agreement {ids : List NodeId} (h : ∀ c ∈ ids, s.Grounded (s.apparent c)) :
    s.Grounded (agreement s.look .any ids).run := by
  rcases agreement_cases s.look ids with hany | ⟨c, hc, heq⟩
  · rw [hany]
    exact .any
  · rw [heq]
    exact h c hc

end Subject.Grounded

namespace Subject.Ruled

variable (hs : s.Ruled) {id : NodeId} {n : Node} (h : s.program.SelfContained id)
  (hn : s.program.node? id = some n)

include hs h hn

/-- An array literal is an array of what its first element is. -/
theorem apparent_arrayLiteral (hkind : n.kind = .arrayLiteral) :
    s.apparent id = .array (s.typeAt n.items.head?) := by
  rw [hs.apparent_eq h hn]
  simp only [Node.apparent, hkind, lookOpt_eq]
  rfl

/-- An object literal has the members of its properties with the types of their values. -/
theorem apparent_objectLiteral (hkind : n.kind = .objectLiteral) : s.apparent id
    = .object ((s.program.members n.items).map fun q => ⟨q.name, s.typeAt q.expr, q.expr⟩) := by
  rw [hs.apparent_eq h hn]
  simp only [Node.apparent, hkind, memberTypes_eq]
  rfl

/-- An access has the type of that property of its receiver. -/
theorem apparent_propertyAccess (hkind : n.kind = .propertyAccess) :
    s.apparent id = (s.typeAt n.target).property n.name := by
  rw [hs.apparent_eq h hn]
  simp only [Node.apparent, hkind, lookOpt_eq]
  cases s.typeAt n.target <;> rfl

/-- An access by a key has the type that its receiver has under the key. -/
theorem apparent_elementAccess (hkind : n.kind = .elementAccess) :
    s.apparent id = (s.typeAt n.target).elementAt (s.program.at? n.expr) := by
  rw [hs.apparent_eq h hn]
  simp only [Node.apparent, hkind, lookOpt_eq]
  cases s.typeAt n.target with
  | object members =>
    cases s.program.at? n.expr with
    | none => rfl
    | some key =>
      by_cases hstring : key.kind = .string
      · simp only [Apparent.elementAt, hstring, if_true]
        rfl
      · simp only [Apparent.elementAt, hstring, if_false]
        rfl
  | _ => rfl

/-- A method call has the type that the method of its receiver returns, and every other call any type. -/
theorem apparent_call (hkind : n.kind = .call) : s.apparent id
    = match s.program.at? n.target with
      | none => .any
      | some callee =>
        if callee.kind = .propertyAccess then (s.typeAt callee.target).method callee.name
        else .any := by
  rw [hs.apparent_eq h hn]
  simp only [Node.apparent, hkind, callType]
  cases hcallee : s.program.at? n.target with
  | none => rfl
  | some callee =>
    obtain ⟨t, ht, htarget⟩ := Option.bind_eq_some_iff.mp hcallee
    have ht' := h.child hn (Node.target_mem_children ht (by simp [hkind]))
    by_cases hmethod : callee.kind = .propertyAccess
    · simp only [hmethod, if_true]
      cases hobject : callee.target with
      | none => rfl
      | some u =>
        have hu := ht'.child htarget (Node.target_mem_children hobject (.inl hmethod))
        obtain ⟨object, hnode⟩ := hu.node
        have hname : object.kind ≠ .identifier := fun hname =>
          absurd (hu.kind hnode) (by rw [hname]; decide)
        -- A receiver that is no name goes by its type alone.
        show (match s.program.node? u with
          | none => _
          | some object => _) = _
        rw [hnode]
        simp only [hname, false_and, if_false, hs.numbered.id_eq hnode]
        show (match s.apparent u with
          | .string => _
          | .array elem => _
          | _ => _) = (s.apparent u).method callee.name
        cases s.apparent u <;> rfl
    · have hname : callee.kind ≠ .identifier := fun hname =>
        absurd (ht'.kind htarget) (by rw [hname]; decide)
      simp only [hmethod, if_false, hs.numbered.id_eq htarget, ht'.functionOf_eq_none, hname,
        false_and]
      rfl

/-- An operator gives a sum, a number, a boolean or the common type of its operands. -/
theorem apparent_binary (hkind : n.kind = .binary) : s.apparent id
    = match operatorClass n.value with
      | .plus => (s.typeAt n.target).sum (s.typeAt n.expr)
      | .arithmetic => .number
      | .comparison => .boolean
      | .choice => (agreement s.look .any (n.target.toList ++ n.expr.toList)).run
      | .unknown => .any := by
  rw [hs.apparent_eq h hn]
  simp only [Node.apparent, hkind, operation, lookOpt_eq]
  cases operatorClass n.value with
  | plus =>
    simp only [pure_bind, Apparent.sum]
    repeat' split
    all_goals rfl
  | arithmetic | comparison | choice | unknown => rfl

/-- The type of an expression says where its members are read from, if those inside it do. -/
theorem grounded_step (hinner : ∀ c, s.program.Inner id c → s.Grounded (s.apparent c)) :
    s.Grounded (s.apparent id) := by
  have hchild {c : NodeId} (hc : c ∈ n.children) : s.Grounded (s.apparent c) :=
    hinner c (h.inner hs.ascending hn hc)
  have hpart {part : Option NodeId} (hpart : ∀ c, part = some c → s.program.Inner id c) :
      s.Grounded (s.typeAt part) := by
    cases part with
    | none => exact .any
    | some c => exact hinner c (hpart c rfl)
  have htarget (hkind : n.kind = .propertyAccess ∨ n.kind = .elementAccess ∨ n.kind = .call
      ∨ n.kind = .binary) : ∀ c, n.target = some c → s.program.Inner id c :=
    fun c hc => h.inner hs.ascending hn (Node.target_mem_children hc hkind)
  cases hk : n.kind with
  | number | string | template | boolean | null | property =>
    rw [hs.apparent_eq h hn]
    simp [Node.apparent, hk]
  | arrayLiteral =>
    rw [hs.apparent_arrayLiteral h hn hk]
    exact .array (hpart fun c hc =>
      h.inner hs.ascending hn (Node.item_mem_children (List.mem_of_head? hc)))
  | objectLiteral =>
    rw [hs.apparent_objectLiteral h hn hk]
    -- Members are read from the values of properties, which stand two levels below the literal.
    have hvalue (q : Node) (hq : q ∈ s.program.members n.items) (c : NodeId)
        (hc : q.expr = some c) : s.program.Inner id c := by
      obtain ⟨item, hitem, hnode⟩ := List.mem_filterMap.mp (List.mem_of_mem_filter hq)
      exact (h.inner hs.ascending hn (Node.item_mem_children hitem)).inner hs.ascending hnode
        (Node.expr_mem_children hc)
    refine .object (List.forall_mem_map.mpr fun q hq => hpart (hvalue q hq))
      (List.forall_mem_map.mpr fun q hq c hc => ?_)
    have hc : q.expr = some c := hc
    refine ⟨(hvalue q hq c hc).selfContained, ?_⟩
    rw [hc]
    rfl
  | propertyAccess =>
    rw [hs.apparent_propertyAccess h hn hk]
    exact (hpart (htarget (by simp [hk]))).property n.name
  | elementAccess =>
    rw [hs.apparent_elementAccess h hn hk]
    exact (hpart (htarget (by simp [hk]))).elementAt _
  | call =>
    rw [hs.apparent_call h hn hk]
    split
    · simp
    · next callee hcallee =>
      obtain ⟨t, ht, hnode⟩ := Option.bind_eq_some_iff.mp hcallee
      split
      · next hmethod =>
        -- The receiver of a method stands below the callee.
        have hreceiver : s.Grounded (s.typeAt callee.target) := hpart fun u hu =>
          (htarget (by simp [hk]) t ht).inner hs.ascending hnode
            (Node.target_mem_children hu (.inl hmethod))
        exact hreceiver.method callee.name
      · simp
  | unary =>
    rw [hs.apparent_eq h hn]
    simp only [Node.apparent, hk]
    split <;> simp
  | binary =>
    rw [hs.apparent_binary h hn hk]
    split
    · exact .sum _ _
    · simp
    · simp
    · refine .agreement fun c hc => ?_
      rcases List.mem_append.mp hc with hc | hc
      · exact hinner c (htarget (by simp [hk]) c (Option.mem_toList.mp hc))
      · exact hchild (Node.expr_mem_children (Option.mem_toList.mp hc))
    · simp
  | conditional =>
    rw [hs.apparent_eq h hn]
    simp only [Node.apparent, hk]
    exact .agreement fun c hc => hchild (Node.item_mem_children hc)
  | _ => exact absurd (h.kind hn) (by rw [hk]; decide)

omit hn in
/-- The type of a self-contained expression says where its members are read from. -/
theorem grounded : s.Grounded (s.apparent id) := by
  induction h using Program.SelfContained.induction with
  | step id h ih =>
    obtain ⟨n, hn⟩ := h.node
    exact hs.grounded_step h hn ih

end Subject.Ruled

end Evaluated

end LayoutInference
