import Mathlib
import LayoutInference.Proofs.Scoping

/-!
# Declarations and references

A node belongs to the declaration that its name stands for, and that declaration belongs to itself
(`Program.declaration_declaration`): following names once is following them to the end. So the
declarations divide the identifiers of a program among themselves, and the lists that a program keeps
show this from both sides: `Program.ofScript_linked`.
-/

namespace LayoutInference

/-- A variable, a parameter or a function. -/
def Node.Declaring (n : Node) : Prop :=
  n.kind = .variable ∨ n.kind = .parameter ∨ n.kind = .function

namespace Program

/-- How the declarations of a program and its identifiers hang together. -/
structure Linked (p : Program) : Prop where
  /-- What a node belongs to declares the name of the node, and belongs to itself. -/
  belongs : ∀ n ∈ p.nodes.toList, ∀ d, p.declaration n.id = some d →
    ∃ m, p.node? d = some m ∧ m.Declaring ∧ m.name = n.name ∧ p.declaration d = some d
  /-- Whatever declares a name belongs to something. -/
  declaring : ∀ n ∈ p.nodes.toList, n.Declaring → (p.declaration n.id).isSome
  /-- Belonging is settled after one step. -/
  idempotent : ∀ id, (p.declaration id).bind p.declaration = p.declaration id
  /-- The references of a node are the identifiers that belong where the node does, in order. -/
  references : ∀ id, (p.references id).Pairwise (· < ·)
    ∧ ∀ r, r ∈ p.references id ↔ ∃ d n, p.declaration id = some d ∧ p.node? r = some n
      ∧ n.kind = .identifier ∧ p.declaration r = some d
  /-- An identifier is among the references of exactly what it belongs to. -/
  inverse : ∀ n ∈ p.nodes.toList, n.kind = .identifier → ∀ d,
    p.declaration n.id = some d ↔ p.declaration d = some d ∧ n.id ∈ p.references d
  /-- The declarations are the variables and parameters that belong to themselves, in order. -/
  declarations : p.declarations.Pairwise (· < ·)
    ∧ ∀ d, d ∈ p.declarations ↔ ∃ m, p.node? d = some m ∧ (m.kind = .variable ∨ m.kind = .parameter)
      ∧ m.unsupported = false ∧ p.declaration d = some d
  /-- An identifier belongs to one of them or to a function. -/
  resolved : ∀ n ∈ p.nodes.toList, n.kind = .identifier → ∀ d, p.declaration n.id = some d →
    d ∈ p.declarations ∨ ∃ fn, p.node? d = some fn ∧ fn.kind = .function

/-! ## What a node belongs to -/

/-- A node that binds in a scope is of a declaring kind. -/
theorem Binds.declaring {p : Program} {d : Node} {scope : NodeId} (h : p.Binds d scope) :
    d.Declaring := by
  cases h with
  | hoisted h =>
    rcases h with h | h
    · exact .inl h.1
    · exact .inr (.inr h.1)
  | lexical h => exact .inl h.1
  | parameter h => exact .inr (.inl h)
  | ownName h => exact .inr (.inr h.1)

/-- A name resolves to the first declaration of it in some scope. -/
theorem Resolves.firstDeclared {p : Program} {name : String} {chain : List NodeId} {id : NodeId}
    (h : p.Resolves name chain (some id)) : ∃ scope d, p.FirstDeclared scope name d ∧ d.id = id := by
  generalize hfound : some id = found at h
  induction h with
  | nowhere => cases hfound
  | @here scope _ d hfirst => exact ⟨scope, d, hfirst, (Option.some.inj hfound).symm⟩
  | outside _ _ ih => exact ih hfound

section Script

variable {source : Source} {script : Script} {p : Program}

/-- The declaration of an id is the one linked to its node. -/
theorem declaration_eq (h : ofScript source script = .ok p) {n : Node} (hn : n ∈ p.nodes.toList) :
    p.declaration n.id = n.decl := by
  rw [declaration, (ofScript_numbered h).node?_of_mem hn, Option.bind_some]

/-- The first declaration of a name in a scope belongs to itself. -/
theorem FirstDeclared.declaration_self (h : ofScript source script = .ok p) {scope : NodeId}
    {name : String} {d : Node} (hd : p.FirstDeclared scope name d) :
    p.declaration d.id = some d.id := by
  obtain ⟨hmem, rfl, hname, hbinds⟩ := hd.1
  have hdeclared : d.declaredIn = some scope := (declaredIn_iff h hmem).mpr ⟨hname, hbinds⟩
  obtain ⟨hsome, hdecl⟩ := decl_of_declaredIn h hmem hdeclared
  obtain ⟨id, hid⟩ := Option.isSome_iff_exists.mp hsome
  obtain ⟨e, he, rfl⟩ := firstDeclared_of_bound h (hdecl.symm.trans hid)
  rw [declaration_eq h hmem, hid, he.unique hd]

/-- A node belongs to the first declaration of its name in some scope, or else declares something and
belongs to itself. -/
theorem declaration_cases (h : ofScript source script = .ok p) {n : Node} (hn : n ∈ p.nodes.toList)
    {d : NodeId} (hd : p.declaration n.id = some d) :
    (∃ scope m, p.FirstDeclared scope n.name m ∧ m.id = d) ∨ n.Declaring ∧ n.id = d := by
  by_cases hkind : n.kind = .identifier
  · exact .inl (hd ▸ resolves_declaration h hn hkind).firstDeclared
  rw [declaration_eq h hn] at hd
  by_cases hdeclaring : n.Declaring
  · cases hscope : n.declaredIn with
    | none =>
      rw [decl_of_declaredIn_eq_none h hn hdeclaring hscope] at hd
      exact .inr ⟨hdeclaring, Option.some.inj hd⟩
    | some scope =>
      rw [(decl_of_declaredIn h hn hscope).2] at hd
      obtain ⟨m, hm, rfl⟩ := firstDeclared_of_bound h hd
      exact .inl ⟨scope, m, hm, rfl⟩
  · simp only [Node.Declaring, not_or] at hdeclaring
    obtain ⟨rfl, -⟩ := ofScript_eq_ok_iff.mp h
    rw [decl_eq_none hn ⟨hkind, hdeclaring⟩] at hd
    cases hd

/-- What a node belongs to declares the name of the node, and belongs to itself. -/
theorem declaration_declaration (h : ofScript source script = .ok p) {n : Node}
    (hn : n ∈ p.nodes.toList) {d : NodeId} (hd : p.declaration n.id = some d) :
    ∃ m, p.node? d = some m ∧ m.Declaring ∧ m.name = n.name ∧ p.declaration d = some d := by
  rcases declaration_cases h hn hd with ⟨scope, m, hm, rfl⟩ | ⟨hdeclaring, rfl⟩
  · exact ⟨m, (ofScript_numbered h).node?_of_mem hm.1.mem, hm.1.binds.declaring, hm.1.named,
      hm.declaration_self h⟩
  · exact ⟨n, (ofScript_numbered h).node?_of_mem hn, hdeclaring, rfl, hd⟩

/-! ## The lists -/

/-- The references of what belongs to `d` are the identifiers that belong to `d`. -/
theorem references_eq (h : ofScript source script = .ok p) {id d : NodeId}
    (hd : p.declaration id = some d) : p.references id
      = (p.nodes.toList.filter fun n => n.kind = .identifier ∧ n.decl = some d).map (·.id) := by
  rw [references, hd]
  dsimp only
  rw [referred_eq h]
  induction p.nodes.toList with
  | nil => rfl
  | cons n ns ih =>
    by_cases hkind : n.kind = .identifier
    · cases hdecl : n.decl with
      | none => simpa [hkind, hdecl] using ih
      | some e => by_cases he : e = d <;> simpa [hkind, hdecl, he] using ih
    · simpa [hkind] using ih

/-- The references of a node are the identifiers that belong where the node does. -/
theorem mem_references (h : ofScript source script = .ok p) {id r : NodeId} :
    r ∈ p.references id ↔ ∃ d n, p.declaration id = some d ∧ p.node? r = some n
      ∧ n.kind = .identifier ∧ p.declaration r = some d := by
  cases hd : p.declaration id with
  | none => simp [references, hd]
  | some d =>
    rw [references_eq h hd, (ofScript_numbered h).mem_filter]
    constructor
    · rintro ⟨n, hnode, hn⟩
      obtain ⟨hkind, hdecl⟩ := of_decide_eq_true hn
      exact ⟨d, n, rfl, hnode, hkind, by rw [declaration, hnode, Option.bind_some, hdecl]⟩
    · rintro ⟨_, n, hd, hnode, hkind, hdecl⟩
      rw [declaration, hnode, Option.bind_some, ← hd] at hdecl
      exact ⟨n, hnode, decide_eq_true ⟨hkind, hdecl⟩⟩

/-- The declarations are the supported variables and parameters that are their own declaration. -/
theorem mem_declarations_iff (h : ofScript source script = .ok p) {d : NodeId} :
    d ∈ p.declarations ↔ ∃ m, p.node? d = some m ∧ (m.kind = .variable ∨ m.kind = .parameter)
      ∧ m.unsupported = false ∧ p.declaration d = some d := by
  have hp := ofScript_numbered h
  rw [declarations, hp.mem_filter]
  refine exists_congr fun m => and_congr_right fun hnode => ?_
  rw [declaration, hnode, Option.bind_some, decide_eq_true_iff, hp.id_eq hnode, Bool.not_eq_true']

/-- The references to a declaration stand in ascending order. -/
theorem pairwise_references (h : ofScript source script = .ok p) (id : NodeId) :
    (p.references id).Pairwise (· < ·) := by
  cases hd : p.declaration id with
  | none => simp [references, hd]
  | some d =>
    rw [references_eq h hd]
    exact List.pairwise_map.mpr ((ofScript_numbered h).pairwise_filter _)

/-- A declaration that is named is a variable or a parameter that the analysis looks at, or a function. -/
theorem FirstDeclared.mem_declarations (h : ofScript source script = .ok p) {scope : NodeId}
    {name : String} {d : Node} (hd : p.FirstDeclared scope name d) :
    d.id ∈ p.declarations ∨ d.kind = .function := by
  obtain ⟨hmem, rfl, hname, hbinds⟩ := hd.1
  have hlisted (hkind : d.kind = .variable ∨ d.kind = .parameter) : d.id ∈ p.declarations :=
    (mem_declarations_iff h).mpr ⟨d, (ofScript_numbered h).node?_of_mem hmem, hkind,
      supported_of_named h hmem hkind hname, hd.declaration_self h⟩
  rcases hbinds.declaring with hkind | hkind | hkind
  · exact .inl (hlisted (.inl hkind))
  · exact .inl (hlisted (.inr hkind))
  · exact .inr hkind

end Script

/-- **Declarations and references are inverse to each other.** In the program of a script, what a node
belongs to belongs to itself; the references of a node are the identifiers that belong where it does, and
the declarations are the supported variables and parameters that belong to themselves, each list in
ascending order and without repetition; and every identifier that is resolved belongs to one of the
declarations or to a function. -/
theorem ofScript_linked {source : Source} {script : Script} {p : Program}
    (h : ofScript source script = .ok p) : p.Linked := by
  have hp := ofScript_numbered h
  constructor
  case belongs => exact fun n hn d hd => declaration_declaration h hn hd
  case declaring =>
    intro n hn hkind
    rw [declaration_eq h hn]
    cases hscope : n.declaredIn with
    | none => rw [decl_of_declaredIn_eq_none h hn hkind hscope, Option.isSome_some]
    | some scope => exact (decl_of_declaredIn h hn hscope).1
  case idempotent =>
    intro id
    cases hd : p.declaration id with
    | none => rfl
    | some d =>
      obtain ⟨n, hnode, -⟩ := Option.bind_eq_some_iff.mp hd
      rw [← hp.id_eq hnode] at hd
      obtain ⟨-, -, -, -, hself⟩ := declaration_declaration h (mem_nodes hnode) hd
      exact hself
  case references => exact fun id => ⟨pairwise_references h id, fun r => mem_references h⟩
  case inverse =>
    intro n hn hkind d
    rw [mem_references h]
    constructor
    · intro hd
      -- What an identifier belongs to belongs to itself, so it can be asked for as a declaration.
      obtain ⟨-, -, -, -, hself⟩ := declaration_declaration h hn hd
      exact ⟨hself, d, n, hself, hp.node?_of_mem hn, hkind, hd⟩
    · rintro ⟨hself, e, -, he, -, -, hdecl⟩
      rw [hdecl, ← he, hself]
  case declarations =>
    exact ⟨List.pairwise_map.mpr (hp.pairwise_filter _), fun d => mem_declarations_iff h⟩
  case resolved =>
    intro n hn hkind d hd
    obtain ⟨scope, m, hm, rfl⟩ := (hd ▸ resolves_declaration h hn hkind).firstDeclared
    refine (hm.mem_declarations h).imp_right fun hfunction => ?_
    exact ⟨m, hp.node?_of_mem hm.1.mem, hfunction⟩

/-- `var a; var a; a = b; function h() { h; } let g = function f(f, [x]) { f; };` -/
def sharedNames : Script :=
  ⟨[.var ⟨0, 0⟩ [.mk (.name ⟨0, 0⟩ "a") none], .var ⟨0, 0⟩ [.mk (.name ⟨0, 0⟩ "a") none],
    Script.assigns (Script.nameOf "a") (Script.nameOf "b"),
    .function ⟨0, 0⟩ "h" [] none (.mk ⟨0, 0⟩ [.expression ⟨0, 0⟩ (Script.nameOf "h")]),
    Script.declares "g" (.function ⟨0, 0⟩ "f"
      [.mk (.name ⟨0, 0⟩ "f") none, .mk (.pattern ⟨0, 0⟩) none] none
      (.mk ⟨0, 0⟩ [.expression ⟨0, 0⟩ (Script.nameOf "f")]))]⟩

/-- The second `var` belongs to the first, and the inner function to the parameter that takes its name;
`b` belongs to nothing, and the pattern belongs to itself without being listed. -/
theorem ofScript_linked_sharedNames :
    ofScript ⟨"main.js", []⟩ sharedNames = .ok sharedNames.program
      ∧ sharedNames.program.Linked
      ∧ sharedNames.program.declarations = [3, 15, 17]
      ∧ [5, 9, 13, 16, 18, 21].map sharedNames.program.declaration
        = [some 3, none, some 10, some 17, some 18, some 17]
      ∧ [5, 10, 16, 18].map sharedNames.program.references = [[8], [13], [21], []] := by
  have hscript := Script.ofScript_eq_ok sharedNames (by decide +kernel)
  exact ⟨hscript, ofScript_linked hscript, by decide +kernel, by decide +kernel, by decide +kernel⟩

end Program

end LayoutInference
