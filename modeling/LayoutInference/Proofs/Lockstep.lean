import Mathlib
import LayoutInference.Proofs.Derivation
import LayoutInference.Proofs.Nameless

/-!
# Runs with and without names

A run over a program and one over the same program without the names of declarations go in lockstep:
they make the same records and containers in the same order and give the same answers. Only hints and
names of records differ, and the wording of notes.

`Lockstep S erase x y` says of two computations that they keep the relation `S` between their states, and
that the answer of `y` is that of `x` with its names erased. `Lockstep.bind` composes such computations;
this module goes through the operations on registries, the derivation of layouts and the current layouts
of expressions. Hints are free on both sides: nothing depends on them.
-/

namespace LayoutInference

/-- Started in related states, the computations end in related states, and the answer of `y` is that of
`x` with its names erased. -/
def Lockstep {σ α : Type} (S : σ → σ → Prop) (erase : α → α) (x y : StateM σ α) : Prop :=
  ∀ s t, S s t → (y t).1 = erase (x s).1 ∧ S (x s).2 (y t).2

namespace Lockstep

variable {σ α β : Type} {S : σ → σ → Prop} {e : α → α} {d : β → β}

/-- Answers that differ in names alone are in lockstep. -/
theorem pure {a b : α} (h : b = e a) : Lockstep S e (Pure.pure a) (Pure.pure b) :=
  fun _ _ hst => ⟨h, hst⟩

/-- Computations in lockstep may be put one after the other, the second one taking the answer without its
names. -/
theorem bindErased {x y : StateM σ α} {f g : α → StateM σ β} (h : Lockstep S e x y)
    (hfg : ∀ a, Lockstep S d (f a) (g (e a))) : Lockstep S d (x >>= f) (y >>= g) := by
  intro s t hst
  obtain ⟨hanswer, hstates⟩ := h s t hst
  rw [bind_apply, bind_apply, hanswer]
  exact hfg (x s).1 (x s).2 (y t).2 hstates

/-- One computation after the other, where the answers of the first have no names. -/
theorem bind {x y : StateM σ α} {f g : α → StateM σ β} (h : Lockstep S id x y)
    (hfg : ∀ a, Lockstep S d (f a) (g a)) : Lockstep S d (x >>= f) (y >>= g) :=
  h.bindErased hfg

/-- A computation whose answer is worked on. -/
theorem map {x y : StateM σ α} {f g : α → β} (h : Lockstep S e x y) (hfg : ∀ a, g (e a) = d (f a)) :
    Lockstep S d (fun s => (f (x s).1, (x s).2)) (fun t => (g (y t).1, (y t).2)) := by
  intro s t hst
  obtain ⟨hanswer, hstates⟩ := h s t hst
  exact ⟨(congrArg g hanswer).trans (hfg (x s).1), hstates⟩

/-- Computations that look at the states they start in. -/
theorem read {f g : σ → StateM σ β} (h : ∀ s t, S s t → Lockstep S d (f s) (g t)) :
    Lockstep S d (get >>= f) (get >>= g) :=
  fun s t hst => h s t hst s t hst

/-- Updates that keep states related are in lockstep. -/
theorem update {f g : σ → σ} (h : ∀ s t, S s t → S (f s) (g t)) :
    Lockstep S id (modify f) (modify g) :=
  fun s t hst => ⟨rfl, h s t hst⟩

end Lockstep

/-! ## Registries -/

/-- The record without its hint and its name. -/
def Record.nameless (r : Record) : Record := { r with hint := "", name := "" }

namespace Registry

/-- The registries differ in hints and names alone. -/
structure Alike (r t : Registry) : Prop where
  records : r.records.map Record.nameless = t.records.map Record.nameless
  bodies : r.bodies = t.bodies
  containers : r.containers = t.containers
  clash : r.clash = t.clash

namespace Alike

variable {r t : Registry} (h : r.Alike t)

include h

/-- Alike registries have as many records. -/
theorem length : r.records.length = t.records.length := by
  simpa using congrArg List.length h.records

/-- Records under one number are the same without their names. -/
theorem record? (id : RecordId) :
    (r.record? id).map Record.nameless = (t.record? id).map Record.nameless := by
  have hrecord (r : Registry) : (r.record? id).map Record.nameless
      = (r.records.map Record.nameless).find? (·.id = id) := by
    rw [Registry.record?, List.find?_map]
    rfl
  rw [hrecord, hrecord, h.records]

/-- Records under one number have the same fields. -/
theorem fields (id : RecordId) : r.fields id = t.fields id := by
  have hfields (r : Registry) : r.fields id
      = (((r.record? id).map Record.nameless).map (·.fields)).getD [] := by
    rw [Registry.fields, Option.map_map]
    rfl
  rw [hfields, hfields, h.record?]

/-- A field that is looked up has the same layout. -/
theorem field (id : RecordId) (name : String) :
    (r.record? id).bind (·.field? name) = (t.record? id).bind (·.field? name) := by
  rw [bind_field?_eq, bind_field?_eq, h.fields]

/-- Closing a record over itself keeps registries alike. -/
theorem closeSelf (id : RecordId) : (r.closeSelf id).Alike (t.closeSelf id) := by
  refine ⟨?_, h.bodies, h.containers, h.clash⟩
  -- Closing a record looks at its number and its fields.
  have hclose (r : Registry) : (r.closeSelf id).records.map Record.nameless
      = (({ r with records := r.records.map Record.nameless } : Registry).closeSelf id).records := by
    simp only [Registry.closeSelf, List.map_map]
    refine List.map_congr_left fun record _ => ?_
    by_cases hid : record.id = id <;> simp [Record.nameless, hid]
  rw [hclose, hclose, h.records]
  rfl

end Alike

/-- Registering fields gives the same number under whatever hints. -/
theorem register_lockstep (hint hint' : String) (fields : List Field) :
    Lockstep Alike id (fun r => r.register hint fields) (fun t => t.register hint' fields) := by
  intro r t h
  dsimp only [register]
  rw [← h.bodies, ← h.length]
  cases r.bodies.lookup (bodyKey fields) with
  | some id => exact ⟨rfl, h⟩
  | none =>
    refine ⟨rfl, ?_⟩
    constructor <;> simp [h.records, h.bodies, h.containers, h.clash, Record.nameless]

/-- Extending a record gives the same number under whatever hints. -/
theorem extend_lockstep (base : RecordId) (hint hint' : String) (added : List Field)
    (self : List String) : Lockstep Alike id (fun r => r.extend base hint added self)
      (fun t => t.extend base hint' added self) := by
  intro r t h
  dsimp only [extend]
  rw [← h.fields]
  split
  · exact ⟨rfl, h⟩
  · obtain ⟨hanswer, hstates⟩ := register_lockstep (if hint = "" then r.hint base else hint)
      (if hint' = "" then t.hint base else hint')
      ((added ++ self.map (Field.mk · (.record 0))).foldl overlay (r.fields base)) r t h
    refine ⟨hanswer, ?_⟩
    dsimp only at hanswer ⊢
    rw [hanswer]
    exact hstates.closeSelf _

/-- Interning a layout gives the same answer. -/
theorem intern_lockstep (l : Layout) : Lockstep Alike id (fun r => r.intern l) (fun t => t.intern l) := by
  intro r t h
  dsimp only [intern]
  rw [← h.containers]
  cases r.containers.lookup l.key with
  | none =>
    refine ⟨rfl, ?_⟩
    constructor <;> simp [h.records, h.bodies, h.clash]
  | some kept =>
    dsimp only
    split
    · exact ⟨rfl, h⟩
    · refine ⟨rfl, ?_⟩
      constructor <;> simp [h.records, h.bodies, h.containers, h.clash]

end Registry

/-! ## Stores -/

/-- What a note says leaving its wording aside. -/
def Diagnostic.gist (d : Diagnostic) : Severity × Option NodeId := (d.severity, d.node)

namespace Store

/-- The stores differ in hints, names and the wording of notes alone; the notes of the first stand where
the program `p` has their nodes. -/
structure Alike (p : Program) (s t : Store) : Prop where
  registry : s.registry.Alike t.registry
  literals : s.literals = t.literals
  notes : s.diagnostics.map Diagnostic.gist = t.diagnostics.map Diagnostic.gist
  places : ∀ d ∈ s.diagnostics, d.position = (d.node.map p.position).getD {}

/-- The computations give the same answer. -/
abbrev InStep {α : Type} (p : Program) (x y : StateM Store α) : Prop := Lockstep (Alike p) id x y

variable {p : Program}

/-- Operations on the registry that are in lockstep are so in the store. -/
theorem withRegistry_lockstep {α : Type} {e : α → α} {op op' : Registry → α × Registry}
    (h : Lockstep Registry.Alike e op op') :
    Lockstep (Alike p) e (withRegistry op) (withRegistry op') := by
  intro s t hst
  obtain ⟨hanswer, hregistry⟩ := h s.registry t.registry hst.registry
  exact ⟨hanswer, hregistry, hst.literals, hst.notes, hst.places⟩

/-- Making a record gives the same layout under whatever hints. -/
theorem record_lockstep (hint hint' : String) (fields : List Field) :
    InStep p (record hint fields) (record hint' fields) :=
  (withRegistry_lockstep (Registry.register_lockstep hint hint' fields)).bind fun _ => .pure rfl

/-- Keeping the layout of a literal is in lockstep. -/
theorem keep_lockstep (literal : NodeId) (l : Layout) :
    InStep p (keep literal l) (keep literal l) :=
  .update fun _ _ hst => ⟨hst.registry, congrArg ((literal, l) :: ·) hst.literals, hst.notes, hst.places⟩

/-- Notes of one severity are in lockstep, whatever they say. -/
theorem note_lockstep (q : Program) {notice notice' : Notice} (h : notice'.severity = notice.severity)
    (node : Option NodeId) : InStep p (note p notice node) (note q notice' node) := by
  refine .update fun s t hst => ⟨hst.registry, hst.literals, ?_, ?_⟩
  · simp [hst.notes, Diagnostic.gist, Diagnostic.severity, h]
  · intro d hd
    rcases List.mem_append.mp hd with hd | hd
    · exact hst.places d hd
    · obtain rfl := List.mem_singleton.mp hd
      rfl

end Store

/-! ## Derivation -/

open Store (InStep)

namespace Subject

variable {s : Subject}

@[simp] theorem program_nameless : s.nameless.program = s.program.nameless := rfl

@[simp] theorem apparent_nameless : s.nameless.apparent = s.apparent := rfl

/-- Which values are put off does not depend on names. -/
@[simp] theorem defers_nameless (id : NodeId) : s.nameless.defers id = s.defers id := by
  simp only [defers, program_nameless, Program.node?_nameless, apparent_nameless]
  cases s.program.node? id <;> rfl

/-- Two ways to derive literals that go in lockstep, under whatever hints. -/
def DerivesAlike (s : Subject) (literal literal' : String → Node → StateM Store Layout) : Prop :=
  ∀ hint hint' n, InStep s.program (literal hint n) (literal' hint' n.nameless)

section Literal

variable {literal literal' : String → Node → StateM Store Layout}

mutual

/-- A type is converted to the same layout with and without names. -/
theorem convert_lockstep (h : s.DerivesAlike literal literal') (hint hint' : String) : (a : Apparent) →
    InStep s.program (s.convert literal hint a) (s.nameless.convert literal' hint' a)
  | .string | .number | .boolean | .void | .any | .null | .undefined | .function | .object [] => by
    rw [convert, convert]
    exact .pure rfl
  | .object (m :: ms) => by
    rw [convert, convert]
    exact (convertMembers_lockstep h (m :: ms)).bind fun fields => Store.record_lockstep _ _ fields
  | .array elem => by
    rw [convert, convert]
    refine (convert_lockstep h "" "" elem).bind fun l => ?_
    split
    · exact .pure rfl
    · exact Store.withRegistry_lockstep (Registry.intern_lockstep _)

/-- Members are converted to the same fields with and without names. -/
theorem convertMembers_lockstep (h : s.DerivesAlike literal literal') : (ms : List (Member Apparent)) →
    InStep s.program (s.convertMembers literal ms) (s.nameless.convertMembers literal' ms)
  | [] => by
    rw [convertMembers, convertMembers]
    exact .pure rfl
  | ⟨name, type, node⟩ :: ms => by
    rw [convertMembers, convertMembers]
    have hrest (l : Layout) : InStep s.program
        (do return Field.mk name l :: (← s.convertMembers literal ms))
        (do return Field.mk name l :: (← s.nameless.convertMembers literal' ms)) :=
      (convertMembers_lockstep h ms).bind fun _ => .pure rfl
    simp only [program_nameless, Program.at?_nameless]
    cases s.program.at? node with
    | none => exact (convert_lockstep h name name type).bind hrest
    | some n =>
      simp only [Option.map_some, Node.nameless_isCollection, Node.nameless_items]
      split
      · split
        · exact hrest .pointer
        · exact (h name name n).bind hrest
      · exact (convert_lockstep h name name type).bind hrest

end

variable (h : s.DerivesAlike literal literal')

include h

/-- An expression has the same layout with and without names, if literals have. -/
theorem determineWith_lockstep (hint hint' : String) (value : NodeId) :
    InStep s.program (s.determineWith literal hint value)
      (s.nameless.determineWith literal' hint' value) := by
  simp only [determineWith, program_nameless, Program.node?_nameless, defers_nameless,
    apparent_nameless]
  cases s.program.node? value with
  | none => exact .pure rfl
  | some n =>
    simp only [Option.map_some, Node.nameless_isCollection]
    split
    · exact (h hint hint' n).bind fun _ => .pure rfl
    · split
      · exact .pure rfl
      · refine (convert_lockstep h hint hint' (s.apparent value)).bind fun l => ?_
        split
        · refine Lockstep.bind (Store.note_lockstep _ ?_ _) fun _ => .pure rfl
          rfl
        · exact .pure rfl

/-- A property value has the same layout with and without names, if literals have. -/
theorem propertyLayout_lockstep (name name' : String) (value : Option NodeId) :
    InStep s.program (s.propertyLayout literal name value)
      (s.nameless.propertyLayout literal' name' value) := by
  simp only [propertyLayout, program_nameless, Program.at?_nameless]
  cases s.program.at? value with
  | none => exact .pure rfl
  | some n =>
    simp only [Option.map_some, Node.nameless_kind, Node.nameless_isCollection, Node.nameless_items,
      Node.nameless_id]
    split
    · exact .pure rfl
    · exact (determineWith_lockstep h name name' n.id).bind fun _ => .pure rfl

/-- An object literal has the same fields with and without names, if the literals in it have. -/
theorem literalFields_lockstep (properties : List NodeId) :
    InStep s.program (s.literalFields literal properties)
      (s.nameless.literalFields literal' properties) := by
  induction properties with
  | nil => exact .pure rfl
  | cons id ids ih =>
    simp only [literalFields, program_nameless, Program.node?_nameless]
    cases s.program.node? id with
    | none => exact ih
    | some property =>
      simp only [Option.map_some, Node.nameless_isMember, Node.nameless_expr]
      split
      · next hmember =>
        rw [Node.name_of_isMember hmember]
        exact (propertyLayout_lockstep h _ _ property.expr).bind fun l => ih.bind fun _ => .pure rfl
      · exact ih

/-- An array literal has the same elements with and without names, if the literals in it have. -/
theorem literalElement_lockstep (items : List NodeId) :
    InStep s.program (s.literalElement literal items) (s.nameless.literalElement literal' items) := by
  simp only [literalElement, program_nameless, Program.at?_nameless]
  cases s.program.at? items.head? with
  | none => exact .pure rfl
  | some first =>
    simp only [Option.map_some, Node.nameless_kind, Node.nameless_id]
    split
    · exact .pure rfl
    · exact (determineWith_lockstep h "" "" first.id).bind fun _ => .pure rfl

/-- A literal has the same layout with and without names, if those in it have. -/
theorem literalLayout_lockstep (hint hint' : String) (n : Node) :
    InStep s.program (s.literalLayout literal hint n)
      (s.nameless.literalLayout literal' hint' n.nameless) := by
  simp only [literalLayout, Node.nameless_kind, Node.nameless_items]
  split
  · exact (literalFields_lockstep h n.items).bind fun fields => Store.record_lockstep _ _ fields
  · refine (literalElement_lockstep h n.items).bind fun elem => ?_
    exact Store.withRegistry_lockstep (Registry.intern_lockstep _)

end Literal

variable (s)

/-- Literals are derived in lockstep, whatever is under construction. -/
theorem deriveLiteral_lockstep (fresh : List NodeId) :
    s.DerivesAlike (s.deriveLiteral fresh) (s.nameless.deriveLiteral fresh) := by
  induction hlength : fresh.length using Nat.strong_induction_on generalizing fresh with | _ k ih
  intro hint hint' n
  rw [deriveLiteral, deriveLiteral]
  refine .read fun st st' hst => ?_
  rw [← hst.literals, Node.nameless_id]
  cases st.literals.lookup n.id with
  | some known => exact .pure rfl
  | none =>
    dsimp only
    split
    · next hmem =>
      have hlt : (fresh.erase n.id).length < k := by
        rw [List.length_erase_of_mem hmem, hlength]
        have := List.length_pos_of_mem hmem
        omega
      refine (literalLayout_lockstep (ih _ hlt _ rfl) hint hint' n).bind fun l => ?_
      exact (Store.keep_lockstep n.id l).bind fun _ => .pure rfl
    · exact .pure rfl

/-- Literals are derived in lockstep from outside. -/
theorem deriveAny_lockstep : s.DerivesAlike s.deriveAny s.nameless.deriveAny := by
  rw [deriveAny, deriveAny, program_nameless, Program.ids_nameless]
  exact s.deriveLiteral_lockstep s.program.ids

/-- Expressions are derived in lockstep from outside. -/
theorem determine_lockstep (hint hint' : String) (value : NodeId) :
    InStep s.program (s.determine hint value) (s.nameless.determine hint' value) :=
  determineWith_lockstep s.deriveAny_lockstep hint hint' value

/-- The layout that a type tells is the same with and without names. -/
theorem quietLayout_lockstep (value : NodeId) :
    InStep s.program (s.quietLayout value) (s.nameless.quietLayout value) :=
  convert_lockstep s.deriveAny_lockstep "" "" (s.apparent value)

end Subject

/-! ## Current layouts -/

/-- The variable without its name. -/
def Variable.nameless (v : Variable) : Variable := { v with name := "" }

/-- The function without its name. -/
def Routine.nameless (r : Routine) : Routine := { r with name := "" }

namespace Variable

variable (v : Variable)

@[simp] theorem nameless_dictionary : v.nameless.dictionary = v.dictionary := (rfl)
@[simp] theorem nameless_candidates : v.nameless.candidates = v.candidates := (rfl)
@[simp] theorem nameless_conflicts : v.nameless.conflicts = v.conflicts := (rfl)

end Variable

@[simp] theorem Routine.nameless_ret (r : Routine) : r.nameless.ret = r.ret := (rfl)

namespace View

/-- The evidence about the program without the names of declarations. -/
def nameless (v : View) : View where
  toSubject := v.toSubject.nameless
  vars := v.vars.map Variable.nameless
  routines := v.routines.map Routine.nameless

variable (v : View)

@[simp] theorem program_nameless : v.nameless.program = v.program.nameless := rfl

/-- A node refers to the same variable with and without names. -/
@[simp] theorem variableOf?_nameless (id : NodeId) :
    v.nameless.variableOf? id = (v.variableOf? id).map Variable.nameless := by
  rw [variableOf?, variableOf?, program_nameless, Program.declaration_nameless]
  cases v.program.declaration id with
  | none => rfl
  | some decl => exact List.find?_map ..

/-- A function is found under its node with and without names. -/
@[simp] theorem routine?_nameless (fn : NodeId) :
    v.nameless.routine? fn = (v.routine? fn).map Routine.nameless :=
  List.find?_map ..

/-- A function that may not be there is found under its node with and without names. -/
theorem bind_routine?_nameless (fn : Option NodeId) :
    fn.bind v.nameless.routine? = (fn.bind v.routine?).map Routine.nameless := by
  cases fn with
  | none => rfl
  | some fn => exact v.routine?_nameless fn

/-- An element has the same layout in alike registries. -/
theorem elementLayout?_alike {r t : Registry} (h : r.Alike t) (receiver : Layout) (key : Option Node) :
    elementLayout? t receiver (key.map Node.nameless) = elementLayout? r receiver key := by
  cases receiver with
  | record id =>
    simp only [elementLayout?, h.field]
    cases key <;> rfl
  | missing | scalar | fixed | dynamic | dict => rfl

/-- A property has the same layout in alike registries. -/
theorem propertyLayout?_alike {r t : Registry} (h : r.Alike t) (receiver : Layout) (name : String) :
    propertyLayout? t receiver name = propertyLayout? r receiver name := by
  cases receiver with
  | record id => simp only [propertyLayout?, h.field]
  | missing | scalar | fixed | dynamic | dict => rfl

/-- An answer that the registry may decide, and the apparent type otherwise. -/
theorem decided_lockstep (id : NodeId) (decide decide' : Registry → Option Layout)
    (h : ∀ r t, r.Alike t → decide' t = decide r) :
    InStep v.program
      (do match decide (← get).registry with
        | some l => pure l
        | none => v.quietLayout id)
      (do match decide' (← get).registry with
        | some l => pure l
        | none => v.nameless.quietLayout id) := by
  refine .read fun st st' hst => ?_
  rw [h _ _ hst.registry]
  cases decide st.registry with
  | some l => exact .pure rfl
  | none => exact v.toSubject.quietLayout_lockstep id

/-- The layout of a literal is found or derived in lockstep. -/
theorem literal_lockstep (id : NodeId) :
    InStep v.program
      (do match (← get).literals.lookup id with
        | some known => pure known
        | none => return (← v.determine "" id).getD .missing)
      (do match (← get).literals.lookup id with
        | some known => pure known
        | none => return (← v.nameless.determine "" id).getD .missing) := by
  refine .read fun st st' hst => ?_
  rw [hst.literals]
  cases st'.literals.lookup id with
  | some known => exact .pure rfl
  | none => exact (v.toSubject.determine_lockstep "" "" id).bind fun _ => .pure rfl

/-- A name has the winner of its variable, or its apparent type if it belongs to none. -/
theorem name_lockstep (id : NodeId) (c : Prop) [Decidable c] :
    InStep v.program
      (match v.variableOf? id with
        | some owner => pure owner.winner
        | none => if c then pure .missing else v.quietLayout id)
      (match (v.variableOf? id).map Variable.nameless with
        | some owner => pure owner.winner
        | none => if c then pure .missing else v.nameless.quietLayout id) := by
  cases v.variableOf? id with
  | some owner => exact .pure rfl
  | none =>
    dsimp only [Option.map_none]
    split
    · exact .pure rfl
    · exact v.toSubject.quietLayout_lockstep id

/-- What a function returns, or the apparent type if there is no evidence about it. -/
theorem returned_lockstep (id : NodeId) (found : Option Routine) :
    InStep v.program
      (match found with
        | some routine => pure routine.returned
        | none => v.quietLayout id)
      (match found.map Routine.nameless with
        | some routine => pure routine.returned
        | none => v.nameless.quietLayout id) := by
  cases found with
  | some routine => exact .pure rfl
  | none => exact v.toSubject.quietLayout_lockstep id

/-- A part of a node, as far as there is one. -/
theorem part_lockstep (id : NodeId) (child : Option NodeId)
    (hcurrent : ∀ c, id < c → InStep v.program (v.current c) (v.nameless.current c)) :
    InStep v.program
      (match child with
        | none => pure .missing
        | some c => if _h : id < c then v.current c else pure .missing)
      (match child with
        | none => pure .missing
        | some c => if _h : id < c then v.nameless.current c else pure .missing) := by
  cases child with
  | none => exact .pure rfl
  | some c =>
    dsimp only
    split
    · next hlt => exact hcurrent c hlt
    · exact .pure rfl

/-- The current layout of a node is the same with and without names. -/
theorem current_lockstep (id : NodeId) :
    InStep v.program (v.current id) (v.nameless.current id) := by
  -- The induction is on the room above the number of the node.
  induction hroom : v.program.nodes.size + 1 - id using Nat.strong_induction_on
    generalizing id with | _ room ih
  have hquiet : InStep v.program (v.quietLayout id) (v.nameless.quietLayout id) :=
    v.toSubject.quietLayout_lockstep id
  generalize hy : v.nameless.current id = y
  rw [current] at hy ⊢
  split
  · next hn =>
    split at hy
    · exact hy ▸ .pure rfl
    · next m hm => simp [hn] at hm
  · next n hn =>
    split at hy
    · next hm => simp [hn] at hm
    next m hm =>
    obtain rfl : n.nameless = m := by simpa [hn] using hm
    have hpart (child : Option NodeId) := v.part_lockstep id child fun c hlt =>
      ih _ (hroom ▸ measure_part_lt hn hlt) c rfl
    subst hy
    simp only [Node.nameless_kind, Node.nameless_decl, Node.nameless_target, Node.nameless_expr,
      Node.nameless_value, variableOf?_nameless, program_nameless, Program.at?_nameless]
    split
    · exact .pure rfl
    · exact .pure rfl
    · exact .pure rfl
    · exact .pure rfl
    · exact v.literal_lockstep id
    · exact v.literal_lockstep id
    · exact v.name_lockstep id _
    · exact v.name_lockstep id _
    · exact v.name_lockstep id _
    · rw [routine?_nameless]
      exact v.returned_lockstep id _
    · -- an element
      refine (hpart n.target).bind fun receiver => ?_
      exact v.decided_lockstep id (elementLayout? · receiver (v.program.at? n.expr))
        (elementLayout? · receiver ((v.program.at? n.expr).map Node.nameless))
        fun _ _ h => elementLayout?_alike h receiver _
    · -- a property
      next hkind =>
      rw [Node.name_of_propertyAccess hkind]
      refine (hpart n.target).bind fun receiver => ?_
      exact v.decided_lockstep id (propertyLayout? · receiver n.name)
        (propertyLayout? · receiver n.name) fun _ _ h => propertyLayout?_alike h receiver n.name
    · -- a call
      cases v.program.at? n.target with
      | none => exact .pure rfl
      | some callee =>
        simp only [Option.map_some, Node.nameless_kind, Node.nameless_target, Node.nameless_id,
          Program.functionOf_nameless]
        split
        · next hkind =>
          rw [Node.name_of_propertyAccess hkind]
          refine (hpart callee.target).bind fun receiver => ?_
          exact v.decided_lockstep id (fun _ => methodLayout? receiver callee.name)
            (fun _ => methodLayout? receiver callee.name) fun _ _ _ => rfl
        · rw [bind_routine?_nameless]
          exact v.returned_lockstep id _
    · -- an assignment
      split
      · exact hpart n.expr
      · exact hquiet
    · -- a binary expression
      split
      · exact .pure rfl
      · exact .pure rfl
      · refine (hpart n.target).bind fun left => (hpart n.expr).bind fun right => ?_
        split
        · exact hquiet
        · exact .pure rfl
      · exact hquiet
      · exact hquiet
    · exact hquiet

/-- The layout of a node is the same with and without names. -/
theorem layoutOf_lockstep (id : NodeId) :
    InStep v.program (v.layoutOf id) (v.nameless.layoutOf id) :=
  (v.current_lockstep id).bind fun _ => .pure rfl

end View

end LayoutInference
