import Mathlib
import LayoutInference.Proofs.LiteralGuard
import LayoutInference.Proofs.Questions

/-!
# Literals are derived once

The layouts of literals are kept in a table. A derivation that begins while the table has at most one
entry for each literal, and the entry shows the literal, leaves such a table (`Store.Derived`): what it
adds is about literals that were not under construction when it began, so an outer derivation finds no
entry for its own literal when it ends. An array literal has a fixed array of as many elements as it is
written with, since the containers made on the way have keys that tell their order (`Layout.Flush`).

The walk is a series of derivations between which nothing is under construction
(`Subject.collect_proceeds`). It derives every literal, so that passes and questions find all layouts
there and add none (`Subject.settles_literals`).
-/

namespace LayoutInference

/-! ## Layouts of literals -/

namespace Layout.Flush

variable {l : Layout} (h : l.Flush)

include h

/-- A fixed array of flush elements is flush. -/
theorem fixed (capacity : Int) : (Layout.fixed l capacity).Flush := h

/-- Whether a layout is flush can be read off its key. -/
theorem of_key_eq {u : Layout} (hkey : u.key = l.key) : u.Flush := by
  rw [Flush, ((key_eq_iff u l).mp hkey).2]
  exact h

end Layout.Flush

/-- Whether a layout is one for a literal: a record for an object, and for an array a fixed array of as
many elements. -/
def Node.Shows (n : Node) (l : Layout) : Prop :=
  if n.kind = .objectLiteral then ∃ id, l = .record id else ∃ elem, l = .fixed elem n.items.length

/-- A request for a fixed array is answered by one of the same length. -/
theorem Registry.Keyed.fixedArray {r : Registry} (h : r.Keyed) (elem : Layout) (capacity : Int) :
    ∃ elem', (r.fixedArray elem capacity).1 = .fixed elem' capacity := by
  have hkind := r.container?_intern (.fixed elem capacity)
  have hkey := (h.intern (.fixed elem capacity)).2
  show ∃ elem', (r.intern (.fixed elem capacity)).1 = .fixed elem' capacity
  generalize (r.intern (.fixed elem capacity)).1 = answer at hkind hkey ⊢
  cases answer with
  | fixed elem' capacity' =>
    have hsame : (Wrapper.around (.fixed capacity') elem').key
        = (Wrapper.around (.fixed capacity) elem).key := hkey
    obtain ⟨hwrapper, -⟩ := Layout.around_key_eq hsame hkind
    obtain rfl := Wrapper.fixed.inj hwrapper
    exact ⟨elem', rfl⟩
  | _ => cases hkind

/-! ## The table -/

/-- A table that has at most one layout for each literal, and one that shows it. -/
structure Program.Tabulates (p : Program) (table : List (NodeId × Layout)) : Prop where
  nodup : (table.map (·.1)).Nodup
  entries : ∀ e ∈ table, e.2.Flush ∧ ∃ n, p.node? e.1 = some n ∧ n.isCollection = true ∧ n.Shows e.2

section Tables

variable {table : List (NodeId × Layout)} {id : NodeId}

/-- What is found in a table is an entry of it. -/
theorem mem_of_lookup {l : Layout} (h : table.lookup id = some l) : (id, l) ∈ table := by
  obtain ⟨before, after, rfl, -⟩ := List.lookup_eq_some_iff.mp h
  simp

/-- What is not found in a table has no entry there. -/
theorem not_mem_keys_of_lookup (h : table.lookup id = none) : id ∉ table.map (·.1) := by
  intro hid
  obtain ⟨e, he, rfl⟩ := List.mem_map.mp hid
  have hne := List.lookup_eq_none_iff.mp h e he
  simp at hne

/-- The only entry of a literal is the one that is found. -/
theorem filter_of_lookup {l : Layout} (hnodup : (table.map (·.1)).Nodup)
    (h : table.lookup id = some l) : table.filter (·.1 = id) = [(id, l)] := by
  obtain ⟨before, after, rfl, -⟩ := List.lookup_eq_some_iff.mp h
  rw [List.map_append, List.map_cons, List.nodup_middle, List.nodup_cons, ← List.map_append] at hnodup
  have hothers : (before ++ after).filter (·.1 = id) = [] := by
    rw [List.filter_eq_nil_iff]
    intro e he hkey
    exact hnodup.1 (List.mem_map.mpr ⟨e, he, by simpa using hkey⟩)
  rw [List.filter_append, List.append_eq_nil_iff] at hothers
  simp [hothers.1, hothers.2]

end Tables

namespace Store

/-- The table of a store is in order, and containers are kept under their own keys. -/
structure Memoised (p : Program) (st : Store) : Prop where
  keyed : st.registry.Keyed
  table : p.Tabulates st.literals

/-- What derivation leads to from the store `base` when `fresh` is not under construction: entries were
added for literals of `fresh`, and no request for a container failed. -/
structure Derived (p : Program) (fresh : List NodeId) (base st : Store) : Prop extends
    st.Memoised p where
  clash : st.registry.clash = base.registry.clash
  added : ∃ new, st.literals = new ++ base.literals ∧ ∀ e ∈ new, e.1 ∈ fresh

variable {p : Program} {fresh : List NodeId} {base : Store}

/-- Nothing done leads from a store in order to itself. -/
theorem Memoised.derived {st : Store} (h : st.Memoised p) (fresh : List NodeId) :
    st.Derived p fresh st :=
  ⟨h, rfl, [], rfl, by simp⟩

/-- The entry of a literal is added when its parts are derived. Among what was added for them there is
none for the literal, since it was under construction. -/
theorem Derived.keep {st inner : Store} {id : NodeId} {l : Layout} (hst : base.Derived p fresh st)
    (hinner : st.Derived p (fresh.erase id) inner) (hfresh : fresh.Nodup) (hid : id ∈ fresh)
    (hlookup : st.literals.lookup id = none) (hflush : l.Flush)
    (hn : ∃ n, p.node? id = some n ∧ n.isCollection = true ∧ n.Shows l) :
    base.Derived p fresh { inner with literals := (id, l) :: inner.literals } := by
  obtain ⟨new, hnew, hadded⟩ := hinner.added
  obtain ⟨old, hold, hfrom⟩ := hst.added
  have hother : id ∉ new.map (·.1) := by
    intro hkey
    obtain ⟨e, he, rfl⟩ := List.mem_map.mp hkey
    exact hfresh.not_mem_erase (hadded e he)
  have hnodup : ((id, l) :: inner.literals).map (·.1) |>.Nodup := by
    refine List.nodup_cons.mpr ⟨?_, hinner.table.nodup⟩
    rw [hnew, List.map_append, List.mem_append, not_or]
    exact ⟨hother, not_mem_keys_of_lookup hlookup⟩
  refine ⟨⟨hinner.keyed, hnodup, List.forall_mem_cons.mpr ⟨⟨hflush, hn⟩, hinner.table.entries⟩⟩,
    hinner.clash.trans hst.clash, (id, l) :: (new ++ old), ?_, ?_⟩
  · show (id, l) :: inner.literals = _
    rw [hnew, hold, List.cons_append, List.append_assoc]
  · refine List.forall_mem_cons.mpr ⟨hid, fun e he => ?_⟩
    rcases List.mem_append.mp he with he | he
    · exact List.mem_of_mem_erase (hadded e he)
    · exact hfrom e he

/-- An operation on the registry. -/
theorem withRegistry_derived {α : Type} {Q : α → Prop} {operation : Registry → α × Registry}
    (h : ∀ r, r.Keyed → (operation r).2.Keyed ∧ (operation r).2.clash = r.clash
      ∧ Q (operation r).1) : Keeps (base.Derived p fresh) Q (withRegistry operation) := by
  intro st hst
  obtain ⟨hkeyed, hclash, hanswer⟩ := h st.registry hst.keyed
  exact ⟨⟨⟨hkeyed, hst.table⟩, hclash.trans hst.clash, hst.added⟩, hanswer⟩

/-- A request for a fixed array of flush elements derives a flush array of that length. -/
theorem fixedArray_derived {elem : Layout} (helem : elem.Flush) (capacity : Int) :
    Keeps (base.Derived p fresh) (fun l => l.Flush ∧ ∃ elem', l = .fixed elem' capacity)
      (withRegistry (·.fixedArray elem capacity)) := by
  refine withRegistry_derived fun r hr => ?_
  have hflush := helem.fixed capacity
  have hanswer := hr.fixedArray elem capacity
  obtain ⟨hkeyed, hkey⟩ := hr.intern (.fixed elem capacity)
  exact ⟨hkeyed, hr.clash_intern hflush.unmixed, hflush.of_key_eq hkey, hanswer⟩

/-- A request for a growing array of stacked elements derives a stacked layout. -/
theorem dynamicArray_derived {elem : Layout} (helem : elem.Stacked) :
    Keeps (base.Derived p fresh) Layout.Stacked (withRegistry (·.dynamicArray elem)) := by
  refine withRegistry_derived fun r hr => ?_
  have hstacked := helem.dynamic
  obtain ⟨hkeyed, hkey⟩ := hr.intern (.dynamic elem)
  refine ⟨hkeyed, hr.clash_intern hstacked.unmixed, ?_⟩
  show Layout.Stacked (r.intern (.dynamic elem)).1
  rw [Layout.Stacked, hstacked.spine_eq hkey]
  exact hstacked

/-- Registering a record adds no literal to the table. -/
theorem register_derived (hint : String) (fields : List Field) :
    Keeps (base.Derived p fresh) (fun _ => True) (withRegistry (·.register hint fields)) := by
  refine withRegistry_derived fun r hr => ⟨?_, r.clash_register hint fields, trivial⟩
  rw [Registry.Keyed, r.containers_register]
  exact hr

end Store

namespace Subject

variable {s : Subject}

/-! ## Derivation -/

/-- The steps of derivation lead to derived stores, with stacked layouts for types and flush ones for
expressions. -/
theorem determines_derived (s : Subject) (fresh : List NodeId) (base : Store) :
    s.Determines (fun _ => True) (fun _ => True) (base.Derived s.program fresh) Layout.Stacked
      Layout.Flush where
  toTyped := s.typed_true
  scalar _ := .scalar _
  record id := .record id
  weaken h := h.flush
  register hint fields _ _ := Store.register_derived hint fields
  dynamic helem := Store.dynamicArray_derived helem
  note _ _ := fun _ hst => ⟨⟨⟨hst.keyed, hst.table⟩, hst.clash, hst.added⟩, trivial⟩

/-- The layout of a literal is flush and shows it, if those of its parts are flush. -/
theorem literalLayout_derived {fresh : List NodeId} {base : Store}
    {literal : String → Node → StateM Store Layout}
    (hlit : s.KeepsLiterals (base.Derived s.program fresh) Layout.Flush literal) (hint : String)
    {n : Node} (hn : n ∈ s.program.nodes.toList) :
    Keeps (base.Derived s.program fresh) (fun l => l.Flush ∧ n.Shows l)
      (s.literalLayout literal hint n) := by
  have hdetermines := s.determines_derived fresh base
  rw [literalLayout]
  split
  · next hkind =>
    refine (hdetermines.literalRecord hlit hint hn hkind).imp ?_
    rintro _ ⟨id, rfl⟩
    exact ⟨(Layout.Stacked.record id).flush, by simp [Node.Shows, hkind]⟩
  · next hkind =>
    refine (hdetermines.literalElement hlit n.items).bind fun elem helem =>
      (Store.fixedArray_derived helem _).imp ?_
    rintro _ ⟨hflush, elem', rfl⟩
    exact ⟨hflush, by simp [Node.Shows, hkind]⟩

/-- A literal that is derived gets an entry, and what was derived on the way is about others. -/
theorem deriveLiteral_derived (hp : s.program.Numbered) {fresh : List NodeId} (hfresh : fresh.Nodup)
    (base : Store) (hint : String) {id : NodeId} {n : Node} (hn : s.program.node? id = some n)
    (hcollection : n.isCollection = true) :
    Keeps (base.Derived s.program fresh) Layout.Flush (s.deriveLiteral fresh hint n) := by
  intro st hst
  cases hlookup : st.literals.lookup n.id with
  | some known =>
    rw [deriveLiteral_of_lookup s hlookup]
    exact ⟨hst, (hst.table.entries _ (mem_of_lookup hlookup)).1⟩
  | none =>
    rw [deriveLiteral_of_lookup_none s hlookup]
    by_cases hmem : n.id ∈ fresh
    · rw [if_pos hmem]
      -- The parts are derived while the literal is under construction, so they make no entry for it.
      obtain ⟨hinner, hflush, hshows⟩ := literalLayout_derived (fun hint id m hm hcollection =>
        deriveLiteral_derived hp (hfresh.erase n.id) st hint hm hcollection) hint
        (Program.mem_nodes hn) st (hst.toMemoised.derived (fresh.erase n.id))
      have hnode : s.program.node? n.id = some n := by rwa [hp.id_eq hn]
      exact ⟨hst.keep hinner hfresh hmem hlookup hflush ⟨n, hnode, hcollection, hshows⟩, hflush⟩
    · rw [if_neg hmem]
      exact ⟨hst, (Layout.Stacked.scalar .pointer).flush⟩
termination_by fresh.length
decreasing_by
  rw [List.length_erase_of_mem hmem]
  have := List.length_pos_of_mem hmem
  omega

/-- Derivation leaves the table in order, whatever is under construction. -/
theorem determineWith_derived (hp : s.program.Numbered) (building : List NodeId) (hint : String)
    (id : NodeId) {st : Store} (hst : st.Memoised s.program) :
    st.Derived s.program (s.program.idle building)
      (s.determineWith (s.deriveLiteral (s.program.idle building)) hint id st).2 := by
  have hnodup : (s.program.idle building).Nodup := s.program.nodup_ids.filter _
  have hlit : s.KeepsLiterals (st.Derived s.program (s.program.idle building)) Layout.Flush _ :=
    fun hint _ _ hn hcollection => deriveLiteral_derived hp hnodup st hint hn hcollection
  exact ((s.determines_derived _ st).determineWith hlit hint id st (hst.derived _)).1

/-- Deriving an expression leaves a table in order. -/
theorem determine_tabulates (hp : s.program.Numbered) (hint : String) (id : NodeId) {st : Store}
    (hst : st.Memoised s.program) : s.program.Tabulates (s.determine hint id st).2.literals := by
  have hderived := determineWith_derived hp [] hint id hst
  rw [Program.idle_nil] at hderived
  exact hderived.table

/-! ## The walk -/

/-- What can be done to a state while literals are under construction: an expression is derived, in at
most `depth` derivations into each other, or what is done leaves the table as it is. -/
inductive Moves (s : Subject) (depth : Nat) :
    State × List NodeId → State × List NodeId → Prop where
  | derive {st : State} {building : List NodeId} {hint : String} {id : NodeId}
    {answer : Option Layout} {site : Site}
    (h : s.buildExpression (s.buildLiteral depth) hint id ⟨st.toStore, building⟩
      = some (answer, site)) :
    Moves s depth (st, building) ({ st with toStore := site.toStore }, site.building)
  | other {st st' : State} {building : List NodeId} (h : st'.literals = st.literals) :
    Moves s depth (st, building) (st', building)

section Moves

variable (hp : s.program.Numbered) {depth : Nat} (hdepth : s.program.ids.length < depth)

include hp hdepth

/-- A move ends with what it found under construction. -/
theorem Moves.building_eq {a b : State × List NodeId} (h : s.Moves depth a b) : b.2 = a.2 := by
  cases h with
  | other => rfl
  | @derive st building hint id answer site h =>
    have hbuilds := builds_of_lt hp ((s.program.length_idle_le building).trans_lt hdepth)
    rw [hbuilds.expression hint id st.toStore] at h
    obtain ⟨-, rfl⟩ := Prod.mk.inj (Option.some.inj h)
    rfl

/-- So does a series of moves. -/
theorem Moves.run_building_eq {a b : State × List NodeId}
    (h : Relation.ReflTransGen (s.Moves depth) a b) : b.2 = a.2 := by
  induction h with
  | refl => rfl
  | tail _ hmove ih => exact (hmove.building_eq hp hdepth).trans ih

/-- The derivations of the walk are moves. -/
theorem moves_derived (hint : String) (id : NodeId) (st : State) :
    s.Moves depth (st, []) ((s.derived hint id st).2, []) := by
  have hbuilds : s.Builds [] depth :=
    builds_of_lt hp ((s.program.length_idle_le []).trans_lt hdepth)
  have hexpression := hbuilds.expression hint id st.toStore
  rw [Program.idle_nil] at hexpression
  exact .derive hexpression

end Moves

/-- The table of a state is in order, and its layouts are plain. -/
structure Orderly (s : Subject) (st : State) : Prop where
  obeys : st.Obeys (fun l => l.isPlain = true) Registry.Plain
  table : s.program.Tabulates st.literals

/-- The store of an orderly state is in order. -/
theorem Orderly.memoised {st : State} (h : s.Orderly st) : st.toStore.Memoised s.program :=
  ⟨fun key l hl => (h.obeys.store.registry.containers key l hl).2, h.table⟩

/-- A part of the walk: it keeps states orderly and consists of moves that start and end while nothing
is under construction. -/
def Proceeds (s : Subject) (depth : Nat) {α : Type} (m : StateM State α) : Prop :=
  ∀ st, s.Orderly st →
    s.Orderly (m st).2 ∧ Relation.ReflTransGen (s.Moves depth) (st, []) ((m st).2, [])

/-- A part of the walk that keeps layouts plain. -/
abbrev KeepsPlain {α : Type} (m : StateM State α) : Prop :=
  Keeps (State.Obeys (fun l => l.isPlain = true) Registry.Plain) (fun _ => True) m

namespace Proceeds

variable {depth : Nat} {α β : Type} {m : StateM State α}

/-- An answer alone is a part of the walk. -/
theorem pure (a : α) : s.Proceeds depth (Pure.pure a : StateM State α) := fun _ hst => ⟨hst, .refl⟩

/-- Two parts of the walk one after the other are a part. -/
theorem bind {f : α → StateM State β} (hm : s.Proceeds depth m) (hf : ∀ a, s.Proceeds depth (f a)) :
    s.Proceeds depth (m >>= f) := by
  intro st hst
  obtain ⟨hst', hmoves⟩ := hm st hst
  obtain ⟨hst'', hmoves'⟩ := hf (m st).1 (m st).2 hst'
  exact ⟨hst'', hmoves.trans hmoves'⟩

/-- A part of the walk in which nothing is derived. -/
theorem of_literals_eq (h : KeepsPlain m) (hliterals : ∀ st, (m st).2.literals = st.literals) :
    s.Proceeds depth m := fun st hst =>
  ⟨⟨(h st hst.obeys).1, (hliterals st).symm ▸ hst.table⟩, .single (.other (hliterals st))⟩

variable (hp : s.program.Numbered) (hdepth : s.program.ids.length < depth) {hint : String}
  {id : NodeId}

include hp hdepth

/-- A part of the walk that puts a derived layout to use. -/
theorem of_derived {f : Option Layout → StateM State α} (h : KeepsPlain (s.derived hint id >>= f))
    (hf : ∀ answer st, (f answer st).2.literals = st.literals) :
    s.Proceeds depth (s.derived hint id >>= f) := by
  intro st hst
  have hliterals := hf (s.derived hint id st).1 (s.derived hint id st).2
  refine ⟨⟨(h st hst.obeys).1, ?_⟩, ?_⟩
  · show s.program.Tabulates (f (s.derived hint id st).1 (s.derived hint id st).2).2.literals
    rw [hliterals]
    exact determine_tabulates hp hint id hst.memoised
  · exact (Relation.ReflTransGen.single (moves_derived hp hdepth hint id st)).tail (.other hliterals)

/-- Deriving a layout and using it is a part of the walk if the use leaves the table as it is. -/
theorem of_withLayout {absent : StateM State Unit} {present : Layout → StateM State Unit}
    (h : KeepsPlain (s.withLayout hint id absent present))
    (habsent : ∀ st, (absent st).2.literals = st.literals)
    (hpresent : ∀ l st, (present l st).2.literals = st.literals) :
    s.Proceeds depth (s.withLayout hint id absent present) := by
  refine of_derived hp hdepth h fun answer st => ?_
  cases answer with
  | none => exact habsent st
  | some l => exact hpresent l st

end Proceeds

/-- Changing a variable leaves the table as it is. -/
theorem literals_changeVariableWith (decl : NodeId)
    (change : Variable → Registry → Variable × Registry) (st : State) :
    (State.changeVariableWith decl change st).2.literals = st.literals := by
  rw [State.changeVariableWith, get_bind_apply]
  cases st.vars.find? (·.decl = decl) <;> rfl

section Walk

variable (hp : s.program.Numbered) {depth : Nat} (hdepth : s.program.ids.length < depth)

include hp hdepth

open Proceeds in
/-- Every kind of step of the walk consists of moves. -/
theorem walks_proceeds (h : s.Walks fun {α : Type} (m : StateM State α) => KeepsPlain m) :
    s.Walks fun {α : Type} (m : StateM State α) => s.Proceeds depth m where
  pure a := .pure a
  bind hm hf := hm.bind hf
  read hf := fun st hst => hf st st hst
  note notice node := of_literals_eq (h.note notice node) fun _ => rfl
  derive hint id st hst := by
    refine ⟨⟨(h.derive hint id st hst.obeys).1, ?_⟩, .single (moves_derived hp hdepth hint id st)⟩
    exact determine_tabulates hp hint id hst.memoised
  object d := of_literals_eq (h.object d) fun _ => rfl
  growing d := of_literals_eq (h.growing d) fun _ => rfl
  dictionary d := of_literals_eq (h.dictionary d) fun _ => rfl
  key d := of_literals_eq (h.key d) fun _ => rfl
  promise d q hq := of_literals_eq (h.promise d q hq) fun _ => rfl
  value d hint id := of_withLayout hp hdepth (h.value d hint id) (fun _ => rfl) fun _ _ => rfl
  keyed d id := of_withLayout hp hdepth (h.keyed d id) (fun _ => rfl) fun _ st =>
    literals_changeVariableWith d _ st
  element d id := of_withLayout hp hdepth (h.element d id) (fun _ => rfl) fun _ st =>
    literals_changeVariableWith d _ st
  pushed d id := of_withLayout hp hdepth (h.pushed d id) (fun _ => rfl) fun _ st =>
    literals_changeVariableWith d _ st
  self d _ hname := of_literals_eq (h.self d hname) fun _ => rfl
  property d _ hname id :=
    of_withLayout hp hdepth (h.property d hname id) (fun _ => rfl) fun _ _ => rfl
  propertyPushed d _ hname id :=
    of_withLayout hp hdepth (h.propertyPushed d hname id) (fun _ => rfl) fun _ st =>
      literals_changeVariableWith d _ st
  mark fn _ hchange := of_literals_eq (h.mark fn hchange) fun _ => rfl
  argument fn index hint id :=
    of_withLayout hp hdepth (h.argument fn index hint id) (fun _ => rfl) fun _ _ => rfl
  returned fn id settled _ _ hretProps := by
    refine of_derived hp hdepth (h.returned fn id settled hretProps) fun answer st => ?_
    by_cases hfallback : (answer.getD .missing).isFallback = true
    · rw [if_pos hfallback]
      rfl
    · rw [if_neg hfallback]
      split <;> rfl

/-- The walk consists of moves, and leaves the table in order. -/
theorem collect_proceeds : s.Orderly s.collect
    ∧ Relation.ReflTransGen (s.Moves depth) (s.initialState, []) (s.collect, []) := by
  have hwalk := walks_proceeds hp hdepth (walks_obeys Registry.plain_law s)
  refine hwalk.collectNodes s.program.nodes.toList s.initialState ⟨?_, ?_⟩
  · exact initialState_obeys Registry.plain_law
  · exact ⟨List.nodup_nil, by simp [initialState]⟩

end Walk

/-! ## After the walk -/

section Stocked

variable {base : Store}

/-- Nothing is derived when all literals have their entries. -/
theorem converts_literals (s : Subject) (base : Store) : s.Converts (fun _ => True) (fun _ => True)
    (fun st => st.literals = base.literals) (fun _ => True) fun _ => True where
  toTyped := s.typed_true
  scalar _ := trivial
  record _ := trivial
  weaken _ := trivial
  register _ _ _ _ := fun _ hst => ⟨hst, trivial⟩
  dynamic _ := fun _ hst => ⟨hst, trivial⟩

/-- A question about an expression leaves the table as it is, all literals being there. -/
theorem layoutOf_literals {view : View} (hbase : view.Stocked base) (id : NodeId) :
    Keeps (fun st => st.literals = base.literals) (fun _ => True) (view.layoutOf id) := by
  have hliterals (st : Store) (hst : st.literals = base.literals) : st.literals = base.literals := hst
  have hanswers := View.answers_stocked hbase hliterals fun id =>
    (view.converts_literals base).convert (hbase.keepsLiterals hliterals) "" _ trivial
  exact hanswers.layoutOf id

/-- A pass leaves the table as it is, all literals being there. -/
theorem settles_literals (hbase : s.Stocked base) :
    s.Settles (fun st => st.literals = base.literals) (fun _ => True) (fun _ => True)
      fun _ => True := by
  refine settles_of_store (fun _ _ hst => ⟨hst, trivial⟩) ?_
  rintro view rfl id
  exact layoutOf_literals hbase id

end Stocked

variable {source : Source} {script : Script}

/-- After the walk the layouts of all literals are kept. -/
theorem collect_stocked (hscript : Program.ofScript source script = .ok s.program) :
    s.Stocked s.collect.toStore := fun _ _ hn hcollection =>
  ⟨((Program.ofScript_numbered hscript).id_eq hn).symm,
    collect_literals hscript (Program.mem_nodes hn) hcollection⟩

/-- Questions leave the table as it is. -/
theorem askAll_literals (hscript : Program.ofScript source script = .ok s.program) (bound : Nat)
    (ids : List NodeId) :
    (Result.askAll ids (Result.ofOutcome s (s.resolve bound))).2.state.literals
      = s.collect.literals := by
  have hbase := collect_stocked hscript
  have hview : ((Result.ofOutcome s (s.resolve bound)).state.view s).Stocked s.collect.toStore := hbase
  rw [Result.askAll_eq]
  have hquestions := Keeps.mapM fun id (_ : id ∈ ids) => layoutOf_literals hview id
  have hresolve : (Result.ofOutcome s (s.resolve bound)).state.literals = s.collect.literals :=
    (settles_literals hbase).resolve (.of_store _) (fun _ _ _ hst => ⟨hst, trivial⟩) rfl bound
  exact (hquestions (Result.ofOutcome s (s.resolve bound)).state.toStore hresolve).1

/-- After the walk each literal has one entry, which shows it. -/
theorem collect_literals_once (hscript : Program.ofScript source script = .ok s.program) {n : Node}
    (hn : n ∈ s.program.nodes.toList) (hcollection : n.isCollection = true) :
    ∃ l, s.collect.literals.filter (·.1 = n.id) = [(n.id, l)] ∧ n.Shows l
      ∧ s.collect.registry.Knows l := by
  have hp := Program.ofScript_numbered hscript
  have htable := (collect_proceeds hp (Nat.lt_succ_self _)).1.table
  obtain ⟨l, hl⟩ := collect_literals hscript hn hcollection
  obtain ⟨-, n', hn', -, hshows⟩ := htable.entries _ (mem_of_lookup hl)
  obtain rfl : n = n' := Option.some.inj ((hp.node?_of_mem hn).symm.trans hn')
  have hknown := (collect_regular hp).wellFormed.store.literals n.id l hl
  exact ⟨l, filter_of_lookup htable.nodup hl, hshows, hknown⟩

/-- **Literals are derived once.** Whatever is under construction, and whatever the store, derivation
ends: it goes at most as deep as there are nodes that are not under construction, and leaves what was
under construction as it was. From a table in order it leads to one in order, with entries added for
literals that were not under construction, and no request for a container fails. The walk consists of
such derivations, and nothing is under construction between them nor in the end. Then each literal has
one entry, a record for an object and a fixed array of as many elements for an array, and passes and
questions leave the entries as they are. -/
theorem literals_derived_once (hscript : Program.ofScript source script = .ok s.program) :
    (∀ building depth, (s.program.idle building).length < depth → s.Builds building depth)
      ∧ (∀ building hint id (st : Store), st.Memoised s.program →
        st.Derived s.program (s.program.idle building)
          (s.determineWith (s.deriveLiteral (s.program.idle building)) hint id st).2)
      ∧ (∀ depth, s.program.ids.length < depth →
        Relation.ReflTransGen (s.Moves depth) (s.initialState, []) (s.collect, [])
          ∧ ∀ st building, Relation.ReflTransGen (s.Moves depth) (s.initialState, []) (st, building) →
            building = [])
      ∧ (∀ n ∈ s.program.nodes.toList, n.isCollection = true →
        ∃ l, s.collect.literals.filter (·.1 = n.id) = [(n.id, l)] ∧ n.Shows l
          ∧ s.collect.registry.Knows l)
      ∧ (∀ k, (s.after s.collect k).literals = s.collect.literals)
      ∧ ∀ bound ids, (Result.askAll ids (Result.ofOutcome s (s.resolve bound))).2.state.literals
        = s.collect.literals := by
  have hp := Program.ofScript_numbered hscript
  refine ⟨fun _ _ => builds_of_lt hp,
    fun building hint id _ => determineWith_derived hp building hint id,
    fun depth hdepth => ⟨(collect_proceeds hp hdepth).2, fun _ _ hmoves => ?_⟩,
    fun _ => collect_literals_once hscript, ?_, askAll_literals hscript⟩
  · exact Moves.run_building_eq hp hdepth hmoves
  · exact (settles_literals (collect_stocked hscript)).after (.of_store _) rfl

end Subject

/-- `let x = {a: [true ? x : x]};` -/
def Script.ownElement : Script :=
  ⟨[declares "x" (.object ⟨0, 0⟩ [memberOf "a" (arrayOf
    [.conditional ⟨0, 0⟩ (.boolean ⟨0, 0⟩ true) (nameOf "x") (nameOf "x")])])]⟩

/-- The element of the array at node 6 is the object at node 4, which the array is part of. It has a
record in which the array is not known. -/
theorem Subject.literals_derived_once_ownElement :
    let s := Subject.of Script.ownElement.program
    s.collect.literals = [(4, .record 2), (6, .fixed (.record 1) 1)]
      ∧ s.collect.registry.fields 1 = [⟨"a", .pointer⟩]
      ∧ ∀ k, (s.after s.collect k).literals = [(4, .record 2), (6, .fixed (.record 1) 1)] := by
  intro s
  have hscript : Program.ofScript ⟨"main.js", []⟩ Script.ownElement = .ok s.program :=
    Script.ofScript_eq_ok Script.ownElement (by decide +kernel)
  have hcollect : s.collect.literals = [(4, .record 2), (6, .fixed (.record 1) 1)] := by
    decide +kernel
  exact ⟨hcollect, by decide +kernel,
    fun k => ((literals_derived_once hscript).2.2.2.2.1 k).trans hcollect⟩

end LayoutInference
