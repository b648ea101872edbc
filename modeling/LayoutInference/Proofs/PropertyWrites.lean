import Mathlib
import LayoutInference.Proofs.EvidenceInvariants
import LayoutInference.Proofs.PropertyNames

/-!
# Property writes

A write to a property of a variable leaves a trace in the evidence about it: the property is recorded
with a layout, a promise for it waits, or the variable is a dictionary, which has no properties of its
own. `Variable.Noted` says so of one write, and `Variable.Tracks` of a list of writes, together with
where the names in the evidence come from.

This module follows the walk over a program. Every kind of step keeps the traces of earlier writes
(`Subject.walks_tracks`), and a plain assignment to a property adds its own: `Subject.collect_tracks`.
-/

namespace LayoutInference

/-! ## Recorded properties -/

namespace Added

/-- Whether the property has a layout or holds its owner. -/
def Filled (a : Added) : Prop := a.self = true ∨ a.layout ≠ .missing

variable {name : String} {change : Added → Added} {fresh : Added} {added : List Added}

/-- A write leaves the name of the property. -/
@[simp] theorem name_write (a : Added) (l : Layout) : (a.write l).name = a.name := by
  unfold write
  repeat' split
  all_goals rfl

/-- A write of the owner leaves the name of the property. -/
@[simp] theorem name_writeSelf (a : Added) : a.writeSelf.name = a.name := by
  unfold writeSelf
  split <;> rfl

/-- What stands in the way of a known layout is one itself. -/
theorem filled_write (a : Added) {l : Layout} (hl : l ≠ .missing) : (a.write l).Filled := by
  have huniversal : Layout.universal ≠ .missing := by simp
  unfold write
  split
  · next hself =>
    split
    · exact .inl hself
    · exact .inr huniversal
  · split
    · exact .inr hl
    · -- The layout that is there says more than `l`, or is the same.
      split
      · next hrefines =>
        refine .inr fun hmissing => ?_
        simp [refines, hmissing, Layout.isFallback] at hrefines
      · split
        · next hsame =>
          refine .inr fun hmissing => hl ?_
          cases l <;> simp_all [Layout.same]
        · exact .inr huniversal

/-- A property to which its owner was written is filled. -/
theorem filled_writeSelf (a : Added) : a.writeSelf.Filled := by
  unfold writeSelf
  split
  · exact .inl rfl
  · exact .inr (by simp)

/-- A change that empties no property leaves those that are filled. -/
theorem exists_filled_update {written : String} (hname : ∀ a, (change a).name = a.name)
    (hfilled : ∀ a, a.Filled → (change a).Filled)
    (h : ∃ a ∈ added, a.name = written ∧ a.Filled) :
    ∃ a ∈ update name change fresh added, a.name = written ∧ a.Filled := by
  induction added with
  | nil => simp at h
  | cons first rest ih =>
    obtain ⟨a, ha, hwritten, hfill⟩ := h
    rw [update]
    split
    · rcases List.mem_cons.mp ha with rfl | ha
      · exact ⟨change a, List.mem_cons_self .., (hname a).trans hwritten, hfilled a hfill⟩
      · exact ⟨a, List.mem_cons_of_mem _ ha, hwritten, hfill⟩
    · rcases List.mem_cons.mp ha with rfl | ha
      · exact ⟨a, List.mem_cons_self .., hwritten, hfill⟩
      · obtain ⟨b, hb, hfound⟩ := ih ⟨a, ha, hwritten, hfill⟩
        exact ⟨b, List.mem_cons_of_mem _ hb, hfound⟩

/-- A change that fills a property leaves it filled. -/
theorem filled_update (hname : ∀ a, (change a).name = a.name) (hfilled : ∀ a, (change a).Filled)
    (hfresh : fresh.name = name ∧ fresh.Filled) :
    ∃ a ∈ update name change fresh added, a.name = name ∧ a.Filled := by
  induction added with
  | nil => exact ⟨fresh, by simp [update], hfresh⟩
  | cons first rest ih =>
    rw [update]
    split
    · next hfirst =>
      exact ⟨change first, List.mem_cons_self .., (hname first).trans hfirst, hfilled first⟩
    · obtain ⟨a, ha, hfound⟩ := ih
      exact ⟨a, List.mem_cons_of_mem _ ha, hfound⟩

end Added

/-! ## Traces of writes -/

/-- A write of the value of a node to a property of the variable declared at `decl`. -/
structure PropertyWrite where
  decl : NodeId
  name : String
  value : NodeId

namespace Variable

/-- The trace that a write leaves. -/
inductive Noted (name : String) (value : NodeId) (v : Variable) : Prop where
  | dictionary (h : v.dictionary = true)
  | filled (h : ∃ a ∈ v.added, a.name = name ∧ a.Filled)
  | waits (h : ∃ q ∈ v.promises,
      q.resolved = false ∧ q.use = .same ∧ q.property = name ∧ q.node = value)

/-- The names in the evidence are among those given, and the writes to the variable are noted. -/
structure Tracks (names : List String) (writes : List PropertyWrite) (v : Variable) : Prop where
  added : ∀ a ∈ v.added, a.name ∈ names
  promises : ∀ q ∈ v.promises, q.property ≠ "" → q.property ∈ names
  noted : ∀ w ∈ writes, w.decl = v.decl → v.Noted w.name w.value

/-- The variables differ at most in their candidates and in what is decided from them. -/
structure SameWrites (v v' : Variable) : Prop where
  decl : v'.decl = v.decl
  dictionary : v'.dictionary = v.dictionary
  added : v'.added = v.added
  promises : v'.promises = v.promises

/-- A variable has the same writes as itself. -/
theorem SameWrites.refl (v : Variable) : v.SameWrites v := ⟨rfl, rfl, rfl, rfl⟩

/-- One more candidate leaves the writes alone. -/
theorem sameWrites_addCandidate (v : Variable) (l : Layout) : v.SameWrites (v.addCandidate l) := by
  rw [addCandidate]
  split
  · exact ⟨rfl, rfl, rfl, rfl⟩
  · exact .refl v

variable {names : List String} {writes : List PropertyWrite} {v v' : Variable} {name : String}
  {value : NodeId}

/-- A write that is noted is noted in every variable with the same writes. -/
theorem Noted.congr (h : v.Noted name value) (hsame : v.SameWrites v') : v'.Noted name value := by
  obtain ⟨-, hdictionary, hadded, hpromises⟩ := hsame
  cases h with
  | dictionary h => exact .dictionary (hdictionary.trans h)
  | filled h => exact .filled (hadded ▸ h)
  | waits h => exact .waits (hpromises ▸ h)

namespace Tracks

/-- Writes that are tracked are tracked in every variable with the same writes. -/
theorem congr (h : v.Tracks names writes) (hsame : v.SameWrites v') : v'.Tracks names writes where
  added := hsame.added ▸ h.added
  promises := hsame.promises ▸ h.promises
  noted w hw hdecl := (h.noted w hw (hdecl.trans hsame.decl)).congr hsame

/-- One more write, which is noted if it is to the variable. -/
theorem cons (h : v.Tracks names writes) {w : PropertyWrite}
    (hw : w.decl = v.decl → v.Noted w.name w.value) : v.Tracks names (w :: writes) :=
  ⟨h.added, h.promises, List.forall_mem_cons.mpr ⟨hw, h.noted⟩⟩

/-- A candidate leaves the tracked writes alone. -/
theorem addCandidate (h : v.Tracks names writes) (l : Layout) :
    (v.addCandidate l).Tracks names writes :=
  h.congr (v.sameWrites_addCandidate l)

/-- A promise under a name that may be used keeps the tracked writes. -/
theorem addPromise (h : v.Tracks names writes) {q : Promise}
    (hq : q.property ≠ "" → q.property ∈ names) : (v.addPromise q).Tracks names writes := by
  refine ⟨h.added, fun p hp => ?_, fun w hw hdecl => ?_⟩
  · rcases List.mem_append.mp hp with hp | hp
    · exact h.promises p hp
    · rwa [List.mem_singleton.mp hp]
  · cases h.noted w hw hdecl with
    | dictionary h => exact .dictionary h
    | filled h => exact .filled h
    | waits h =>
      obtain ⟨p, hp, hwaits⟩ := h
      exact .waits ⟨p, List.mem_append_left _ hp, hwaits⟩

/-- A change of one recorded property that empties none. -/
theorem update (h : v.Tracks names writes) {name : String} {change : Added → Added} {fresh : Added}
    (hname : ∀ a, (change a).name = a.name) (hfilled : ∀ a, a.Filled → (change a).Filled)
    (hfresh : fresh.name ∈ names) :
    { v with added := Added.update name change fresh v.added }.Tracks names writes := by
  refine ⟨?_, h.promises, fun w hw hdecl => ?_⟩
  · exact Known.forall_mem_update h.added (fun a ha => (hname a).symm ▸ ha) hfresh
  · cases h.noted w hw hdecl with
    | dictionary h => exact .dictionary h
    | filled h => exact .filled (Added.exists_filled_update hname hfilled h)
    | waits h => exact .waits h

/-- Reserving a property keeps the tracked writes. -/
theorem reserve (h : v.Tracks names writes) (hname : name ∈ names) :
    (v.reserve name).Tracks names writes :=
  h.update (fun _ => rfl) (fun _ ha => ha) hname

/-- Writing the owner to a property keeps the tracked writes. -/
theorem writeSelf (h : v.Tracks names writes) (hname : name ∈ names) :
    (v.writeSelf name).Tracks names writes :=
  h.update Added.name_writeSelf (fun a _ => a.filled_writeSelf) hname

/-- Writing a layout to a property keeps the tracked writes. -/
theorem write (h : v.Tracks names writes) (hname : name ∈ names) {l : Layout} (hl : l ≠ .missing) :
    (v.write name l).Tracks names writes :=
  h.update (Added.name_write · l) (fun a _ => a.filled_write hl) hname

/-- A dictionary notes all writes. -/
theorem makeDictionary (h : v.Tracks names writes) : v.makeDictionary.Tracks names writes := by
  rw [Variable.makeDictionary]
  split
  · exact h
  · -- All properties are dropped here, and with them the traces; the mark stands for all of them.
    refine ⟨by simp, fun q hq => ?_, fun _ _ _ => .dictionary rfl⟩
    obtain ⟨p, hp, rfl⟩ := List.mem_map.mp hq
    split
    · exact h.promises p hp
    · exact h.promises p hp

end Tracks

/-- A property to which a layout is written is filled. -/
theorem exists_filled_write (v : Variable) (name : String) {l : Layout} (hl : l ≠ .missing) :
    ∃ a ∈ (v.write name l).added, a.name = name ∧ a.Filled :=
  Added.filled_update (Added.name_write · l) (fun a => a.filled_write hl) ⟨rfl, .inr hl⟩

/-- A write of a layout is noted. -/
theorem noted_write (v : Variable) (name : String) (value : NodeId) {l : Layout}
    (hl : l ≠ .missing) : (v.write name l).Noted name value :=
  .filled (v.exists_filled_write name hl)

/-- A write of the owner is noted. -/
theorem noted_writeSelf (v : Variable) (name : String) (value : NodeId) :
    (v.writeSelf name).Noted name value :=
  .filled (Added.filled_update Added.name_writeSelf (·.filled_writeSelf) ⟨rfl, .inl rfl⟩)

/-- In a dictionary every write is noted. -/
theorem noted_makeDictionary (v : Variable) (name : String) (value : NodeId) :
    v.makeDictionary.Noted name value := by
  refine .dictionary ?_
  rw [makeDictionary]
  split
  · assumption
  · rfl

/-- A write that is put off is noted by its promise. -/
theorem noted_addPromise (v : Variable) (name : String) (value : NodeId) :
    (v.addPromise { node := value, property := name }).Noted name value :=
  .waits ⟨_, List.mem_append_right _ (List.mem_singleton_self _), rfl, rfl, rfl, rfl⟩

/-! ## Changes that make containers -/

variable {P : List String → Prop}

/-- Refining a candidate leaves the names in records alone. -/
theorem refineCandidate_named (l c : Layout) :
    Keeps (Registry.NamedBy P) (fun _ => True) (fun r => refineCandidate l r c) := by
  intro r hr
  unfold refineCandidate
  repeat' split
  all_goals exact ⟨by first | exact hr | exact hr.intern _, trivial⟩

/-- Refining candidates leaves the names in records alone. -/
theorem refineCandidates_named (l : Layout) (cs : List Layout) :
    Keeps (Registry.NamedBy P) (fun _ => True) (fun r => refineCandidates l r cs) := by
  induction cs with
  | nil => exact .pure trivial
  | cons c cs ih => exact fun r hr => ih _ (refineCandidate_named l c r hr).1

/-- Refining the elements of a variable leaves names and writes alone. -/
theorem refineElements_named (v : Variable) (l : Layout) :
    Keeps (Registry.NamedBy P) (fun a => v.SameWrites a.1) (v.refineElements l) := by
  intro r hr
  unfold refineElements
  split
  · exact ⟨hr, .refl v⟩
  · exact ⟨(refineCandidates_named l v.candidates r hr).1, rfl, rfl, rfl, rfl⟩

/-- Noting a pushed element leaves names and writes alone. -/
theorem addPushed_named (v : Variable) (l : Layout) :
    Keeps (Registry.NamedBy P) v.SameWrites (v.addPushed l) := by
  intro r hr
  unfold addPushed
  simp only
  split
  · exact ⟨hr.intern _, rfl, rfl, rfl, rfl⟩
  · exact ⟨hr.intern _, v.sameWrites_addCandidate _⟩

end Variable

/-! ## States -/

namespace State

/-- The names in the records satisfy `P`, those in the evidence are among the names given, and the
evidence tracks the writes. -/
structure Tracks (P : List String → Prop) (names : List String) (writes : List PropertyWrite)
    (st : State) : Prop where
  store : st.toStore.NamedBy P
  vars : ∀ v ∈ st.vars, v.Tracks names writes
  retProps : ∀ r ∈ st.routines, ∀ q ∈ r.retProps, q.property ∈ names

variable {P : List String → Prop} {names : List String} {writes : List PropertyWrite}

/-- A state tracks writes exactly if its store, its variables and its functions do. -/
theorem tracks_parts : Parts (Tracks P names writes) (Store.NamedBy P) (Variable.Tracks names writes)
    fun r => ∀ q ∈ r.retProps, q.property ∈ names :=
  fun _ => ⟨fun h => ⟨h.store, h.vars, h.retProps⟩, fun h => ⟨h.1, h.2.1, h.2.2⟩⟩

/-- A change of a variable that notes a write to it. -/
theorem changeVariable_notes {w : PropertyWrite} {change : Variable → Variable}
    (hchange : ∀ v : Variable, v.Tracks names writes → (change v).Tracks names writes)
    (hnoted : ∀ v : Variable, (change v).Noted w.name w.value) :
    Leads (Tracks P names writes) (Tracks P names (w :: writes)) (changeVariable w.decl change) := by
  intro st hst
  refine ⟨hst.store, fun v' hv' => ?_, hst.retProps⟩
  obtain ⟨v, hv, rfl⟩ := List.mem_map.mp hv'
  split
  · exact (hchange v (hst.vars v hv)).cons fun _ => hnoted v
  · next hne => exact (hst.vars v hv).cons fun hsame => absurd hsame.symm hne

end State

/-! ## The walk -/

namespace Subject

/-- A step of the walk over a program that keeps track of writes. -/
abbrev KeepsTrack (P : List String → Prop) (s : Subject) (writes : List PropertyWrite) {α : Type}
    (Q : α → Prop) (m : StateM State α) : Prop :=
  Keeps (State.Tracks P s.program.propertyNames writes) Q m

variable {P : List String → Prop} {s : Subject} {writes : List PropertyWrite}

open State (tracks_parts)

/-- Promises about the owner itself name no property. -/
theorem addPromise_tracks (decl : NodeId) {q : Promise} (hq : q.property = "") :
    s.KeepsTrack P writes (fun _ => True) (State.changeVariable decl (·.addPromise q)) :=
  tracks_parts.changeVariable decl fun _ _ hv => hv.addPromise fun h => absurd hq h

variable (hs : s.Named P)

include hs

/-- What follows on a derived layout may rely on its being there. -/
theorem derived_tracks {α : Type} {Q : α → Prop} {hint : String} {id : NodeId}
    {f : Option Layout → StateM State α} (hnone : s.KeepsTrack P writes Q (f none))
    (hsome : ∀ l, l ≠ .missing → s.KeepsTrack P writes Q (f (some l))) :
    s.KeepsTrack P writes Q (s.derived hint id >>= f) :=
  tracks_parts.derived ((upholds_named hs).determine hint id) hnone hsome

/-- Every kind of step of the walk keeps track of writes. -/
theorem walks_tracks : s.Walks fun {α : Type} => s.KeepsTrack P writes fun _ : α => True where
  pure _ := .pure trivial
  bind hm hf := hm.bind fun a _ => hf a
  read hf := .read fun st _ => hf st
  note _ _ := tracks_parts.withStore (Store.note_named s.program _ _)
  derive hint id := (tracks_parts.withStore ((upholds_named hs).determine hint id)).imp
    fun _ _ => trivial
  object decl := tracks_parts.changeVariable decl fun _ _ hv => hv.congr ⟨rfl, rfl, rfl, rfl⟩
  growing decl := tracks_parts.changeVariable decl fun _ _ hv => hv.congr ⟨rfl, rfl, rfl, rfl⟩
  dictionary decl := tracks_parts.changeVariable decl fun _ _ hv => hv.makeDictionary
  key decl := tracks_parts.changeVariable decl fun _ _ hv => hv.addCandidate _
  promise decl _ hq := tracks_parts.changeVariable decl fun _ _ hv => hv.addPromise hq
  value decl _ _ := derived_tracks hs (addPromise_tracks decl rfl) fun l _ =>
    tracks_parts.changeVariable decl fun _ _ hv => hv.addCandidate l
  keyed decl _ := derived_tracks hs (addPromise_tracks decl rfl) fun _ _ =>
    tracks_parts.changeVariableWith decl fun _ hv =>
      Store.withRegistry_named fun _ hr => ⟨hr.intern _, hv.addCandidate _⟩
  element decl _ := by
    refine derived_tracks hs (addPromise_tracks decl rfl) fun l _ => ?_
    refine tracks_parts.changeVariableWith decl fun v hv => Store.withRegistry_named fun r hr => ?_
    obtain ⟨hr', hsame⟩ := v.refineElements_named l r hr
    exact ⟨hr', hv.congr hsame⟩
  pushed decl _ := by
    refine derived_tracks hs (addPromise_tracks decl rfl) fun l _ => ?_
    refine tracks_parts.changeVariableWith decl fun v hv => Store.withRegistry_named fun r hr => ?_
    obtain ⟨hr', hsame⟩ := v.addPushed_named l r hr
    exact ⟨hr', hv.congr hsame⟩
  self decl _ hname := tracks_parts.changeVariable decl fun _ _ hv => hv.writeSelf hname
  property decl _ hname _ := by
    refine derived_tracks hs ?_ fun l hl => ?_
    · exact tracks_parts.changeVariable decl fun _ _ hv =>
        (hv.reserve hname).addPromise fun _ => hname
    · exact tracks_parts.changeVariable decl fun _ _ hv => hv.write hname hl
  propertyPushed decl _ hname _ := by
    refine derived_tracks hs ?_ fun l _ => ?_
    · exact tracks_parts.changeVariable decl fun _ _ hv =>
        (hv.reserve hname).addPromise fun _ => hname
    · refine tracks_parts.changeVariableWith decl fun v hv =>
        Store.withRegistry_named fun r hr => ⟨hr.intern _, ?_⟩
      exact hv.write hname (Registry.intern_ne_missing (by simp [Layout.container?]))
  mark fn change hchange := tracks_parts.changeRoutine fn fun r _ hr => by
    obtain ⟨calls, hasReturn, valued, hr'⟩ := hchange r
    rw [hr']
    exact hr
  argument fn _ _ _ := derived_tracks hs (tracks_parts.changeRoutine fn fun _ _ hr => hr)
    fun _ _ => tracks_parts.changeRoutine fn fun _ _ hr => hr
  returned fn id settled _ _ hretProps := by
    have hwait : s.KeepsTrack P writes (fun _ => True) (State.changeRoutine fn fun r =>
        { r with retPromises := r.retPromises ++ [{ node := id }] }) :=
      tracks_parts.changeRoutine fn fun _ _ hr => hr
    refine derived_tracks hs hwait fun l _ => ?_
    simp only [Option.getD_some]
    repeat' split
    · exact hwait
    · exact .pure trivial
    · exact tracks_parts.changeRoutine fn fun _ _ _ => hretProps

/-- A write to a property is noted. -/
theorem addProperty_notes (v : Variable) {name : String} (hname : name ∈ s.program.propertyNames)
    (value : NodeId) :
    Leads (State.Tracks P s.program.propertyNames writes)
      (State.Tracks P s.program.propertyNames (⟨v.decl, name, value⟩ :: writes))
      (s.addProperty v name value) := by
  rw [addProperty]
  split
  · -- A dictionary has no properties of its own; that it is one is the trace.
    refine Leads.bind (State.changeVariable_notes (w := ⟨v.decl, name, value⟩) ?_ ?_) fun _ =>
      (walks_tracks hs).keyed v.decl value
    · exact fun _ hv => hv.makeDictionary
    · exact fun v => v.noted_makeDictionary name value
  · refine ((walks_tracks hs).readsOwner v.decl (some value)).bind_leads fun reads _ => ?_
    split
    · refine State.changeVariable_notes (w := ⟨v.decl, name, value⟩) (fun _ hv => hv.writeSelf hname) ?_
      exact fun v => v.noted_writeSelf name value
    · refine (tracks_parts.withStore ((upholds_named hs).determine name value)).bind_leads
        fun answer hl => ?_
      cases answer with
      | none =>
        -- The reserved place alone is no trace: it has no layout until the promise is kept.
        refine State.changeVariable_notes (w := ⟨v.decl, name, value⟩) ?_ ?_
        · exact fun _ hv => (hv.reserve hname).addPromise fun _ => hname
        · exact fun v => (v.reserve name).noted_addPromise name value
      | some l =>
        refine State.changeVariable_notes (w := ⟨v.decl, name, value⟩) ?_ ?_
        · exact fun _ hv => hv.write hname (hl l rfl)
        · exact fun v => v.noted_write name value (hl l rfl)

omit hs

/-- At first there are no writes to track. -/
theorem initialState_tracks (P : List String → Prop) (s : Subject) (names : List String) :
    s.initialState.Tracks P names [] where
  store := ⟨⟨fun _ h => absurd h (by simp [initialState]), fun _ _ h => by cases h⟩,
    fun _ _ h => by cases h⟩
  vars v hv := by
    obtain ⟨id, -, hid⟩ := List.mem_filterMap.mp hv
    obtain ⟨n, -, rfl⟩ := Option.map_eq_some_iff.mp hid
    exact ⟨by simp, by simp, by simp⟩
  retProps r hr := by
    obtain ⟨n, -, rfl⟩ := List.mem_map.mp hr
    simp

end Subject

/-! ## Assignments to properties -/

/-- The node is the assignment `v.name = e` or `v["name"] = e` for an identifier `v`. -/
structure Node.Writes (p : Program) (v : NodeId) (name : String) (e : NodeId) (n : Node) : Prop where
  kind : n.kind = .assign
  plain : n.value = "="
  value : n.expr = some e
  access : ∃ target ∈ p.at? n.target, target.accessed? p = some name ∧ target.target = some v
  owner : ∃ identifier ∈ p.node? v, identifier.kind = .identifier

instance (p : Program) (v : NodeId) (name : String) (e : NodeId) :
    DecidablePred (Node.Writes p v name e) := fun n =>
  decidable_of_iff (n.kind = .assign ∧ n.value = "=" ∧ n.expr = some e
      ∧ (∃ target ∈ p.at? n.target, target.accessed? p = some name ∧ target.target = some v)
      ∧ ∃ identifier ∈ p.node? v, identifier.kind = .identifier)
    ⟨fun ⟨h₁, h₂, h₃, h₄, h₅⟩ => ⟨h₁, h₂, h₃, h₄, h₅⟩,
      fun ⟨h₁, h₂, h₃, h₄, h₅⟩ => ⟨h₁, h₂, h₃, h₄, h₅⟩⟩

namespace Subject

variable {P : List String → Prop} {s : Subject} {writes : List PropertyWrite} {v e decl : NodeId}
  {name : String} {n : Node}

/-- The owner of a property is the variable that the identifier in front of it refers to. -/
theorem owner?_apply (hp : s.program.Numbered) {owner : Node}
    (howner : s.program.node? v = some owner) (hkind : owner.kind = .identifier) (st : State) :
    s.owner? (some v) st = ((st.view s).variableOf? v, st) := by
  have hat : s.program.at? (some v) = some owner := howner
  rw [owner?, hat]
  simp only [hkind, if_true]
  rw [hp.id_eq howner]
  rfl

/-- The variable found for a node is that of its declaration. -/
theorem variableOf?_eq_some (hdecl : s.program.declaration v = some decl) {st : State}
    {x : Variable} (hx : (st.view s).variableOf? v = some x) : x.decl = decl := by
  obtain ⟨decl', hdecl', hfind⟩ := Option.bind_eq_some_iff.mp hx
  have hsame : decl' = decl := Option.some.inj (hdecl'.symm.trans hdecl)
  simpa [hsame] using List.find?_some hfind

/-- If no variable is found for a node, its declaration has none. -/
theorem variableOf?_eq_none (hdecl : s.program.declaration v = some decl) {st : State}
    (hnone : (st.view s).variableOf? v = none) : ∀ x ∈ st.vars, x.decl ≠ decl := by
  have hfind : st.vars.find? (·.decl = decl) = none := by
    simpa [View.variableOf?, State.view, hdecl] using hnone
  simpa using hfind

/-- The walk goes over the nodes before one of them, over that node and over those behind it. -/
theorem collect_eq_of_split {before after : List Node}
    (hnodes : s.program.nodes.toList = before ++ n :: after) :
    s.collect = (after.forM s.collectNode
      (s.collectNode n (before.forM s.collectNode s.initialState).2).2).2 := by
  rw [collect, hnodes]
  show (forM (before ++ n :: after) s.collectNode s.initialState).2 = _
  rw [List.forM_append, List.forM_cons]
  rfl

/-- The walk leads from `I` to `J` if the step at one of the nodes does, those before it keep `I` and
those behind it keep `J`. -/
theorem collect_leads {I J : State → Prop} (hn : n ∈ s.program.nodes.toList)
    (hbefore : ∀ ns : List Node, Keeps I (fun _ => True) (ns.forM s.collectNode))
    (hnode : Leads I J (s.collectNode n))
    (hafter : ∀ ns : List Node, Keeps J (fun _ => True) (ns.forM s.collectNode))
    (hinitial : I s.initialState) : J s.collect := by
  obtain ⟨before, after, hnodes⟩ := List.append_of_mem hn
  rw [collect_eq_of_split hnodes]
  exact (hafter after _ (hnode _ (hbefore before _ hinitial).1)).1

/-- An assignment to a property of a variable records the write with that variable. -/
theorem collectAssignment_of_writes (hwrite : n.Writes s.program v name e) :
    s.collectAssignment n = (do
      match ← s.owner? (some v) with
      | none => pure ()
      | some x => s.addProperty x name e) := by
  obtain ⟨target, htarget, haccessed, hv⟩ := hwrite.access
  rw [Option.mem_def] at htarget
  rw [collectAssignment, if_neg (by simp [hwrite.plain]), htarget, hwrite.value]
  simp only [hv]
  unfold Node.accessed? at haccessed
  split at haccessed
  · next hkind =>
    simp only [hkind]
    refine bind_congr fun found => ?_
    cases found with
    | none => rfl
    | some x => exact congrArg (s.addProperty x · e) (Option.some.inj haccessed)
  · next hkind =>
    obtain ⟨key, hkey, hvalue⟩ := Option.bind_eq_some_iff.mp haccessed
    obtain ⟨hstring, hvalue⟩ := (Option.ite_none_right_eq_some ..).mp hvalue
    simp only [hkind, hkey]
    refine bind_congr fun found => ?_
    cases found with
    | none => rfl
    | some x => simp only [hstring, Option.some.inj hvalue, if_true]
  · cases haccessed

variable (hs : s.Named P) (hp : s.program.Numbered)

include hs hp

/-- A plain assignment to a property is noted, and earlier writes stay tracked. -/
theorem collectAssignment_notes (hwrite : n.Writes s.program v name e)
    (hdecl : s.program.declaration v = some decl) :
    Leads (State.Tracks P s.program.propertyNames writes)
      (State.Tracks P s.program.propertyNames (⟨decl, name, e⟩ :: writes))
      (s.collectAssignment n) := by
  obtain ⟨target, htarget, haccessed, -⟩ := hwrite.access
  obtain ⟨owner, howner, hidentifier⟩ := hwrite.owner
  obtain ⟨id, -, hid⟩ := Option.bind_eq_some_iff.mp (Option.mem_def.mp htarget)
  have hname := Program.accessed_named hid haccessed
  intro st hst
  rw [collectAssignment_of_writes hwrite, bind_apply, owner?_apply hp howner hidentifier]
  cases hx : (st.view s).variableOf? v with
  | none =>
    -- Where the owner is no variable, there is none whose evidence could note the write.
    refine ⟨hst.store, fun x hmem => (hst.vars x hmem).cons fun hsame => ?_, hst.retProps⟩
    exact absurd hsame.symm (variableOf?_eq_none hdecl hx x hmem)
  | some x =>
    rw [← variableOf?_eq_some hdecl hx]
    exact addProperty_notes hs x hname e st hst

/-- After the walk the evidence tracks every write to a property. -/
theorem collect_tracks (hn : n ∈ s.program.nodes.toList) (hsupported : n.unsupported = false)
    (hwrite : n.Writes s.program v name e) (hdecl : s.program.declaration v = some decl) :
    s.collect.Tracks P s.program.propertyNames [⟨decl, name, e⟩] := by
  refine collect_leads hn (walks_tracks hs).collectNodes ?_ (walks_tracks hs).collectNodes
    (initialState_tracks P s _)
  rw [collectNode, hsupported, hwrite.kind]
  exact collectAssignment_notes hs hp hwrite hdecl

end Subject

end LayoutInference
