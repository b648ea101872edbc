import Mathlib
import LayoutInference.Proofs.Copies
import LayoutInference.Proofs.Shapes
import LayoutInference.Proofs.PropertyWrites

/-!
# Written properties become fields

Passes keep the traces that writes to properties leave in the evidence. A promise about a property
stops waiting only when the property gets a layout, and a property that has one keeps it, so nothing
that resolving does makes the evidence forget a write: `Subject.resolve_tracks`.

In the end the traces decide. A dictionary has no record as its winner, a recorded property is a field
of the winner, and a promise that still waits has no layout to ask for:
`infer_keeps_property_writes`.
-/

namespace LayoutInference

/-! ## Promises -/

namespace Variable

variable {P : List String → Prop} {names : List String} {writes : List PropertyWrite}
  {v v' : Variable}

/-- What using the layout of a promise can do: it writes the property of the promise, or leaves the
recorded properties alone. Promises of a plain value for a property never do the latter. -/
inductive Applied (v : Variable) (q : Promise) : Variable → Prop where
  | written (l : Layout) (hl : l ≠ .missing) (hq : q.property ≠ "") :
    Applied v q (v.write q.property l)
  | other {v' : Variable} (hq : q.use = .same → q.property = "") (h : v.SameWrites v') :
    Applied v q v'

/-- Using a layout for a promise leaves names alone, and does to the variable what it may. -/
theorem apply_named (v : Variable) (q : Promise) {l : Layout} (hl : l ≠ .missing) :
    Keeps (Registry.NamedBy P) (fun a => v.Applied q a.1) (v.apply q l) := by
  intro r hr
  unfold apply
  split
  · split
    · next hq => exact ⟨hr, .written l hl hq⟩
    · next hq => exact ⟨hr, .other (fun _ => not_not.mp hq) (v.sameWrites_addCandidate l)⟩
  · next huse =>
    have hother : q.use = .same → q.property = "" := fun h => by simp [huse] at h
    split
    · exact ⟨hr, .other hother (.refl v)⟩
    · exact ⟨hr, .other hother (v.sameWrites_addCandidate _)⟩
  · next huse =>
    have hother : q.use = .same → q.property = "" := fun h => by simp [huse] at h
    split
    · next hq =>
      refine ⟨hr.intern _, .written _ (Registry.intern_ne_missing ?_) hq⟩
      simp [Layout.container?]
    · obtain ⟨hr', hsame⟩ := v.addPushed_named l r hr
      exact ⟨hr', .other hother hsame⟩
  · next huse =>
    exact ⟨hr.intern _, .other (fun h => by simp [huse] at h) (v.sameWrites_addCandidate _)⟩
  · next huse =>
    obtain ⟨hr', hsame⟩ := v.refineElements_named l r hr
    exact ⟨hr', .other (fun h => by simp [huse] at h) hsame⟩

/-- A promise may stop waiting if the property it is about is filled. -/
theorem Tracks.resolve {done ps : List Promise} {q : Promise}
    (h : { v with promises := done ++ q :: ps }.Tracks names writes)
    (hfilled : ∀ w ∈ writes, q.use = .same → q.property = w.name →
      ∃ a ∈ v.added, a.name = w.name ∧ a.Filled) (kept : Bool) :
    { v with promises := done ++ { q with resolved := kept } :: ps }.Tracks names writes := by
  refine ⟨h.added, fun p hp => ?_, fun w hw hdecl => ?_⟩
  · rcases List.mem_append.mp hp with hp | hp
    · exact h.promises p (List.mem_append_left _ hp)
    · rcases List.mem_cons.mp hp with rfl | hp
      · exact h.promises q (by simp)
      · exact h.promises p (by simp [hp])
  · cases h.noted w hw hdecl with
    | dictionary h => exact .dictionary h
    | filled h => exact .filled h
    | waits h =>
      obtain ⟨p, hp, hwaits, huse, hname, hnode⟩ := h
      rcases List.mem_append.mp hp with hp | hp
      · exact .waits ⟨p, List.mem_append_left _ hp, hwaits, huse, hname, hnode⟩
      · rcases List.mem_cons.mp hp with rfl | hp
        · -- The write depended on the promise that stops waiting here.
          exact .filled (hfilled w hw huse hname)
        · exact .waits ⟨p, by simp [hp], hwaits, huse, hname, hnode⟩

/-- A promise that is used, kept by that or not, leaves no write without a trace. -/
theorem Tracks.applied (hwrites : ∀ w ∈ writes, w.name ≠ "") {done ps : List Promise} {q : Promise}
    (h : { v with promises := done ++ q :: ps }.Tracks names writes) (happlied : v.Applied q v')
    (kept : Bool) :
    { v' with promises := done ++ { q with resolved := kept } :: ps }.Tracks names writes := by
  cases happlied with
  | written l hl hq =>
    -- The property is written first; what the promise was needed for is then in its place.
    have hname : q.property ∈ names := h.promises q (by simp) hq
    refine Tracks.resolve (v := v.write q.property l) (h.write hname hl) (fun w _ _ hsame => ?_) kept
    rw [← hsame]
    exact v.exists_filled_write q.property hl
  | other hq hsame =>
    refine Tracks.resolve (h.congr ⟨hsame.decl, hsame.dictionary, hsame.added, rfl⟩) ?_ kept
    exact fun w hw huse hname => absurd (hname.symm.trans (hq huse)) (hwrites w hw)

end Variable

namespace Routine

/-- Shaping by a property of an allowed name keeps the names in records. -/
theorem shape_named {P : List String → Prop} {names : List String} (hP : Allows P names) (r : Routine)
    {property : String} (hproperty : property ∈ names) (l : Layout) :
    Keeps (Store.NamedBy P) (fun _ => True) (r.shape property l) := by
  unfold shape
  split
  · refine (Store.withRegistry_named (Q := fun _ => True) fun registry hr => ⟨?_, trivial⟩).bind
      fun _ _ => .pure trivial
    exact hr.extend hP _ "" (by simpa using hproperty) (by simp)
  · exact .pure trivial

end Routine

/-! ## Winners -/

namespace Registry

/-- An extension has the fields that are added. -/
theorem NamedBy.mem_names_extend {P : List String → Prop} {names : List String} {r : Registry}
    (h : r.NamedBy P) (hP : Allows P names) (hr : r.WellFormed)
    (hsealed : ∀ fields, P fields → ∀ name ∈ fields, Sealed name) (id : RecordId) (hint : String)
    {added : List Field} (hadded : ∀ name ∈ added.map (·.name), name ∈ names) {self : List String}
    (hself : ∀ name ∈ self, name ∈ names) {name : String}
    (hname : name ∈ added.map (·.name) ∨ name ∈ self) :
    name ∈ ((r.extend id hint added self).2.fields (r.extend id hint added self).1).map (·.name) := by
  have hextended : name ∈ (r.extendedFields id added self).map (·.name) :=
    mem_names_extendedFields.mpr (.inr hname)
  rcases extend_cases hr id hint added self with ⟨hempty, -⟩ | ⟨out, hout, heq⟩ | ⟨hnone, hint', heq⟩
  · simp only [Bool.and_eq_true, List.isEmpty_iff] at hempty
    simp [hempty.1, hempty.2] at hname
  · -- A record was found by its body alone, so its names must be read off the body.
    rw [heq, h.names_of_lookup hr hsealed (h.extendedFields hP id hadded hself) hout]
    exact hextended
  · rw [heq, fields_push r hr.ids, names_close]
    exact hextended

end Registry

namespace Variable

variable {P : List String → Prop} {names : List String} {writes : List PropertyWrite} {v : Variable}

/-- Going over a candidate leaves the names in records alone. -/
theorem keepCandidate_named (v : Variable) (kept : List Layout) (c : Layout) :
    Keeps (Registry.NamedBy P) (fun _ => True) (fun r => v.keepCandidate (kept, r) c) := by
  intro r hr
  unfold keepCandidate
  split
  · exact ⟨hr, trivial⟩
  · split
    · exact ⟨hr.intern _, trivial⟩
    · exact ⟨hr, trivial⟩

/-- Finding the candidates that survive leaves the names in records alone. -/
theorem survivors_named (v : Variable) : Keeps (Registry.NamedBy P) (fun _ => True) v.survivors := by
  have hfold (cs kept : List Layout) :
      Keeps (Registry.NamedBy P) (fun _ => True) (fun r => cs.foldl v.keepCandidate (kept, r)) := by
    induction cs generalizing kept with
    | nil => exact .pure trivial
    | cons c cs ih => exact fun r hr => ih _ _ (v.keepCandidate_named kept c r hr).1
  exact hfold v.candidates []

/-- The names that an extension of the winner adds. -/
theorem Tracks.of_mem_added (h : v.Tracks names writes) (keep : Added → Bool) :
    ∀ name ∈ (v.added.filter keep).map (·.name), name ∈ names := by
  intro name hname
  obtain ⟨a, ha, rfl⟩ := List.mem_map.mp hname
  exact h.added a (List.mem_of_mem_filter ha)

/-- Extending a record by tracked properties keeps the names in records. -/
theorem Tracks.extendRecord (h : v.Tracks names writes) (hP : Allows P names) (id : RecordId) :
    Keeps (Registry.NamedBy P) (fun _ => True) (v.extendRecord id) := by
  refine fun r hr => ⟨hr.extend hP id _ ?_ (h.of_mem_added _), trivial⟩
  rw [List.map_map]
  exact h.of_mem_added _

/-- Every recorded property with a layout is a field of the extended record. -/
theorem Tracks.mem_names_extendRecord (h : v.Tracks names writes) (hP : Allows P names)
    {r : Registry} (hr : r.WellFormed) (hnamed : r.NamedBy P)
    (hsealed : ∀ fields, P fields → ∀ name ∈ fields, Sealed name) (id : RecordId) {a : Added}
    (ha : a ∈ v.added) (hfilled : a.Filled) :
    a.name ∈ ((v.extendRecord id r).2.fields (v.extendRecord id r).1).map (·.name) := by
  refine hnamed.mem_names_extend hP hr hsealed id _ ?_ (h.of_mem_added _) ?_
  · rw [List.map_map]
    exact h.of_mem_added _
  · by_cases hself : a.self = true
    · exact .inr (List.mem_map.mpr ⟨a, List.mem_filter.mpr ⟨ha, hself⟩, rfl⟩)
    · refine .inl ?_
      rw [List.map_map]
      refine List.mem_map.mpr ⟨a, List.mem_filter.mpr ⟨ha, ?_⟩, rfl⟩
      simpa [hself] using hfilled.resolve_left hself

/-- A verdict on a variable keeps the names in records. -/
theorem Tracks.verdict (h : v.Tracks names writes) (hP : Allows P names) :
    Keeps (Registry.NamedBy P) (fun _ => True) v.verdict := by
  intro r hr
  refine ⟨?_, trivial⟩
  have hsurvivors := (v.survivors_named r hr).1
  rw [Variable.verdict]
  generalize v.survivors r = outcome at hsurvivors ⊢
  obtain ⟨_ | ⟨l, _ | ⟨l', rest⟩⟩, r'⟩ := outcome
  · exact hsurvivors
  · cases l with
    | record id => exact (h.extendRecord hP id r' hsurvivors).1
    | _ => exact hsurvivors
  · cases l <;> exact hsurvivors

/-- Picking a winner keeps the names in records and the tracked writes. -/
theorem Tracks.collapse (h : v.Tracks names writes) (hP : Allows P names) :
    Keeps (Registry.NamedBy P) (fun a => a.1.Tracks names writes) v.collapse := by
  intro r hr
  rw [collapse_eq]
  exact ⟨(h.verdict hP r hr).1, h.congr ⟨rfl, rfl, rfl, rfl⟩⟩

/-- A record that wins is the extension of the only candidate that counts. -/
theorem verdict_record {r : Registry} {id : RecordId} (h : (v.verdict r).1.winner = .record id) :
    ∃ base, (v.survivors r).1 = [.record base]
      ∧ v.extendRecord base (v.survivors r).2 = (id, (v.verdict r).2) := by
  rw [verdict] at h ⊢
  generalize v.survivors r = outcome at h ⊢
  obtain ⟨_ | ⟨l, _ | ⟨l', rest⟩⟩, r'⟩ := outcome
  · simp [judge] at h
  · cases l with
    | record base =>
      refine ⟨base, rfl, Prod.ext ?_ rfl⟩
      simpa [judge] using h
    | _ => simp [judge] at h
  · cases l <;> simp [judge] at h

/-- The fields of a record that wins are those of a candidate and the properties recorded with a
layout. A dictionary has no such winner. -/
theorem Tracks.fields_of_winner (h : v.Tracks names writes) (hP : Allows P names) {r : Registry}
    (hr : r.WellFormed) (hv : v.Known r) (hnamed : r.NamedBy P)
    (hsealed : ∀ fields, P fields → ∀ name ∈ fields, Sealed name)
    (hsettled : v.collapse r = ((v, false), r)) {id : RecordId} (hwinner : v.winner = .record id) :
    v.dictionary = false ∧ ∀ a ∈ v.added, a.Filled → a.name ∈ (r.fields id).map (·.name) := by
  rw [collapse_eq] at hsettled
  obtain ⟨hvariable, hregistry⟩ := Prod.mk.inj hsettled
  have hdecided : (v.verdict r).1.winner = .record id := by
    rw [← hwinner]
    exact congrArg (fun a => a.1.winner) hvariable
  -- Winners are settled, so extending the candidate answers the winner and changes nothing.
  obtain ⟨base, hkept, hextend⟩ := verdict_record hdecided
  rw [hregistry] at hextend
  constructor
  · by_contra hdictionary
    have hmarked : v.marked .dictionary = true := by simpa [marked] using hdictionary
    cases survivors_fit hmarked r (.record base) (by simp [hkept])
  · intro a ha hfilled
    have hsound := (survivors_runs hr hv).sound
    have hsurvivors := (v.survivors_named r hnamed).1
    have hname := h.mem_names_extendRecord hP hsound hsurvivors hsealed base ha hfilled
    rwa [hextend] at hname

end Variable

/-! ## Passes -/

namespace Subject

variable {P : List String → Prop} {s : Subject} {writes : List PropertyWrite} (hs : s.Named P)
  (hwrites : ∀ w ∈ writes, w.name ≠ "")

include hs hwrites

/-- Every step of a pass keeps track of writes. -/
theorem settles_tracks : s.Settles (Store.NamedBy P) (fun _ => True)
    (Variable.Tracks s.program.propertyNames writes)
    fun r => ∀ q ∈ r.retProps, q.property ∈ s.program.propertyNames where
  missing := trivial
  answer hview id := by
    obtain ⟨rfl, -, -⟩ := hview
    exact (upholds_named hs).answers.layoutOf id
  collapse hv := Store.withRegistry_named (hv.collapse hs.admits.toAllows)
  apply {v _ _ q} hv _ _ hthere := (Store.withRegistry_named (v.apply_named q hthere)).imp
    fun a happlied => hv.applied hwrites happlied a.2
  candidate hv l _ := hv.addCandidate l
  args _ _ _ := trivial
  withArgs hr _ _ := hr
  shape {r done ps q} hr l _ _ := by
    refine (Routine.shape_named hs.admits.toAllows r (hr q (by simp)) l).imp fun _ _ => ?_
    -- A property that is settled stays among the others under its name.
    simp only [List.mem_append, List.mem_cons] at hr ⊢
    rintro p (hp | rfl | hp)
    · exact hr p (.inl hp)
    · exact hr q (.inr (.inl rfl))
    · exact hr p (.inr (.inr hp))
  ret hr _ _ := hr
  retPromises hr _ := hr
  settle hr q' hq' := by
    obtain ⟨q, hq, rfl⟩ := List.mem_map.mp hq'
    exact hr q hq

/-- No number of passes makes the evidence forget a write. -/
theorem resolve_tracks (hcollect : s.collect.Tracks P s.program.propertyNames writes) (bound : Nat) :
    (s.resolve bound).state.Tracks P s.program.propertyNames writes :=
  (settles_tracks hs hwrites).resolve State.tracks_parts (Store.note_named s.program) hcollect bound

end Subject

/-! ## Results -/

/-- Final names keep the names of fields. -/
theorem Registry.NamedBy.finalize {P : List String → Prop} {r : Registry} (h : r.NamedBy P)
    (roots : List Layout) : (r.finalize roots).2.NamedBy P where
  fields record' hrecord' := by
    obtain ⟨record, hrecord, name, rfl⟩ := exists_of_mem_right (r.records_finalize roots) hrecord'
    exact h.fields record hrecord
  bodies key id hkey := by
    obtain ⟨fields, hbody, hfields, record, hrecord, hid, hsame⟩ := h.bodies key id hkey
    obtain ⟨_, hrenamed, name, rfl⟩ := exists_of_mem_right (r.records_finalize roots).flip hrecord
    exact ⟨fields, hbody, hfields, _, hrenamed, hid, hsame⟩

/-- A name among those of the fields is found. -/
theorem Registry.exists_field?_of_mem {r : Registry} {id : RecordId} {name : String}
    (h : name ∈ (r.fields id).map (·.name)) :
    ∃ record, r.record? id = some record ∧ (record.field? name).isSome = true := by
  rw [fields] at h
  cases hrecord : r.record? id with
  | none => simp [hrecord] at h
  | some record =>
    refine ⟨record, rfl, ?_⟩
    rw [hrecord, Option.map_some, Option.getD_some] at h
    simpa [Record.field?] using h

namespace Result

variable {P : List String → Prop} {s : Subject}

/-- The state behind a result tracks the writes that the walk tracked. -/
theorem finalState_tracks (hs : s.Named P) {writes : List PropertyWrite}
    (hwrites : ∀ w ∈ writes, w.name ≠ "")
    (hcollect : s.collect.Tracks P s.program.propertyNames writes) (bound : Nat) :
    (ofOutcome s (s.resolve bound)).state.Tracks P s.program.propertyNames writes := by
  obtain ⟨hstore, hvars, hretProps⟩ := Subject.resolve_tracks hs hwrites hcollect bound
  exact ⟨⟨hstore.registry.finalize _, hstore.literals⟩, hvars, hretProps⟩

/-- What a program admits holds of the names in the state behind a result. -/
theorem finalState_named (hs : s.Named P) (bound : Nat) :
    (ofOutcome s (s.resolve bound)).state.Tracks P s.program.propertyNames [] := by
  have hcollect := ((Subject.walks_tracks hs).collectNodes s.program.nodes.toList s.initialState
    (Subject.initialState_tracks P s _)).1
  exact finalState_tracks hs (by simp) hcollect bound

/-- A record that is shown for a name is the winner of the variable that the name refers to. -/
theorem winner_of_binding? {outcome : Subject.Outcome} {v : NodeId} {b : Binding} {id : RecordId}
    (hb : (ofOutcome s outcome).binding? v = some b) (hid : b.layout = .record id) :
    ∃ x ∈ (ofOutcome s outcome).state.vars, s.program.declaration v = some x.decl
      ∧ x.winner = .record id := by
  obtain ⟨x, hx, hdecl, -, rfl⟩ := exists_of_binding? hb
  refine ⟨x, hx, hdecl, ?_⟩
  rw [← hid]
  exact (Variable.layout_binding (by rw [hid]; rfl)).symm

end Result

/-- No write to a property is lost: when a run has converged, a variable that is a record has every
property that an assignment gives it, unless the assigned value has no layout in the end. -/
theorem infer_keeps_property_writes {source : Source} {script : Script} {p : Program}
    (hp : Program.ofScript source script = .ok p)
    (hnames : ∀ name ∈ p.propertyNames, name ≠ "" ∧ ' ' ∉ name.toList)
    {max : Int} {r : Result} (hr : infer p max = .ok r) (hconverged : r.converged = true)
    {n : Node} (hn : n ∈ p.nodes.toList) {v e : NodeId} {name : String}
    (hwrite : n.Writes p v name e) {b : Binding} (hb : r.binding? v = some b) {id : RecordId}
    (hid : b.layout = .record id) :
    (∃ record, r.state.registry.record? id = some record ∧ (record.field? name).isSome = true)
      ∨ (r.layoutOf e r.state.toStore).1 = .missing := by
  set s := Subject.of p
  have hnumbered : s.program.Numbered := Program.ofScript_numbered hp
  have hs : s.Named (· ⊆ p.propertyNames) := Subject.named_of p.admits_subset
  obtain ⟨bound, rfl⟩ : ∃ bound, r = Result.ofOutcome s (s.resolve bound) :=
    ⟨_, (infer_eq_ok_iff.mp hr).1⟩
  obtain ⟨x, hx, hdecl, hwinner⟩ := Result.winner_of_binding? hb hid
  -- The write was noted when it was met, and the trace is still there in the end.
  have hname : name ∈ p.propertyNames := by
    obtain ⟨target, htarget, haccessed, -⟩ := hwrite.access
    obtain ⟨id, -, hid⟩ := Option.bind_eq_some_iff.mp htarget
    exact Program.accessed_named hid haccessed
  have hcollect := Subject.collect_tracks hs hnumbered hn
    (Program.assignment_supported hp hn hwrite.kind) hwrite hdecl
  have htracks := Result.finalState_tracks hs (by simpa using (hnames name hname).1) hcollect bound
  -- In the end the state is a fixed point, in which every trace has its meaning.
  have hregular := Result.finalState_regular hnumbered bound
  obtain ⟨-, -, hends⟩ := Subject.resolve_ends hnumbered bound
  obtain ⟨hrest, hshaping⟩ := hends hconverged
  have hfixed := Subject.fixedPoint_of_atRest hnumbered hregular
    (hrest.withOther (Result.le_finalStore s _)) hshaping
  obtain ⟨hdictionary, hfields⟩ := (htracks.vars x hx).fields_of_winner hs.admits.toAllows
    hregular.wellFormed.store.registry (hregular.wellFormed.vars x hx) htracks.store.registry
    (fun _ hsubset name hname => .of_space_notMem (hnames name (hsubset hname)).2)
    (hfixed.winners x hx) hwinner
  cases (htracks.vars x hx).noted _ (List.mem_singleton_self _) rfl with
  | dictionary h => exact absurd (h.symm.trans hdictionary) (by simp)
  | filled h =>
    obtain ⟨a, ha, rfl, hfilled⟩ := h
    exact .inl (Registry.exists_field?_of_mem (hfields a ha hfilled))
  | waits h =>
    obtain ⟨q, hq, hwaits, huse, hproperty, rfl⟩ := h
    refine .inr ((hfixed.stuck x hx q hq hwaits).resolve_right fun hunkept => ?_)
    have hne : q.property ≠ "" := hproperty ▸ (hnames name hname).1
    simp [Variable.apply, huse, hne] at hunkept

/-- `let a = [1]; let x = {}; x["next"] = x; x.b = a;` -/
def Script.grownRecord : Script :=
  ⟨[declares "a" (arrayOf [numberOf "1"]), declares "x" (.object ⟨0, 0⟩ []),
    assigns (.bracket ⟨0, 0⟩ (nameOf "x") (.string ⟨0, 0⟩ "next")) (nameOf "x"),
    assigns (.dot ⟨0, 0⟩ (nameOf "x") "b") (nameOf "a")]⟩

/-- The write of `a`, node 19, to a property of `x`, node 18, waits for the layout of `a`. In the end it
is a field of record 3, beside the one in which the record holds itself. -/
theorem infer_keeps_property_writes_grownRecord :
    ∃ r, infer Script.grownRecord.program 64 = .ok r ∧ r.converged = true
      ∧ (∀ name ∈ Script.grownRecord.program.propertyNames, name ≠ "" ∧ ' ' ∉ name.toList)
      ∧ (∃ n ∈ Script.grownRecord.program.nodes.toList, n.Writes Script.grownRecord.program 18 "b" 19)
      ∧ (∃ b ∈ r.binding? 18, b.layout = .record 3)
      ∧ ∃ record, r.state.registry.record? 3 = some record
        ∧ (record.field? "b").isSome = true := by
  have hscript := Script.ofScript_eq_ok Script.grownRecord (by decide +kernel)
  have hnames : ∀ name ∈ Script.grownRecord.program.propertyNames,
      name ≠ "" ∧ ' ' ∉ name.toList := by
    decide +kernel
  have hrun : infer Script.grownRecord.program 64
      = .ok (runInference Script.grownRecord.program 64) :=
    infer_eq_ok_iff.mpr ⟨rfl, by decide +kernel⟩
  have hconverged : (runInference Script.grownRecord.program 64).converged = true := by
    decide +kernel
  have hwrites : ∃ n ∈ Script.grownRecord.program.nodes.toList,
      n.Writes Script.grownRecord.program 18 "b" 19 := by
    decide +kernel
  have hbinding : ∃ b ∈ (runInference Script.grownRecord.program 64).binding? 18,
      b.layout = .record 3 := by
    decide +kernel
  have hvalue : ((runInference Script.grownRecord.program 64).layoutOf 19
      (runInference Script.grownRecord.program 64).state.toStore).1 ≠ .missing := by
    decide +kernel
  obtain ⟨n, hn, hwrite⟩ := hwrites
  obtain ⟨b, hb, hid⟩ := hbinding
  have hfield :=
    infer_keeps_property_writes hscript hnames hrun hconverged hn hwrite hb hid
  exact ⟨_, hrun, hconverged, hnames, ⟨n, hn, hwrite⟩, ⟨b, hb, hid⟩, hfield.resolve_right hvalue⟩

end LayoutInference
