import Mathlib
import LayoutInference.Proofs.Evolution
import LayoutInference.Proofs.Shapes
import LayoutInference.Proofs.PropertyWrites

/-!
# Evidence about one property

An assignment `v.name = e` or `v["name"] = e` is evidence about one property of `v`. Collecting it
changes nothing but what is recorded of that property and, where the value must be put off, adds a
promise (`Subject.addProperty_alters`). Promises keep their places, so the promise can be followed
through all passes of the run.

A promise tells by its name what it is about, and the empty name stands for the variable itself. So
`v[""] = e` reserves a place for the property without a name, but the promise that it leaves is about
`v`: keeping it adds the layout of `e` to the candidates of `v`. Under every other name a promise stays
with its property: `propertyEvidence_stays`.
-/

namespace LayoutInference

/-! ## Frames -/

/-- Updating a property leaves the other properties alone. -/
theorem Added.filter_update (name : String) {change : Added → Added} {fresh : Added}
    (hname : ∀ a, (change a).name = a.name) (hfresh : fresh.name = name) (added : List Added) :
    (update name change fresh added).filter (·.name ≠ name) = added.filter (·.name ≠ name) := by
  induction added with
  | nil => simp [update, hfresh]
  | cons a as ih =>
    rw [update]
    split
    · next ha => simp [hname, ha]
    · simp only [List.filter_cons, ih]

namespace Variable

/-- Of all that is known about the variable, only what is recorded of the property `name` differs. -/
structure AltersOnly (name : String) (v v' : Variable) : Prop where
  rest : v' = { v with added := v'.added }
  others : v'.added.filter (·.name ≠ name) = v.added.filter (·.name ≠ name)

namespace AltersOnly

/-- A variable alters nothing of itself. -/
theorem refl (name : String) (v : Variable) : v.AltersOnly name v := ⟨rfl, rfl⟩

/-- Reserving a property alters that property alone. -/
theorem reserve (name : String) (v : Variable) : v.AltersOnly name (v.reserve name) :=
  ⟨rfl, Added.filter_update name (fun _ => rfl) rfl v.added⟩

/-- Writing the owner to a property alters that property alone. -/
theorem writeSelf (name : String) (v : Variable) : v.AltersOnly name (v.writeSelf name) :=
  ⟨rfl, Added.filter_update name Added.name_writeSelf rfl v.added⟩

/-- Writing a layout to a property alters that property alone. -/
theorem write (name : String) (l : Layout) (v : Variable) : v.AltersOnly name (v.write name l) :=
  ⟨rfl, Added.filter_update name (Added.name_write · l) rfl v.added⟩

/-- Altering a property leaves the candidates alone. -/
theorem candidates {name : String} {v v' : Variable} (h : v.AltersOnly name v') :
    v'.candidates = v.candidates := by
  rw [h.rest]

end AltersOnly

/-- Adding a candidate changes nothing exactly if it is not accepted. -/
theorem candidates_addCandidate_iff (v : Variable) (l : Layout) :
    (v.addCandidate l).candidates = v.candidates ↔ v.accepts l = false := by
  rw [addCandidate]
  cases v.accepts l <;> simp

/-! ## Keeping one promise -/

/-- The variable after the first `i` of its promises were gone through in a pass. -/
def keptUpTo (view : View) (v : Variable) (i : Nat) : StateM Store Variable := do
  let (v, _, _) ← v.dischargePromises view (v.promises.take i)
  return v

/-- The promises of two lists are gone through one list after the other. -/
theorem dischargePromises_append (view : View) (v : Variable) (ps qs : List Promise) :
    v.dischargePromises view (ps ++ qs) = (do
      let (v, ps, progressed) ← v.dischargePromises view ps
      let (v, qs, progressedLater) ← v.dischargePromises view qs
      return (v, ps ++ qs, progressed || progressedLater)) := by
  induction ps generalizing v with
  | nil => rfl
  | cons p ps ih =>
    rw [List.cons_append, dischargePromises_cons, dischargePromises_cons, bind_assoc]
    refine bind_congr fun l => ?_
    split
    · simp only [ih, bind_assoc, pure_bind, List.cons_append]
    · simp only [ih, bind_assoc, pure_bind, List.cons_append, Bool.or_assoc]

/-- Going through one more promise asks for its layout and uses it, if there is one. -/
theorem keptUpTo_succ (view : View) {v : Variable} {i : Nat} {q : Promise}
    (hq : v.promises[i]? = some q) :
    v.keptUpTo view (i + 1) = (do
      let v ← v.keptUpTo view i
      let l ← view.asked q
      if l = .missing then return v
      else
        let (v, _) ← Store.withRegistry (v.apply q l)
        return v) := by
  rw [keptUpTo, keptUpTo, List.take_add_one, hq, Option.toList_some, dischargePromises_append]
  simp only [bind_assoc, pure_bind]
  refine bind_congr fun a => ?_
  rw [dischargePromises_cons, bind_assoc]
  refine bind_congr fun l => ?_
  split <;> rfl

/-- What keeping a promise about a property does to a variable: `v` and `v'` are the variable before and
after, and `l` is the layout that the promise asked for. -/
structure KeptWithin (name : String) (l : Layout) (v v' : Variable) : Prop where
  property : name ≠ "" → v.AltersOnly name v'
  whole : name = "" → v' = v.addCandidate l
  candidates : v'.candidates = v.candidates ↔ name ≠ "" ∨ v.accepts l = false

namespace KeptWithin

/-- A promise without a layout does nothing. -/
theorem missing (name : String) (v : Variable) : KeptWithin name .missing v v where
  property _ := .refl name v
  whole _ := rfl
  candidates := by simp [accepts]

/-- A promise about the variable itself adds a candidate. -/
theorem addCandidate (l : Layout) (v : Variable) : KeptWithin "" l v (v.addCandidate l) where
  property h := absurd rfl h
  whole _ := rfl
  candidates := by simp [candidates_addCandidate_iff]

/-- A promise about a property writes to that property. -/
theorem write {name : String} (hname : name ≠ "") (l : Layout) (v : Variable) :
    KeptWithin name l v (v.write name l) where
  property _ := .write name l v
  whole h := absurd h hname
  candidates := iff_of_true (AltersOnly.write name l v).candidates (.inl hname)

/-- A promise for the same layout does what one about its property may do. -/
theorem apply {q : Promise} (huse : q.use = .same) (l : Layout) (v : Variable) (r : Registry) :
    KeptWithin q.property l v (v.apply q l r).1.1 := by
  rw [Variable.apply, huse]
  by_cases hname : q.property = ""
  · simp only [hname, ne_eq, not_true_eq_false, if_false]
    exact .addCandidate l v
  · simp only [ne_eq, hname, not_false_eq_true, if_true]
    exact .write hname l v

end KeptWithin

/-- The promise at place `i` waits for the layout of `e` and is about the property `name`. When a pass
comes to it, it does to the variable what such a promise may do. -/
def PromisedAt (view : View) (i : Nat) (name : String) (e : NodeId) (v : Variable) : Prop :=
  ∃ q, v.promises[i]? = some q ∧ q = { node := e, property := name, resolved := q.resolved }
    ∧ ∀ store, KeptWithin name (view.asked q (v.keptUpTo view i store).2).1
      (v.keptUpTo view i store).1 (v.keptUpTo view (i + 1) store).1

/-- A promise at a place is promised there, whatever pass comes to it. -/
theorem promisedAt_of_getElem? (view : View) {v : Variable} {i : Nat} {e : NodeId} {name : String}
    {resolved : Bool} (hq : v.promises[i]? = some { node := e, property := name, resolved }) :
    v.PromisedAt view i name e := by
  refine ⟨_, hq, rfl, fun store => ?_⟩
  rw [keptUpTo_succ view hq, bind_apply, bind_apply]
  generalize v.keptUpTo view i store = reached
  generalize view.asked _ reached.2 = asked
  split
  · next hmissing =>
    rw [hmissing]
    exact .missing name reached.1
  · exact KeptWithin.apply (q := { node := e, property := name, resolved }) rfl asked.1 reached.1
      asked.2.registry

end Variable

/-! ## Recording a write -/

namespace Subject

/-- The state in which the walk comes to the node behind `before`. -/
def reached (s : Subject) (before : List Node) : State :=
  (before.forM s.collectNode s.initialState).2

/-- The state in which promises are kept after `k` passes. -/
def collapsed (s : Subject) (k : Nat) : State := (collapsePhase (s.after s.collect k)).2

variable {s : Subject} {v e : NodeId} {name : String} {n : Node} {x : Variable}

/-- A write to a property of a variable that is no dictionary: with every variable declared where `x`
is, only what is recorded of the property differs, and a promise may be added. -/
theorem addProperty_alters (hx : x.dictionary = false) (name : String) (e : NodeId) (st : State) :
    ∃ (change : Variable → Variable) (more : List Promise),
      (∀ u : Variable, u.AltersOnly name (change u))
      ∧ (more = [] ∨ more = [{ node := e, property := name }])
      ∧ (s.addProperty x name e st).2.routines = st.routines
      ∧ (s.addProperty x name e st).2.vars = st.vars.map fun u =>
        if u.decl = x.decl then { change u with promises := u.promises ++ more } else u := by
  have hreads : (s.readsOwner x.decl (some e) st).2 = st := by
    rw [readsOwner, bind_apply, owner?]
    cases s.program.at? (some e) with
    | none => rfl
    | some value =>
      simp only
      split <;> rfl
  rw [addProperty, if_neg (by simp [hx]), bind_apply, hreads]
  split
  · refine ⟨(·.writeSelf name), [], .writeSelf name, .inl rfl, rfl, ?_⟩
    simp only [List.append_nil]
    rfl
  · rw [bind_apply]
    cases (s.derived name e st).1 with
    | none => exact ⟨(·.reserve name), [_], .reserve name, .inr rfl, rfl, rfl⟩
    | some l =>
      refine ⟨(·.write name l), [], .write name l, .inl rfl, rfl, ?_⟩
      simp only [List.append_nil]
      rfl

/-- Every variable has one place in the evidence, at any time of the walk. -/
theorem reached_nodup_decls (hp : s.program.Numbered) (ns : List Node) :
    ((s.reached ns).vars.map (·.decl)).Nodup := by
  rw [reached, ((walks_collects hp).collectNodes ns s.initialState initialState_wellFormed).grows.decls]
  have hdeclarations : s.program.declarations.Nodup :=
    (List.filter_sublist.map _).nodup hp.nodup_map_id
  rw [initialState, List.map_filterMap]
  refine hdeclarations.filterMap fun id id' decl hdecl hdecl' => ?_
  simp only [Option.map_map, Option.mem_def, Option.map_eq_some_iff, Function.comp_apply] at hdecl hdecl'
  obtain ⟨_, -, rfl⟩ := hdecl
  obtain ⟨_, -, rfl⟩ := hdecl'
  rfl

/-- The step at an assignment to a property of a variable. -/
theorem collectNode_of_writes (hp : s.program.Numbered) (hwrite : n.Writes s.program v name e)
    (hsupported : n.unsupported = false) {st : State} (hx : (st.view s).variableOf? v = some x) :
    s.collectNode n st = s.addProperty x name e st := by
  obtain ⟨owner, howner, hidentifier⟩ := hwrite.owner
  rw [collectNode, hsupported, hwrite.kind]
  simp only [Bool.false_eq_true, if_false]
  rw [collectAssignment_of_writes hwrite, bind_apply, owner?_apply hp howner hidentifier, hx]

/-- From every step of the walk on, variables evolve until the promises of a pass are kept. -/
theorem collapsed_evolves {before after : List Node}
    (hnodes : s.program.nodes.toList = before ++ n :: after) (k : Nat) :
    (s.collectNode n (s.reached before)).2.Evolves (s.collapsed k) := by
  rw [collapsed, collect_eq_of_split hnodes]
  refine (s.walks_evolving.collectNodes after _).trans ?_
  exact (after_evolves _ k).trans (s.collapsePhase_evolves _)

end Subject

/-- **Evidence about a property stays with the property**, if the property has a name. Take any
assignment `v.name = e` or `v["name"] = e` of a program, where `v` is a variable that is no dictionary
when the walk comes to it. Collecting the assignment leaves all functions and all other variables as
they are; of the variable only what is recorded of the property `name` differs, and at most the promise
for `e` is added. The promise stands at its place in every pass, and keeping it there alters only the
property again, unless the name is empty: then the layout of `e` is added to the candidates. -/
theorem propertyEvidence_stays {source : Source} {script : Script} {p : Program}
    (hp : Program.ofScript source script = .ok p) {before after : List Node} {n : Node}
    (hnodes : p.nodes.toList = before ++ n :: after) {v e : NodeId} {name : String}
    (hwrite : n.Writes p v name e) {x : Variable}
    (hx : (((Subject.of p).reached before).view (Subject.of p)).variableOf? v = some x)
    (hdictionary : x.dictionary = false) :
    ∃ (y : Variable) (more : List Promise), x.AltersOnly name y
      ∧ ((Subject.of p).collectNode n ((Subject.of p).reached before)).2.routines =
        ((Subject.of p).reached before).routines
      ∧ ((Subject.of p).collectNode n ((Subject.of p).reached before)).2.vars =
        ((Subject.of p).reached before).vars.map (fun u =>
          if u.decl = x.decl then { y with promises := x.promises ++ more } else u)
      ∧ (more = [] ∨ more = [{ node := e, property := name }]
        ∧ ∀ k, ∀ w ∈ ((Subject.of p).collapsed k).vars, w.decl = x.decl →
          w.PromisedAt (((Subject.of p).collapsed k).view (Subject.of p)) x.promises.length name e) := by
  set s := Subject.of p
  have hnumbered : s.program.Numbered := Program.ofScript_numbered hp
  have hn : n ∈ p.nodes.toList := hnodes ▸ List.mem_append_right _ (List.mem_cons_self ..)
  have hstep := Subject.collectNode_of_writes hnumbered hwrite
    (Program.assignment_supported hp hn hwrite.kind) hx
  obtain ⟨change, more, halters, hmore, hroutines, hvars⟩ :=
    Subject.addProperty_alters (s := s) hdictionary name e (s.reached before)
  rw [← hstep] at hroutines hvars
  have honly (u : Variable) (hu : u ∈ (s.reached before).vars) (hsame : u.decl = x.decl) : u = x := by
    obtain ⟨_, -, hfind⟩ := Option.bind_eq_some_iff.mp hx
    exact List.inj_on_of_nodup_map (Subject.reached_nodup_decls hnumbered before) hu
      (List.mem_of_find?_eq_some hfind) hsame
  refine ⟨change x, more, halters x, hroutines, hvars.trans (List.map_congr_left fun u hu => ?_), ?_⟩
  · by_cases hsame : u.decl = x.decl
    · rw [honly u hu hsame]
    · rw [if_neg hsame, if_neg hsame]
  · refine hmore.imp_right fun hmore => ⟨hmore, fun k w hw hdecl => ?_⟩
    -- What `w` was right after the assignment: the only variable declared there.
    obtain ⟨u', hu', hevolves⟩ := Subject.collapsed_evolves hnodes k w hw
    rw [hvars] at hu'
    obtain ⟨u, hu, rfl⟩ := List.mem_map.mp hu'
    by_cases hsame : u.decl = x.decl
    · rw [if_pos hsame, honly u hu hsame, hmore] at hevolves
      obtain ⟨resolved, hlater⟩ := hevolves.promises x.promises.length _ List.getElem?_concat_length
      exact Variable.promisedAt_of_getElem? _ hlater
    · rw [if_neg hsame] at hevolves
      exact absurd (hevolves.decl.symm.trans hdecl) hsame

/-- `let x = {q: 1}; let v = {}; v["name"] = x;` -/
def Script.copiedInto (name : String) : Script :=
  ⟨[declares "x" (.object ⟨0, 0⟩ [memberOf "q" (numberOf "1")]), declares "v" (.object ⟨0, 0⟩ []),
    assigns (.bracket ⟨0, 0⟩ (nameOf "v") (.string ⟨0, 0⟩ name)) (nameOf "x")]⟩

/-- Node 11 writes to the property `p` of `v`, which is declared at node 8. The layout of `x` is not
known there, so the write leaves a promise. -/
theorem propertyEvidence_stays_copiedInto :
    ∃ n ∈ (Script.copiedInto "p").program.nodes.toList,
      n.Writes (Script.copiedInto "p").program 13 "p" 15
      ∧ ∀ k, ∀ w ∈ ((Subject.of (Script.copiedInto "p").program).collapsed k).vars, w.decl = 8 →
        w.PromisedAt (((Subject.of (Script.copiedInto "p").program).collapsed k).view
          (Subject.of (Script.copiedInto "p").program)) 0 "p" 15 := by
  have hscript := Script.ofScript_eq_ok (Script.copiedInto "p") (by decide +kernel)
  have hrecords : ∃ n ∈ (Script.copiedInto "p").program.nodes.toList[10]?,
      n.Writes (Script.copiedInto "p").program 13 "p" 15
      ∧ ∃ x ∈ (((Subject.of (Script.copiedInto "p").program).reached
            ((Script.copiedInto "p").program.nodes.toList.take 10)).view
          (Subject.of (Script.copiedInto "p").program)).variableOf? 13,
        x.dictionary = false ∧ x.decl = 8 ∧ x.promises = []
          ∧ ∃ u ∈ ((Subject.of (Script.copiedInto "p").program).collectNode n
              ((Subject.of (Script.copiedInto "p").program).reached
                ((Script.copiedInto "p").program.nodes.toList.take 10))).2.vars,
            u.decl = 8 ∧ u.promises ≠ [] := by
    decide +kernel
  generalize (Script.copiedInto "p").program = p at hscript hrecords ⊢
  obtain ⟨n, hn, hwrite, x, hx, hdictionary, hdecl, hpromises, u, hu, hdecl', hpromised⟩ := hrecords
  obtain ⟨hlt, hget⟩ := List.getElem?_eq_some_iff.mp (Option.mem_def.mp hn)
  have hnodes : p.nodes.toList = p.nodes.toList.take 10 ++ n :: p.nodes.toList.drop 11 := by
    rw [← hget, ← List.drop_eq_getElem_cons hlt, List.take_append_drop]
  obtain ⟨y, more, -, -, hvars, hmore⟩ :=
    propertyEvidence_stays hscript hnodes hwrite hx hdictionary
  rw [hdecl, hpromises] at hmore hvars
  refine ⟨n, List.mem_of_getElem? (Option.mem_def.mp hn), hwrite, ?_⟩
  rcases hmore with rfl | ⟨-, hkept⟩
  · rw [hvars] at hu
    obtain ⟨u', -, rfl⟩ := List.mem_map.mp hu
    by_cases hsame : u'.decl = 8
    · rw [if_pos hsame] at hpromised
      exact absurd rfl hpromised
    · rw [if_neg hsame] at hdecl'
      exact absurd hdecl' hsame
  · exact hkept

/-- Under the empty name the first pass adds the record of `x` to the candidates of `v`, which is
universal in the end. -/
theorem unnamedProperty_leaves :
    (∃ n ∈ (Script.copiedInto "").program.nodes.toList,
        n.Writes (Script.copiedInto "").program 13 "" 15)
      ∧ (∃ w ∈ ((Subject.of (Script.copiedInto "").program).collapsed 0).vars, w.decl = 8
        ∧ w.added = [{ name := "" }] ∧ w.promises = [{ node := 15, property := "" }]
        ∧ w.candidates = [.record 2]
        ∧ (w.keptUpTo (((Subject.of (Script.copiedInto "").program).collapsed 0).view
            (Subject.of (Script.copiedInto "").program)) 1
          ((Subject.of (Script.copiedInto "").program).collapsed 0).toStore).1.candidates =
            [.record 2, .record 1])
      ∧ ∃ b ∈ (runInference (Script.copiedInto "").program 64).binding? 13, b.layout = .universal := by
  decide +kernel

end LayoutInference
