import Mathlib
import LayoutInference.Proofs.Evolution
import LayoutInference.Proofs.WrittenFields

/-!
# Use decides the kind of layout

A call that makes an array longer or shorter marks its variable as growing, and a write under a
computed key marks it as a dictionary. Evidence that does not fit a mark may come before it and after
it: from literals, from promises that are kept and from arguments of calls. It never counts, because

* no step of a run takes a mark back (`State.Evolving.keeps_marked`), and
* winners are picked under the marks: `Variable.winner_verdict_fits`.

So in every run, cut off or not, the use decides: `infer_fits_use`.
-/

namespace LayoutInference

/-! ## Marks -/

/-- The variable declared at `decl` has a mark. -/
def State.Marked (decl : NodeId) (m : Mark) (st : State) : Prop :=
  ∀ v ∈ st.vars, v.decl = decl → v.marked m = true

namespace State

variable {decl : NodeId} {m : Mark}

/-- A mark stays as variables evolve. -/
theorem Marked.evolves {st st' : State} (h : st.Marked decl m) (hevolves : st.Evolves st') :
    st'.Marked decl m := by
  intro v' hv' hdecl
  obtain ⟨v, hv, hkeeps⟩ := hevolves v' hv'
  exact hkeeps.marks m (h v hv (hkeeps.decl.symm.trans hdecl))

/-- What lets variables evolve keeps their marks. -/
theorem Evolving.keeps_marked {α : Type} {step : StateM State α} (h : Evolving step) :
    Keeps (Marked decl m) (fun _ => True) step :=
  fun st hst => ⟨hst.evolves (h st), trivial⟩

/-- A change that gives a variable the mark. -/
theorem changeVariable_marks {change : Variable → Variable}
    (hchange : ∀ v : Variable, (change v).marked m = true) :
    Leads (fun _ => True) (Marked decl m) (changeVariable decl change) := by
  intro st _ v' hv' hsame
  obtain ⟨v, -, rfl⟩ := List.mem_map.mp hv'
  by_cases hv : v.decl = decl
  · rw [if_pos hv]
    exact hchange v
  · rw [if_neg hv] at hsame
    exact absurd hsame hv

end State

/-! ## Use -/

/-- The node is a call `x.push(…)`, `x.unshift(…)`, `x.pop(…)` or `x.shift(…)` for an identifier `x`. -/
structure Node.Resizes (p : Program) (x : NodeId) (n : Node) : Prop where
  kind : n.kind = .call
  method : ∃ callee ∈ p.at? n.target, callee.kind = .propertyAccess ∧ callee.target = some x
    ∧ callee.name ∈ ["push", "unshift", "pop", "shift"]
  owner : ∃ identifier ∈ p.node? x, identifier.kind = .identifier

/-- The node is an assignment `x[k] = e` for an identifier `x` and a computed key `k`: neither a text,
nor a number by its form or by its apparent type. -/
structure Node.WritesKeyed (s : Subject) (x : NodeId) (n : Node) : Prop where
  kind : n.kind = .assign
  plain : n.value = "="
  value : n.expr ≠ none
  access : ∃ target ∈ s.program.at? n.target, target.kind = .elementAccess ∧ target.target = some x
    ∧ ∃ key ∈ s.program.at? target.expr, key.kind ≠ .string ∧ key.kind ≠ .number
      ∧ (s.apparent key.id).isNumber = false
  owner : ∃ identifier ∈ s.program.node? x, identifier.kind = .identifier

instance (p : Program) (x : NodeId) : DecidablePred (Node.Resizes p x) := fun n =>
  decidable_of_iff (n.kind = .call
      ∧ (∃ callee ∈ p.at? n.target, callee.kind = .propertyAccess ∧ callee.target = some x
        ∧ callee.name ∈ ["push", "unshift", "pop", "shift"])
      ∧ ∃ identifier ∈ p.node? x, identifier.kind = .identifier)
    ⟨fun ⟨h₁, h₂, h₃⟩ => ⟨h₁, h₂, h₃⟩, fun ⟨h₁, h₂, h₃⟩ => ⟨h₁, h₂, h₃⟩⟩

instance (s : Subject) (x : NodeId) : DecidablePred (Node.WritesKeyed s x) := fun n =>
  decidable_of_iff (n.kind = .assign ∧ n.value = "=" ∧ n.expr ≠ none
      ∧ (∃ target ∈ s.program.at? n.target, target.kind = .elementAccess ∧ target.target = some x
        ∧ ∃ key ∈ s.program.at? target.expr, key.kind ≠ .string ∧ key.kind ≠ .number
          ∧ (s.apparent key.id).isNumber = false)
      ∧ ∃ identifier ∈ s.program.node? x, identifier.kind = .identifier)
    ⟨fun ⟨h₁, h₂, h₃, h₄, h₅⟩ => ⟨h₁, h₂, h₃, h₄, h₅⟩,
      fun ⟨h₁, h₂, h₃, h₄, h₅⟩ => ⟨h₁, h₂, h₃, h₄, h₅⟩⟩

namespace Subject

variable {s : Subject} {x decl : NodeId} {m : Mark} {n : Node}

section Steps

variable (hp : s.program.Numbered) (hdecl : s.program.declaration x = some decl)

include hp hdecl

/-- A step that marks the variable an identifier refers to. Where there is none, nothing has to have the
mark, and variables only have to evolve. -/
theorem owner?_marks (howner : ∃ identifier ∈ s.program.node? x, identifier.kind = .identifier)
    {f : Option Variable → StateM State Unit}
    (hevolving : State.Evolving (s.owner? (some x) >>= f))
    (hsome : ∀ v, v.decl = decl → Leads (fun _ => True) (State.Marked decl m) (f (some v))) :
    Leads (fun _ => True) (State.Marked decl m) (s.owner? (some x) >>= f) := by
  obtain ⟨identifier, hidentifier, hkind⟩ := howner
  intro st _
  cases hx : (st.view s).variableOf? x with
  | none =>
    have hmarked : st.Marked decl m :=
      fun v hv hsame => absurd hsame (variableOf?_eq_none hdecl hx v hv)
    exact hmarked.evolves (hevolving st)
  | some v =>
    rw [bind_apply, owner?_apply hp hidentifier hkind, hx]
    exact hsome v (variableOf?_eq_some hdecl hx) st trivial

/-- A call that resizes an array marks its variable as growing. -/
theorem collectCall_marks (huse : n.Resizes s.program x) :
    Leads (fun _ => True) (State.Marked decl .growing) (s.collectCall n) := by
  obtain ⟨callee, hcallee, hkind, htarget, hname⟩ := huse.method
  rw [Option.mem_def] at hcallee
  have hwalks := s.walks_evolving
  have hevolving := hwalks.collectMethodCall n callee
  have hgrowing (v : Variable) (hv : v.decl = decl) : Leads (fun _ => True)
      (State.Marked decl .growing) (State.changeVariable v.decl fun v => { v with growing := true }) :=
    hv ▸ State.changeVariable_marks fun _ => rfl
  have hpush (v : Variable) (hv : v.decl = decl) : Leads (fun _ => True)
      (State.Marked decl .growing) (s.addPush v n.items.head?) := by
    refine Leads.bind (R := fun _ => True) (hgrowing v hv) fun _ => ?_
    cases n.items.head? with
    | none => exact (hwalks.pure ()).keeps_marked
    | some value => exact (hwalks.pushed v.decl value).keeps_marked
  rw [collectCall, hcallee]
  simp only [if_pos hkind]
  simp only [List.mem_cons, List.not_mem_nil, or_false] at hname
  rcases hname with hname | hname | hname | hname <;>
    simp only [collectMethodCall, hname, htarget] at hevolving ⊢
  · exact owner?_marks hp hdecl huse.owner hevolving hpush
  · exact owner?_marks hp hdecl huse.owner hevolving hpush
  · exact owner?_marks hp hdecl huse.owner hevolving hgrowing
  · exact owner?_marks hp hdecl huse.owner hevolving hgrowing

/-- A write under a computed key marks its variable as a dictionary. -/
theorem collectAssignment_marks (huse : n.WritesKeyed s x) :
    Leads (fun _ => True) (State.Marked decl .dictionary) (s.collectAssignment n) := by
  obtain ⟨target, htarget, hkind, howner, key, hkey, hstring, hnumber, happarent⟩ := huse.access
  obtain ⟨e, he⟩ := Option.ne_none_iff_exists'.mp huse.value
  rw [Option.mem_def] at htarget hkey
  have hwalks := s.walks_evolving
  have hevolving := hwalks.collectAssignment n
  simp only [collectAssignment, huse.plain, ne_eq, not_true_eq_false, if_false, htarget, he, hkind,
    howner, hkey] at hevolving ⊢
  refine owner?_marks hp hdecl huse.owner hevolving fun v hv => ?_
  simp only [hstring, hnumber, happarent, decide_false, Bool.or_self, Bool.false_eq_true, if_false]
  refine Leads.bind ?_ fun _ => (hwalks.keyed v.decl e).keeps_marked
  exact hv ▸ State.changeVariable_marks (·.marked_makeDictionary)

end Steps

/-- The mark that one node gives is there when the walk is over. -/
theorem collect_marked (hn : n ∈ s.program.nodes.toList)
    (hmarks : Leads (fun _ => True) (State.Marked decl m) (s.collectNode n)) :
    s.collect.Marked decl m :=
  collect_leads hn (fun _ _ _ => ⟨trivial, trivial⟩) hmarks
    (fun ns => (s.walks_evolving.collectNodes ns).keeps_marked) trivial

/-- A mark that the walk gives is there in the end. -/
theorem resolve_marked (h : s.collect.Marked decl m) (bound : Nat) :
    (s.resolve bound).state.Marked decl m :=
  h.evolves (s.resolve_evolves bound)

end Subject

/-! ## Results -/

/-- The layout that is shown for a variable fits its marks. -/
theorem Result.layout_fits {s : Subject} (hp : s.program.Numbered) {bound : Nat} {x : NodeId}
    {b : Binding} (hb : (ofOutcome s (s.resolve bound)).binding? x = some b) {m : Mark}
    (hmarked : ∀ decl, s.program.declaration x = some decl → s.collect.Marked decl m) :
    m.excludes b.layout = false := by
  obtain ⟨v, hv, hdecl, -, rfl⟩ := exists_of_binding? hb
  have hm := Subject.resolve_marked (hmarked v.decl hdecl) bound v hv rfl
  obtain ⟨hregular, hsettled, -⟩ := Subject.resolve_ends hp bound
  have hwinner := (hsettled v hv).winner_eq hregular.wellFormed.store.registry
  rw [Variable.binding]
  split
  · cases m <;> rfl
  · rw [hwinner]
    exact Variable.winner_verdict_fits hm _

/-- Use decides the kind of layout, wherever it stands in the program and whatever else is known: a
variable whose elements are pushed or popped is no array of fixed length, and a variable that is
written under a computed key is no record. -/
theorem infer_fits_use {source : Source} {script : Script} {p : Program}
    (hp : Program.ofScript source script = .ok p) {max : Int} {r : Result}
    (hr : infer p max = .ok r) {n : Node} (hn : n ∈ p.nodes.toList) {x : NodeId} {b : Binding}
    (hb : r.binding? x = some b) :
    (n.Resizes p x → ∀ elem capacity, b.layout ≠ .fixed elem capacity)
      ∧ (n.WritesKeyed (Subject.of p) x → ∀ id, b.layout ≠ .record id) := by
  set s := Subject.of p
  have hnumbered : s.program.Numbered := Program.ofScript_numbered hp
  obtain ⟨bound, rfl⟩ : ∃ bound, r = Result.ofOutcome s (s.resolve bound) :=
    ⟨_, (infer_eq_ok_iff.mp hr).1⟩
  constructor
  -- The call marks the variable while evidence is collected, and the mark is kept to the end.
  · intro huse elem capacity hlayout
    have hsupported := Program.supported_of_kind hp hn (by simp [huse.kind])
    have hfits := Result.layout_fits hnumbered hb (m := .growing) fun decl hdecl => by
      refine Subject.collect_marked hn ?_
      rw [Subject.collectNode, hsupported, huse.kind]
      exact Subject.collectCall_marks hnumbered hdecl huse
    rw [hlayout] at hfits
    cases hfits
  · intro huse id hlayout
    have hsupported := Program.supported_of_kind hp hn (by simp [huse.kind])
    have hfits := Result.layout_fits hnumbered hb (m := .dictionary) fun decl hdecl => by
      refine Subject.collect_marked hn ?_
      rw [Subject.collectNode, hsupported, huse.kind]
      exact Subject.collectAssignment_marks hnumbered hdecl huse
    rw [hlayout] at hfits
    cases hfits

/-- `let x; x.pop(); x = [1, 2]; let o; o[x] = 1; o = {b: x};` -/
def Script.usedFirst : Script :=
  ⟨[.lexical ⟨0, 0⟩ false [.mk (.name ⟨0, 0⟩ "x") none],
    .expression ⟨0, 0⟩ (.call ⟨0, 0⟩ (.dot ⟨0, 0⟩ (nameOf "x") "pop") []),
    assigns (nameOf "x") (arrayOf [numberOf "1", numberOf "2"]),
    .lexical ⟨0, 0⟩ false [.mk (.name ⟨0, 0⟩ "o") none],
    assigns (.bracket ⟨0, 0⟩ (nameOf "o") (nameOf "x")) (numberOf "1"),
    assigns (nameOf "o") (.object ⟨0, 0⟩ [memberOf "b" (nameOf "x")])]⟩

/-- An array of fixed length and a record are the last that is assigned. The pop of `x`, node 7, and the
write to `o`, node 19, which stand before, decide all the same. -/
theorem infer_fits_use_usedFirst :
    ∃ r, infer Script.usedFirst.program 64 = .ok r
      ∧ (∃ n ∈ Script.usedFirst.program.nodes.toList, n.Resizes Script.usedFirst.program 7)
      ∧ (∃ b ∈ r.binding? 7, ∀ elem capacity, b.layout ≠ .fixed elem capacity)
      ∧ (∃ n ∈ Script.usedFirst.program.nodes.toList,
        n.WritesKeyed (Subject.of Script.usedFirst.program) 19)
      ∧ ∃ b ∈ r.binding? 19, ∀ id, b.layout ≠ .record id := by
  have hscript := Script.ofScript_eq_ok Script.usedFirst (by decide +kernel)
  have hrun : infer Script.usedFirst.program 64 = .ok (runInference Script.usedFirst.program 64) :=
    infer_eq_ok_iff.mpr ⟨rfl, by decide +kernel⟩
  have hpop : ∃ n ∈ Script.usedFirst.program.nodes.toList, n.Resizes Script.usedFirst.program 7 := by
    decide +kernel
  have hwrite : ∃ n ∈ Script.usedFirst.program.nodes.toList,
      n.WritesKeyed (Subject.of Script.usedFirst.program) 19 := by
    decide +kernel
  have harray : ((runInference Script.usedFirst.program 64).binding? 7).isSome = true := by
    decide +kernel
  have hdict : ((runInference Script.usedFirst.program 64).binding? 19).isSome = true := by
    decide +kernel
  obtain ⟨pop, hpop, hresizes⟩ := hpop
  obtain ⟨write, hwrite, hkeyed⟩ := hwrite
  obtain ⟨x, hx⟩ := Option.isSome_iff_exists.mp harray
  obtain ⟨o, ho⟩ := Option.isSome_iff_exists.mp hdict
  exact ⟨_, hrun, ⟨pop, hpop, hresizes⟩, ⟨x, hx, (infer_fits_use hscript hrun hpop hx).1 hresizes⟩,
    ⟨write, hwrite, hkeyed⟩, ⟨o, ho, (infer_fits_use hscript hrun hwrite ho).2 hkeyed⟩⟩

end LayoutInference
