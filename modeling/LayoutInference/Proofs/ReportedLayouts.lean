import Mathlib
import LayoutInference.Proofs.Questions
import LayoutInference.Report.Content

/-!
# Reported layouts

Inside a run a layout may be missing: a property whose place is fixed, a slot without arguments, a
function whose returned record waits for a property. And a record that is being made refers to itself
as record 0. Neither leaves the run: whatever a result mentions is built from scalars and registered
records alone, with nothing missing inside, so it can be rendered and declared, and every result has a
report.
-/

namespace LayoutInference

namespace Layout

/-- A plain layout is there. -/
theorem ne_missing_of_isPlain {l : Layout} (h : l.isPlain = true) : l ≠ .missing := by
  rintro rfl
  cases h

end Layout

namespace Registry

variable (r : Registry) {l : Layout} (h : l ≠ .missing)

include h

/-- A plain layout can be rendered. -/
theorem render_eq_ok : r.render l = .ok (r.text l) := if_neg h

/-- A plain layout can be declared. -/
theorem declare_eq_ok (name : String) : r.declare l name = .ok ((r.declarator l).declare name) :=
  if_neg h

end Registry

/-! ## Layouts of a result -/

/-- What a variable is reported with keeps to every law of the evidence. -/
theorem Variable.Obeys.binding {L : Layout → Prop} {I : Registry → Prop} {v : Variable}
    (hv : v.Obeys L) (law : Registry.Law L I) (p : Program) : L (v.binding p).layout := by
  rw [Variable.binding]
  split
  · exact law.scalar rfl
  · next hthere => exact hv.winner hthere

/-- The layout that a function is shown to return keeps to the law. -/
theorem Routine.Obeys.shownReturn {L : Layout → Prop} {I : Registry → Prop} {r : Routine}
    (hr : r.Obeys L) (law : Registry.Law L I) : L r.shownReturn := by
  rw [Routine.shownReturn]
  split
  · next hthere => exact hr.returned law hthere
  · split
    · next hthere => exact hr.ret hthere
    · exact law.scalar rfl

namespace Result

variable (s : Subject) (bound : Nat)

/-- What a result mentions keeps to every law of layouts. -/
theorem mentioned_obeys {L : Layout → Prop} {I : Registry → Prop} (law : Registry.Law L I) :
    ∀ l ∈ (ofOutcome s (s.resolve bound)).mentioned, L l := by
  have hfinal := finalState_obeys law s bound
  refine List.forall_mem_append.mpr ⟨List.forall_mem_append.mpr ⟨?_, ?_⟩, ?_⟩
  · intro l hl
    obtain ⟨b, hb, rfl⟩ := List.mem_map.mp hl
    obtain ⟨v, hv, rfl⟩ := List.mem_map.mp hb
    exact (hfinal.vars v hv).binding law s.program
  · intro l hl
    obtain ⟨signature, hsignature, rfl⟩ := List.mem_map.mp hl
    obtain ⟨routine, hroutine, rfl⟩ := List.mem_map.mp hsignature
    exact (hfinal.routines routine (List.mem_of_mem_filter hroutine)).shownReturn law
  · intro l hl
    obtain ⟨record, hrecord, hl⟩ := List.mem_flatMap.mp hl
    obtain ⟨f, hf, rfl⟩ := List.mem_map.mp hl
    obtain ⟨id, -, hfound⟩ := List.mem_filterMap.mp hrecord
    exact law.fields hfinal.store.registry (List.mem_of_find?_eq_some hfound) f hf

/-- The parameters of a function are reported like the variables they are. -/
theorem params_subset {outcome : Subject.Outcome} {signature : Signature}
    (h : signature ∈ (ofOutcome s outcome).functions) :
    signature.params ⊆ (ofOutcome s outcome).bindings := by
  intro b hb
  obtain ⟨routine, -, rfl⟩ := List.mem_map.mp h
  obtain ⟨param, -, hparam⟩ := List.mem_filterMap.mp hb
  obtain ⟨decl, -, hfound⟩ := Option.bind_eq_some_iff.mp hparam
  exact List.mem_of_find?_eq_some hfound

end Result

/-! ## Reports -/

/-- Visiting a list succeeds if every visit does. -/
theorem exists_mapM_eq_ok {ε α β : Type} {f : α → Except ε β} {xs : List α}
    (h : ∀ x ∈ xs, ∃ y, f x = .ok y) : ∃ ys, xs.mapM f = .ok ys := by
  induction xs with
  | nil => exact ⟨[], rfl⟩
  | cons x xs ih =>
    obtain ⟨⟨y, hy⟩, hxs⟩ := List.forall_mem_cons.mp h
    obtain ⟨ys, hys⟩ := ih hxs
    exact ⟨y :: ys, by rw [List.mapM_cons, hy, hys]; rfl⟩

namespace Report

variable {r : Result} (h : ∀ l ∈ r.mentioned, l ≠ .missing)

/-- A field with a layout that is there can be reported. -/
theorem exists_fieldOf (name : String) {l : Layout} (hl : l ≠ .missing) :
    ∃ field, fieldOf r name l = .ok field := by
  rw [fieldOf, Registry.render_eq_ok _ hl]
  exact ⟨_, rfl⟩

include h

/-- A listed record can be reported. -/
theorem exists_recordOf {record : LayoutInference.Record} (hrecord : record ∈ r.records) :
    ∃ reported, recordOf r record = .ok reported := by
  have hthere (f : LayoutInference.Field) (hf : f ∈ record.fields) : f.layout ≠ .missing :=
    h _ (List.mem_append_right _ (List.mem_flatMap.mpr ⟨record, hrecord, List.mem_map_of_mem hf⟩))
  obtain ⟨fields, hfields⟩ := exists_mapM_eq_ok fun f hf =>
    exists_fieldOf (r := r) f.name (hthere f hf)
  rw [recordOf, hfields]
  exact ⟨_, rfl⟩

/-- Every binding has a layout. -/
theorem layout_ne_missing {b : Binding} (hb : b ∈ r.bindings) : b.layout ≠ .missing :=
  h _ (List.mem_append_left _ (List.mem_append_left _ (List.mem_map_of_mem hb)))

/-- Every binding can be reported. -/
theorem exists_variableOf {b : Binding} (hb : b ∈ r.bindings) :
    ∃ reported, variableOf r b = .ok reported := by
  have hl := layout_ne_missing h hb
  rw [variableOf, Registry.render_eq_ok _ hl, Registry.declare_eq_ok _ hl]
  exact ⟨_, rfl⟩

/-- A function can be reported if its parameters are bindings. -/
theorem exists_functionOf {signature : Signature} (hsignature : signature ∈ r.functions)
    (hparams : signature.params ⊆ r.bindings) : ∃ reported, functionOf r signature = .ok reported := by
  have hreturned : signature.returned ≠ .missing :=
    h _ (List.mem_append_left _ (List.mem_append_right _ (List.mem_map_of_mem hsignature)))
  obtain ⟨params, hfields⟩ := exists_mapM_eq_ok fun b hb =>
    exists_fieldOf (r := r) b.name (layout_ne_missing h (hparams hb))
  rw [functionOf, Registry.render_eq_ok _ hreturned, hfields]
  exact ⟨_, rfl⟩

/-- A result without missing layouts has a report. -/
theorem exists_ofResult (hparams : ∀ signature ∈ r.functions, signature.params ⊆ r.bindings) :
    ∃ report, ofResult r = .ok report := by
  obtain ⟨records, hrecords⟩ := exists_mapM_eq_ok fun record hrecord => exists_recordOf h hrecord
  obtain ⟨functions, hfunctions⟩ := exists_mapM_eq_ok fun signature hsignature =>
    exists_functionOf h hsignature (hparams signature hsignature)
  obtain ⟨vars, hvars⟩ := exists_mapM_eq_ok fun b hb => exists_variableOf h hb
  rw [ofResult, hrecords, hfunctions, hvars]
  exact ⟨_, rfl⟩

end Report

/-- Every run has a report. -/
theorem Result.exists_report (s : Subject) (bound : Nat) :
    ∃ report, Report.ofResult (ofOutcome s (s.resolve bound)) = .ok report :=
  Report.exists_ofResult
    (fun l hl => Layout.ne_missing_of_isPlain (mentioned_obeys s bound Registry.plain_law l hl))
    fun _ hsignature => params_subset s hsignature

/-- **No malformed layout leaves a run.** Every layout of a variable, of what a function returns and of
a field of a listed record is there and has nothing missing inside, is made of registered records and
does not refer to record 0. It can be rendered, and declared under every name, and the result has a
report. -/
theorem reported_layouts_wellFormed {source : Source} {script : Script} {p : Program}
    (hp : Program.ofScript source script = .ok p) {max : Int} {result : Result}
    (hresult : infer p max = .ok result) :
    (∀ l ∈ result.mentioned,
        l.isPlain = true ∧ l ≠ .missing ∧ result.state.registry.Knows l ∧ l.recordId? ≠ some 0
          ∧ (∃ text, result.state.registry.render l = .ok text)
          ∧ ∀ name, ∃ text, result.state.registry.declare l name = .ok text)
      ∧ ∃ report, Report.ofResult result = .ok report := by
  set s := Subject.of p
  have hnumbered : s.program.Numbered := Program.ofScript_numbered hp
  obtain ⟨bound, rfl⟩ : ∃ bound, result = Result.ofOutcome s (s.resolve bound) :=
    ⟨_, (infer_eq_ok_iff.mp hresult).1⟩
  obtain ⟨hregular, -, -⟩ := Subject.resolve_ends hnumbered bound
  refine ⟨fun l hl => ?_, Result.exists_report s bound⟩
  have hplain := Result.mentioned_obeys s bound Registry.plain_law l hl
  have hthere := Layout.ne_missing_of_isPlain hplain
  have hknows := Result.knows_mentioned hregular.wellFormed hl
  refine ⟨hplain, hthere, hknows, fun hzero => ?_, ?_, fun name => ?_⟩
  · have hregistry := hregular.wellFormed.store.registry.finalize
      (Result.ofOutcome s (s.resolve bound)).roots
    exact Registry.zero_notMem_ids hregistry (hknows 0 hzero)
  · exact ⟨_, Registry.render_eq_ok _ hthere⟩
  · exact ⟨_, Registry.declare_eq_ok _ hthere name⟩

/-- In `let x = {a: {}};` the layouts of `x` and of its property are mentioned. -/
theorem reported_layouts_wellFormed_nestedRecord :
    ∃ result, infer Script.nestedRecord.program 64 = .ok result
      ∧ result.mentioned = [.record 1, .pointer]
      ∧ ∃ report, Report.ofResult result = .ok report := by
  have hscript := Script.ofScript_eq_ok Script.nestedRecord (by decide +kernel)
  have hrun : infer Script.nestedRecord.program 64
      = .ok (runInference Script.nestedRecord.program 64) :=
    infer_eq_ok_iff.mpr ⟨rfl, by decide +kernel⟩
  exact ⟨_, hrun, by cbv, (reported_layouts_wellFormed hscript hrun).2⟩

end LayoutInference
