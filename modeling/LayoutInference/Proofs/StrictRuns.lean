import Mathlib
import LayoutInference.Report
import LayoutInference.Proofs.ReportedLayouts
import LayoutInference.Proofs.Warnings

/-!
# Strict runs

A strict run looks at the warnings of the result before it is reported. Since the warnings are known
from the program and the outcome, so is what a strict run does: it refuses a program in which a node is
not supported, or whose run did not converge, and names all of these; any other program it reports like
a run that is not strict. Both stop without a result when two containers clash.
-/

namespace LayoutInference

/-- The fault that a strict run names a node by that is not supported. -/
def Node.skippedFault (p : Program) (n : Node) : Fault :=
  let place := p.position n.id
  .semantic ⟨place.file, place.line, place.column⟩ ("unsupported construct " ++ n.value ++ " skipped")

/-- The fault that a strict run names a run by that did not converge. -/
def Result.stoppedFault (r : Result) : Fault :=
  .semantic {} ("inference did not converge after " ++ toString r.iterations ++ " iterations")

/-- What a strict run objects to: the nodes that are not supported, in their order, and a run that did
not converge. -/
def Result.objections (p : Program) (r : Result) : List Fault :=
  (p.nodes.toList.filter (·.unsupported)).map (·.skippedFault p)
    ++ if r.converged then [] else [r.stoppedFault]

/-- A program that a strict run refuses. -/
def Result.Objectionable (p : Program) (r : Result) : Prop :=
  (∃ n ∈ p.nodes.toList, n.unsupported = true) ∨ r.converged = false

/-- The names of the formats in which reports are written. -/
def Report.formats : List String := ["", "text", "yaml", "json"]

/-! ## Refusals -/

namespace Result

/-- A strict run has no objections exactly to programs that are not objectionable. -/
theorem objections_eq_nil_iff {p : Program} {r : Result} :
    r.objections p = [] ↔ ¬ r.Objectionable p := by
  rw [objections, List.append_eq_nil_iff, List.map_eq_nil_iff, List.filter_eq_nil_iff, Objectionable,
    not_or]
  refine and_congr (by simp) ?_
  cases r.converged <;> simp

/-- A run is refused for its objections, if there are any. -/
theorem refusal?_eq (s : Subject) (bound : Nat) :
    let r := ofOutcome s (s.resolve bound)
    r.refusal? = if r.objections s.program = [] then none
      else some (.several (r.objections s.program)) := by
  intro r
  have hstopped : (if r.converged then [] else [Subject.stopped r.iterations]).map
      (fun d => Fault.semantic ⟨d.position.file, d.position.line, d.position.column⟩ d.message)
      = if r.converged then [] else [r.stoppedFault] := by
    cases r.converged <;> rfl
  have hwarnings : r.warnings.map
      (fun d => Fault.semantic ⟨d.position.file, d.position.line, d.position.column⟩ d.message)
      = r.objections s.program := by
    rw [warnings_eq, List.map_append, List.map_map, hstopped]
    rfl
  rw [refusal?, ← hwarnings]
  cases r.warnings <;> rfl

end Result

/-! ## Reports -/

/-- Every report can be written in the format. -/
def Report.Writes (format : String) : Prop := ∀ report : Report, ∃ out, report.write format = .ok out

/-- Reports can be written in each of the formats. -/
theorem Report.writes_of_mem {format : String} (h : format ∈ formats) : Writes format := by
  intro report
  simp only [formats, List.mem_cons, List.not_mem_nil, or_false] at h
  rcases h with rfl | rfl | rfl | rfl <;> exact ⟨_, rfl⟩

/-- What comes out of a run can be described in a format in which reports can be written. -/
theorem Result.exists_describe (s : Subject) (bound : Nat) {format : String}
    (h : Report.Writes format) :
    ∃ out, (ofOutcome s (s.resolve bound)).describe format = .ok out := by
  obtain ⟨report, hreport⟩ := exists_report s bound
  obtain ⟨out, hout⟩ := h report
  exact ⟨out, by rw [describe, hreport]; exact hout⟩

/-! ## From text to report -/

section Describe

variable {parser : Parser} {file text : String} (format : String) {max : Int} {script : Script}
  {p : Program} (hparse : parser text = .ok script)

include hparse

/-- A script with a clause that has no end is not described. -/
theorem describe_of_endless {fault : Program.Fault}
    (hscript : Program.ofScript (Source.ofText file text) script = .error fault) (strict : Bool) :
    describe parser file text format max strict = .error .endlessClause := by
  cases fault
  rw [describe, Result.ofText, Program.ofText, hparse]
  simp only [hscript]
  rfl

variable (hscript : Program.ofScript (Source.ofText file text) script = .ok p)

include hscript

/-- A run that ends in a clash is not described. -/
theorem describe_of_clash {clash : Clash} (hclash : infer p max = .error clash) (strict : Bool) :
    describe parser file text format max strict = .error (.clash clash) := by
  rw [describe, Result.ofText, Program.ofText, hparse]
  simp only [hscript]
  show ((infer p max).mapError Failure.clash >>= _) = _
  rw [hclash]
  rfl

/-- A result is described, unless the run is strict and refuses it. -/
theorem describe_of_result {result : Result} (hresult : infer p max = .ok result) (strict : Bool) :
    describe parser file text format max strict
      = match if strict then result.refusal? else none with
        | some refusal => .error (.fault refusal)
        | none => (result.describe format).mapError .fault := by
  rw [describe, Result.ofText, Program.ofText, hparse]
  simp only [hscript]
  show ((infer p max).mapError Failure.clash >>= _) = _
  rw [hresult]
  rfl

/-- A result is reported in any format in which reports can be written, and by a strict run too, unless
there are objections to it. -/
theorem describe_strict_of_writes (hwrites : Report.Writes format) {result : Result}
    (hresult : infer p max = .ok result) :
    ∃ out, describe parser file text format max false = .ok out
      ∧ (result.Objectionable p → describe parser file text format max true
        = .error (.fault (.several (result.objections p))))
      ∧ (¬ result.Objectionable p → describe parser file text format max true = .ok out) := by
  have hdescribe := describe_of_result format hparse hscript hresult
  set s := Subject.of p
  obtain ⟨bound, rfl⟩ : ∃ bound, result = Result.ofOutcome s (s.resolve bound) :=
    ⟨_, (infer_eq_ok_iff.mp hresult).1⟩
  set r := Result.ofOutcome s (s.resolve bound)
  obtain ⟨out, hout⟩ := Result.exists_describe s bound hwrites
  have hrefusal : r.refusal? = if r.objections p = [] then none
    else some (.several (r.objections p)) := Result.refusal?_eq s bound
  refine ⟨out, ?_, fun h => ?_, fun h => ?_⟩
  · rw [hdescribe, if_neg (by simp), hout]
    rfl
  · rw [hdescribe, if_pos rfl, hrefusal, if_neg fun hnil => Result.objections_eq_nil_iff.mp hnil h]
  · rw [hdescribe, if_pos rfl, hrefusal, if_pos (Result.objections_eq_nil_iff.mpr h), hout]
    rfl

end Describe

/-- **Strict runs refuse exactly what they should.** Let a text be read as a script and a report be
asked for in a format that there is. A run that has a result is reported if it is not strict. A strict
run fails exactly if a node is not supported or the run did not converge, and then with one semantic
fault for each such node, in ascending order, and one more if the run did not converge; otherwise its
report is that of the run that is not strict. Where there is no result, because a clause has no end or
two containers clash, strict and other runs fail alike. -/
theorem describe_strict_exact {parser : Parser} {file text format : String} {script : Script}
    (hparse : parser text = .ok script) (hformat : format ∈ Report.formats) (max : Int) :
    (∀ fault, Program.ofScript (Source.ofText file text) script = .error fault → ∀ strict,
        describe parser file text format max strict = .error .endlessClause)
      ∧ ∀ p, Program.ofScript (Source.ofText file text) script = .ok p →
        (p.nodes.toList.filter (·.unsupported)).Pairwise (·.id < ·.id)
        ∧ (∀ clash, infer p max = .error clash → ∀ strict,
          describe parser file text format max strict = .error (.clash clash))
        ∧ ∀ result, infer p max = .ok result →
          ∃ out, describe parser file text format max false = .ok out
            ∧ ((∃ failure, describe parser file text format max true = .error failure)
              ↔ result.Objectionable p)
            ∧ (result.Objectionable p → describe parser file text format max true
              = .error (.fault (.several (result.objections p))))
            ∧ (¬ result.Objectionable p → describe parser file text format max true = .ok out) := by
  refine ⟨fun fault hscript => describe_of_endless format hparse hscript, fun p hscript => ⟨?_, ?_, ?_⟩⟩
  · exact (Program.ofScript_numbered hscript).pairwise_filter _
  · exact fun clash hclash => describe_of_clash format hparse hscript hclash
  · intro result hresult
    obtain ⟨out, hout, hrefused, haccepted⟩ := describe_strict_of_writes format hparse hscript
      (Report.writes_of_mem hformat) hresult
    refine ⟨out, hout, ⟨fun ⟨failure, hfailure⟩ => ?_, fun h => ⟨_, hrefused h⟩⟩, hrefused, haccepted⟩
    by_contra h
    rw [haccepted h] at hfailure
    cases hfailure

/-- A script without an endless node gives its program also for an empty source text. -/
theorem Script.ofScript_ofText (script : Script)
    (h : script.program.nodes.any (·.endless) = false) :
    Program.ofScript (Source.ofText "main.js" "") script = .ok script.program := by
  have hempty : Source.ofText "main.js" "" = ⟨"main.js", []⟩ := by
    rw [Source.ofText]
    congr
    decide +kernel
  rw [hempty]
  exact ofScript_eq_ok script h

/-- `let x = {a: {}}; class K {}` -/
def Script.skippedClass : Script := ⟨nestedRecord.body ++ [.classDeclaration ⟨1, 1⟩]⟩

/-- A strict run of `let x = {a: {}}; class K {}` names the class, and another run does not mind it. -/
theorem describe_strict_exact_skippedClass :
    describe (fun _ => .ok Script.skippedClass) "main.js" "" "yaml" 64 true
        = .error (.fault (.several
          [.semantic ⟨"main.js", 1, 1⟩ "unsupported construct class declaration skipped"]))
      ∧ ∃ out, describe (fun _ => .ok Script.skippedClass) "main.js" "" "yaml" 64 false = .ok out := by
  have hscript := Script.skippedClass.ofScript_ofText (by decide +kernel)
  have hrun : infer Script.skippedClass.program 64
      = .ok (runInference Script.skippedClass.program 64) :=
    infer_eq_ok_iff.mpr ⟨rfl, by decide +kernel⟩
  have hexact := @describe_strict_exact (fun _ => .ok Script.skippedClass) "main.js" "" "yaml" _ rfl
    (by decide) 64
  obtain ⟨-, -, hresult⟩ := hexact.2 _ hscript
  obtain ⟨out, hout, -, hrefused, -⟩ := hresult _ hrun
  have hobjections : (runInference Script.skippedClass.program 64).objections
      Script.skippedClass.program
      = [.semantic ⟨"main.js", 1, 1⟩ "unsupported construct class declaration skipped"] := by
    cbv
  rw [← hobjections]
  exact ⟨hrefused (.inl (by decide +kernel)), out, hout⟩

/-- `let b = []; b.push([1, 2]); let a = [null]; a[0] = b; let c = []; c.push([[1, 2]]); class K {}` -/
def Script.collidingArraysWithClass : Script :=
  ⟨collidingArrays.body ++ [.classDeclaration ⟨0, 0⟩]⟩

/-- A class is not supported, but a strict run does not come to name it when two containers clash. -/
theorem collidingArraysWithClass_not_refused :
    (∃ n ∈ Script.collidingArraysWithClass.program.nodes.toList, n.unsupported = true)
      ∧ describe (fun _ => .ok Script.collidingArraysWithClass) "main.js" "" "text" 64 true
        = .error (.clash ⟨some .dynamic, some .fixed⟩) := by
  refine ⟨by decide +kernel, ?_⟩
  refine describe_of_clash "text" rfl (Script.collidingArraysWithClass.ofScript_ofText
    (by decide +kernel)) ?_ true
  rw [infer_eq_error_iff]
  decide +kernel

end LayoutInference
