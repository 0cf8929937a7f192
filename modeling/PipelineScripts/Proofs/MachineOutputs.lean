import PipelineScripts.Proofs.ReadBack
import PipelineScripts.Rendering.CodeQuality
import PipelineScripts.Rendering.Machine

/-!
# What other programs read

A strict reader finds in the outputs for other programs just what the outcome says: every text comes
back as it was, whatever characters it has, every list in its order, and the counts of the summary
are those of the lists.
-/
namespace PipelineScripts.Check

/-- Every report has one of the four levels. -/
theorem Outcome.sum_counts (o : Outcome) :
    o.count .error + o.count .warning + o.count .info + o.count .style = o.reports.length := by
  unfold count
  induction o.reports with
  | nil => rfl
  | cons r reports ih =>
    simp only [List.countP_cons, List.length_cons, beq_iff_eq]
    cases r.level <;> simp only [reduceCtorEq, if_true, if_false] <;> omega

end PipelineScripts.Check

namespace PipelineScripts.Rendering

open Check Json

/-! ### Reading the outcome -/

/-- The level with a name. -/
def levelOfName? (name : String) : Option Level :=
  [Level.error, .warning, .info, .style].find? (·.name == name)

@[simp] theorem levelOfName?_name (l : Level) : levelOfName? l.name = some l := by
  cases l <;> decide

/-- The counts of a summary. -/
structure Summary where
  errors : Nat
  warnings : Nat
  info : Nat
  style : Nat
  failedFiles : Nat
deriving DecidableEq, Repr

/-- An outcome as it is read. -/
structure Published where
  checkedAt : String
  files : Nat
  scripts : Nat
  passed : Bool
  summary : Summary
  reports : List Report
  errors : List FileError
deriving DecidableEq, Repr

/-- A report has eight members; the line of script is not one of them. -/
def readReport? (v : Json) : Option Report :=
  match v.fields? ["file", "path", "level", "line", "column", "end_column", "reason",
      "message"] with
  | some [.string file, .string path, .string level, line, column, endColumn, .string reason,
      .string message] => do
    return {
      file, path, reason, message
      level := ← levelOfName? level
      line := ← line.natural?
      column := ← column.natural?
      endColumn := ← endColumn.natural?
      sourceLine := none }
  | _ => none

def readError? (v : Json) : Option FileError :=
  match v.fields? ["file", "message"] with
  | some [.string file, .string message] => some ⟨file, message⟩
  | _ => none

def readSummary? (v : Json) : Option Summary :=
  match v.fields? ["errors", "warnings", "info", "style", "failed_files"] with
  | some [errors, warnings, info, style, failedFiles] => do
    return ⟨← errors.natural?, ← warnings.natural?, ← info.natural?, ← style.natural?,
      ← failedFiles.natural?⟩
  | _ => none

def readOutcome? (v : Json) : Option Published :=
  match v.fields? ["checked_at", "files", "scripts", "passed", "summary", "reports", "errors"] with
  | some [.string checkedAt, files, scripts, .bool passed, summary, .array reports,
      .array errors] => do
    return {
      checkedAt, passed
      files := ← files.natural?
      scripts := ← scripts.natural?
      summary := ← readSummary? summary
      reports := ← reports.mapM readReport?
      errors := ← errors.mapM readError? }
  | _ => none

/-- A code quality issue as it is read. -/
structure Issue where
  description : String
  checkName : String
  fingerprint : String
  severity : String
  path : String
  beginLine : Nat
deriving DecidableEq, Repr

def readIssue? (v : Json) : Option Issue :=
  match v.fields? ["description", "check_name", "fingerprint", "severity", "location"] with
  | some [.string description, .string checkName, .string fingerprint, .string severity,
      location] =>
    match location.fields? ["path", "lines"] with
    | some [.string path, lines] =>
      match lines.fields? ["begin"] with
      | some [beginLine] => do
        return ⟨description, checkName, fingerprint, severity, path, ← beginLine.natural?⟩
      | _ => none
    | _ => none
  | _ => none

/-! ### Outputs -/

/-- A report as it is published: without the line of script. -/
def published (r : Report) : Report := { r with sourceLine := none }

/-- The summary of an outcome. -/
def Summary.of (o : Outcome) : Summary where
  errors := o.count .error
  warnings := o.count .warning
  info := o.count .info
  style := o.count .style
  failedFiles := o.errors.length

/-- What is published of an outcome. -/
def Published.of (o : Outcome) : Published where
  checkedAt := o.checkedAt
  files := o.files
  scripts := o.scripts
  passed := o.passed
  summary := .of o
  reports := o.reports.map published
  errors := o.errors

/-- The issue that a report is. -/
def Issue.of (r : Report) : Issue where
  description := r.reason ++ "/" ++ r.message
  checkName := r.reason
  fingerprint := Rendering.fingerprint r
  severity := Rendering.severity r.level
  path := r.file
  beginLine := r.line

theorem readReport?_reportJson (r : Report) : readReport? (reportJson r) = some (published r) := by
  simp [readReport?, reportJson, fields?, published]

theorem readError?_errorJson (e : FileError) : readError? (errorJson e) = some e := by
  simp [readError?, errorJson, fields?]

theorem readSummary?_countsJson (o : Outcome) : readSummary? (countsJson o) = some (.of o) := by
  simp [readSummary?, countsJson, fields?, Summary.of]

theorem readOutcome?_outcomeJson (o : Outcome) : readOutcome? (outcomeJson o) = some (.of o) := by
  simp [readOutcome?, outcomeJson, fields?, readSummary?_countsJson, Published.of,
    mapM_map_of_eq_some readReport?_reportJson, mapM_map_of_eq_some readError?_errorJson]

theorem readIssue?_issueJson (r : Report) : readIssue? (issueJson r) = some (.of r) := by
  simp [readIssue?, issueJson, fields?, Issue.of]

theorem plain_outcomeJson (o : Outcome) : Plain (outcomeJson o) := by
  simp [outcomeJson, countsJson, reportJson, errorJson]

theorem plain_issues (reports : List Report) : Plain (.array (reports.map issueJson)) := by
  simp [issueJson]

/-- Both outputs are read back by the reader of the linter's reports. The JSON output gives the
outcome: its texts and numbers, its reports in order with all that is published of them, its errors
in order, and counts that add up to the number of reports. The code quality output gives an issue
for each report, in order. -/
theorem machine_outputs_read_back (o : Outcome) :
    (∃ p, (parse? (machineText o).toList).bind readOutcome? = some p ∧
      p.checkedAt = o.checkedAt ∧ p.files = o.files ∧ p.scripts = o.scripts ∧
      p.passed = o.passed ∧ p.reports = o.reports.map published ∧ p.errors = o.errors ∧
      p.summary.errors + p.summary.warnings + p.summary.info + p.summary.style =
        p.reports.length ∧ p.summary.failedFiles = p.errors.length ∧
      (p.summary.errors = o.count .error ∧ p.summary.warnings = o.count .warning ∧
        p.summary.info = o.count .info ∧ p.summary.style = o.count .style)) ∧
    ((parse? (codeQualityText o).toList).bind items?).bind (·.mapM readIssue?) =
      some (o.reports.map Issue.of) := by
  constructor
  · refine ⟨.of o, ?_, rfl, rfl, rfl, rfl, rfl, rfl, ?_, rfl, rfl, rfl, rfl, rfl⟩
    · rw [machineText, String.toList_ofList, (plain_outcomeJson o).parse?_render]
      exact readOutcome?_outcomeJson o
    · show _ = (o.reports.map published).length
      rw [List.length_map]
      exact o.sum_counts
  · rw [codeQualityText, String.toList_ofList, (plain_issues o.reports).parse?_render]
    exact mapM_map_of_eq_some readIssue?_issueJson o.reports

end PipelineScripts.Rendering
