import PipelineScripts.Script.Block
import PipelineScripts.Text.Decimal

/-!
# Findings and reports

A finding is what the linter says about a generated file. A report is the same at its place in the
pipeline file.
-/
namespace PipelineScripts.Check

open Script

/-- How grave a finding is. -/
inductive Level
  | error
  | warning
  | info
  | style
deriving DecidableEq, Repr

namespace Level

/-- Reads a level. An unknown one is an error. -/
def parse (text : String) : Level :=
  if text = "warning" then warning
  else if text = "info" then info
  else if text = "style" then style
  else error

def name : Level → String
  | error => "error"
  | warning => "warning"
  | info => "info"
  | style => "style"

@[simp] theorem parse_name (l : Level) : parse l.name = l := by cases l <;> decide

end Level

/-- What the linter reports. -/
structure Finding where
  file : String
  line : Nat
  endLine : Nat
  column : Nat
  endColumn : Nat
  level : String
  code : Nat
  message : String
deriving DecidableEq, Repr

/-- The name of a rule. -/
def Finding.reason (f : Finding) : String := "SC" ++ Text.decimal f.code

/-- A finding at its place in a pipeline file. -/
structure Report where
  file : String
  path : String
  level : Level
  line : Nat
  column : Nat
  endColumn : Nat
  reason : String
  message : String
  /-- The line of script it is about, if there is one. -/
  sourceLine : Option String
deriving DecidableEq, Repr

/-- The blocks by the names of their generated files, the latest first. -/
abbrev BlockMap := List (String × Block)

/-- The line of the pipeline file for a line of the generated one. Lines are words of 64 bits, and
their sum wraps around. -/
def pipelineLine (b : Block) (line : Nat) : Nat :=
  (b.startLine + line) % Text.wordSize - (1 + b.headerLines)

/-- The line of script for a line of the generated file. -/
def scriptLine? (b : Block) (line : Nat) : Option String :=
  if line < 1 + b.headerLines then none
  else ((Text.lines b.script.toList)[line - (1 + b.headerLines)]?).map String.ofList

/-- The report of a finding. There is none if its file is unknown or its rule is disabled. -/
def remapOne? (blocks : BlockMap) (f : Finding) : Option Report := do
  let b ← blocks.lookup f.file
  if b.disabledRules.contains f.reason then none
  return {
    file := b.file
    path := b.path
    level := Level.parse f.level
    line := pipelineLine b f.line
    column := f.column
    endColumn := f.endColumn
    reason := f.reason
    message := f.message
    sourceLine := scriptLine? b f.line }

/-- The reports of a list of findings, in their order. -/
def remap (findings : List Finding) (blocks : BlockMap) : List Report :=
  findings.filterMap (remapOne? blocks)

/-- A pipeline file that could not be decoded. -/
structure FileError where
  file : String
  message : String
deriving DecidableEq, Repr

/-- The outcome of a check. Whether it passed is no field beside the reports and the errors: it is
always set from them, so it is computed from them (`Outcome.passed`). -/
structure Outcome where
  checkedAt : String
  files : Nat
  scripts : Nat
  reports : List Report
  errors : List FileError
deriving DecidableEq, Repr

namespace Outcome

/-- Whether nothing was found and every file was decoded. -/
def passed (o : Outcome) : Bool := o.reports.isEmpty && o.errors.isEmpty

/-- The number of reports of a level. -/
def count (o : Outcome) (level : Level) : Nat := o.reports.countP (·.level == level)

end Outcome

end PipelineScripts.Check
