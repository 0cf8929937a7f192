import PipelineScripts.Check.Failure
import PipelineScripts.Check.FindingReader

/-!
# The linter

One call of the linter checks all scripts. It is a function from the call to what the program
prints and how it ends: status 0 says that there are no findings, status 1 that it printed some.
-/
namespace PipelineScripts.Check

/-- A script in a file of its own. -/
structure ScriptFile where
  name : String
  text : String
deriving DecidableEq, Repr

/-- What the linter is asked. -/
structure LinterCall where
  arguments : List String
  scripts : List ScriptFile
deriving DecidableEq, Repr

/-- What the linter answered. -/
structure LinterRun where
  status : ExitStatus
  stdout : String
  stderr : String
deriving DecidableEq, Repr

/-- The program that is installed as the linter. -/
inductive Linter
  | missing
  | unstartable
  | program (run : LinterCall → LinterRun)

namespace Linter

def isAvailable : Linter → Bool
  | missing => false
  | _ => true

end Linter

/-- The argument for a flag, which may be written without its hyphens. -/
def flagArgument (flag : String) : String :=
  if flag.toList.head? = some '-' then flag else "--" ++ flag

/-- The arguments before the names of the scripts. -/
def linterArguments (flags : List String) : List String :=
  flags.map flagArgument ++ ["--format", "json"]

/-- The findings in what the linter answered. -/
def LinterRun.findings (r : LinterRun) : Except Failure (List Finding) :=
  match r.status with
  | .code 0 => .ok []
  | .code 1 =>
    match readFindings? r.stdout.toList with
    | some findings => .ok findings
    | none => .error .report
  | status => .error (.linter (.exited status r.stderr))

/-- The linter at work: the call, if the program was started, and its findings. -/
structure Linting where
  call : Option LinterCall
  findings : Except Failure (List Finding)

/-- Lints scripts. Without scripts there is nothing to call. -/
def Linter.lint (linter : Linter) (flags : List String) (scripts : List ScriptFile) : Linting :=
  if scripts.isEmpty then ⟨none, .ok []⟩
  else match linter with
    | missing => ⟨none, .error (.linter .missing)⟩
    | unstartable => ⟨none, .error (.linter .unstartable)⟩
    | program run =>
      let call : LinterCall := ⟨linterArguments flags, scripts⟩
      ⟨some call, (run call).findings⟩

end PipelineScripts.Check
