import PipelineScripts.Script.ExtractError
import PipelineScripts.Text.Blank
import PipelineScripts.Yaml.Merging
import PipelineScripts.Yaml.Reading

/-!
# Failures

Why a run ends without a result, or a file without scripts.
-/
namespace PipelineScripts.Check

open Script

/-- How a program ended. -/
inductive ExitStatus
  | code (n : Nat)
  | signal
deriving DecidableEq, Repr

def ExitStatus.message : ExitStatus → String
  | code n => "code " ++ Text.decimal n
  | signal => "a signal"

/-- Why the linter gave no findings. -/
inductive LinterFailure
  | missing
  /-- It is there but cannot be started. -/
  | unstartable
  /-- It ended with a status that is none of its own, and said something. -/
  | exited (status : ExitStatus) (stderr : String)
deriving DecidableEq, Repr

/-- Why there is no configuration. -/
inductive ConfigFailure
  | notFound (path : String)
  | unreadable (path : String)
  | malformed (path : String)
deriving DecidableEq, Repr

/-- What can fail. -/
inductive Failure
  /-- A file that cannot be read or written. -/
  | io (path : String)
  /-- A pipeline file that is not well formed. -/
  | malformed (file : String)
  | merge (e : Yaml.MergeError)
  | extract (file : String) (e : ExtractError)
  | config (e : ConfigFailure)
  /-- A file pattern that is not well formed. -/
  | pattern
  | linter (e : LinterFailure)
  /-- The linter's answer is not well formed. -/
  | report
  /-- No script in so many files, where some are asked for. -/
  | noScripts (files : Nat)
deriving DecidableEq, Repr

/-- The failure to read a pipeline file. -/
def Failure.ofReadError (file : String) : Yaml.ReadError → Failure
  | .malformed => malformed file
  | .unknownAlias name line => extract file (.unresolvedAlias name line)

/-- The text of a failure of the linter. -/
def LinterFailure.message (detail : String) : LinterFailure → String
  | missing => "shellcheck not found on PATH"
  | unstartable => "failed to run shellcheck: " ++ detail
  | exited status stderr =>
    "exited with " ++ status.message ++ ": " ++ String.ofList (Text.trim stderr.toList)

def ConfigFailure.message (detail : String) : ConfigFailure → String
  | notFound path => "config file not found: " ++ path
  | unreadable path => "failed to read " ++ path ++ ": " ++ detail
  | malformed path => path ++ ": " ++ detail

/-- The text of a failure. What a system or a parser has to say about it is `detail`. -/
def Failure.message (detail : String) : Failure → String
  | io path => "I/O error on " ++ path ++ ": " ++ detail
  | malformed file => "unable to parse file " ++ file ++ ": " ++ detail
  | merge e => "unable to merge " ++ e.file ++ ": " ++ e.cause.message
  | extract file e => "unable to extract scripts from " ++ file ++ ": " ++ e.message
  | config e => "configuration error: " ++ e.message detail
  | pattern => "invalid file pattern: " ++ detail
  | linter e => "shellcheck failed: " ++ e.message detail
  | report => "unable to parse shellcheck report: " ++ detail
  | noScripts files => "no scripts found in " ++ Text.decimal files ++ " file(s)"

end PipelineScripts.Check
