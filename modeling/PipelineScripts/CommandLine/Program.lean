import PipelineScripts.Check.Checking
import PipelineScripts.Check.Writing
import PipelineScripts.CommandLine.Arguments

/-!
# The program

What the program prints, writes and returns for its arguments. Status 0 is success, 1 says that a
check found something, and 2 that something failed.
-/
namespace PipelineScripts.CommandLine

open Check Rendering

/-- What a run leaves behind. -/
structure Response where
  code : Nat
  stdout : String
  stderr : String
  /-- The files after the run. -/
  files : Files.Tree
  /-- What was asked of the linter, if it was started. -/
  call : Option LinterCall := none

/-- The status of a failure. -/
def failureCode : Nat := 2

/-- How the program is used. -/
def usageText : String :=
  "Usage: scriptcheck [OPTIONS] <COMMAND>\n\n" ++
  "Commands:\n" ++
  "  check        Check the scripts of pipeline files with shellcheck\n" ++
  "  extract      Write the scripts of pipeline files to a directory\n" ++
  "  check-tools  Check whether shellcheck is available\n"

/-- The run that only says how the program is used, or which it is. -/
def stopResponse (s : Surroundings) : Stop → Response
  | .usage => ⟨failureCode, "", usageText, s.files, none⟩
  | .help => ⟨0, usageText, "", s.files, none⟩
  | .version => ⟨0, programName ++ " " ++ programVersion ++ "\n", "", s.files, none⟩

/-- The message about a failure. -/
def failureLine (s : Surroundings) (e : Failure) : String := "Error: " ++ e.message s.detail ++ "\n"

/-- The run that ends with a failure. -/
def failureResponse (s : Surroundings) (files : Files.Tree) (call : Option LinterCall)
    (e : Failure) : Response :=
  ⟨failureCode, "", failureLine s e, files, call⟩

/-- The configuration with what the arguments set. -/
def Request.configure (r : Request) (shell : Option String) (flags : List String) (c : Config) :
    Config :=
  { c with
    dialect := r.dialect.getD c.dialect
    merge := c.merge || r.merge
    strict := c.strict || r.strict
    shell := shell.getD c.shell
    linterFlags := c.linterFlags ++ flags }

/-- The status of a check. -/
def outcomeCode (o : Outcome) : Nat :=
  if !o.errors.isEmpty then failureCode else if o.passed then 0 else 1

/-- Shows an outcome, or writes it to a file. -/
def showOutcome (s : Surroundings) (format : Format) (output : Option String)
    (call : Option LinterCall) (o : Outcome) : Response :=
  let text := format.render s.colour o
  match output with
  | none => ⟨outcomeCode o, text, "", s.files, call⟩
  | some path =>
    match s.files.write? path.toList text with
    | none => ⟨failureCode, "", "Error writing output: " ++ s.detail ++ "\n", s.files, call⟩
    | some files => ⟨outcomeCode o, "", "Output written to " ++ path ++ "\n", files, call⟩

/-- Runs a check. -/
def runCheck (s : Surroundings) (config : Config) (patterns : List String) (format : Format)
    (output : Option String) : Response :=
  let checking := s.check config patterns
  match checking.outcome with
  | .error e => failureResponse s s.files checking.call e
  | .ok o => showOutcome s format output checking.call o

/-- The messages about an extraction. -/
def summaryLines (root : String) (summary : WriteSummary) : String :=
  String.join (summary.errors.map fun e => "Error: " ++ e.file ++ ": " ++ e.message ++ "\n")
    ++ "Extracted " ++ Text.decimal summary.written.length ++ " scripts from "
    ++ Text.decimal summary.files ++ " files into " ++ root ++ "\n"

/-- Runs an extraction. -/
def runExtract (s : Surroundings) (config : Config) (patterns : List String) (root : String) :
    Response :=
  let writing := s.extract config patterns root
  match writing.result with
  | .error e => failureResponse s writing.files none e
  | .ok summary =>
    { code := if summary.errors.isEmpty then 0 else failureCode
      stdout := String.join (summary.written.map (· ++ "\n"))
      stderr := summaryLines root summary
      files := writing.files }

/-- The width of the column with the names of tools. -/
def toolNameWidth : Nat := 20

/-- Says whether the linter is there. -/
def toolsText (s : Surroundings) : String :=
  let available := s.linter.isAvailable
  let status :=
    if available then paint s.colour boldGreen "READY" else paint s.colour red "NOT AVAILABLE"
  let name := "shellcheck"
  let advice :=
    if available then ""
    else "\nInstall shellcheck: https://github.com/koalaman/shellcheck#installing\n"
  paint s.colour boldUnderlined "Tool Availability" ++ "\n\n  [" ++ status ++ "] " ++ name
    ++ repeated (toolNameWidth - name.length) ' ' ++ " Shell script linting (required by `check`)\n"
    ++ advice

/-- Runs what is asked for. -/
def runRequest (s : Surroundings) (r : Request) : Response :=
  match r.command with
  | .tools => ⟨0, toolsText s, "", s.files, none⟩
  | .check patterns shell format output flags =>
    match s.loadConfig r.config with
    | .error e => failureResponse s s.files none e
    | .ok c => runCheck s (r.configure shell flags c) patterns format output
  | .extract patterns shell output =>
    match s.loadConfig r.config with
    | .error e => failureResponse s s.files none e
    | .ok c => runExtract s (r.configure shell [] c) patterns output

/-- Runs the program. -/
def run (s : Surroundings) (arguments : List String) : Response :=
  match parse arguments with
  | .error stop => stopResponse s stop
  | .ok request => runRequest s request

end PipelineScripts.CommandLine
