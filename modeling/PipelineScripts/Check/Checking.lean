import PipelineScripts.Check.Extraction

/-!
# Checking

The scripts of some files are given to the linter, and its findings are reported at their places
in the files.
-/
namespace PipelineScripts.Check

open Script

/-- The name of the generated file with a number. It stands for that of a temporary file, which is
chosen when the file is made: all that is used of it is that no two files have the same. -/
def scriptName (i : Nat) : String := "/tmp/scriptcheck/script-" ++ Text.decimal i ++ ".sh"

/-- The blocks with the names of their generated files, the first with number `start`. -/
def nameBlocks (start : Nat) : List Block → List (String × Block)
  | [] => []
  | b :: rest => (scriptName start, b) :: nameBlocks (start + 1) rest

/-- The generated file of a named block. -/
def scriptFile (named : String × Block) : ScriptFile := ⟨named.1, named.2.text⟩

/-- A check: what was asked of the linter, and the outcome. -/
structure Checking where
  call : Option LinterCall
  outcome : Except Failure Outcome

namespace Surroundings

/-- Checks the scripts of an extraction. -/
def checkExtraction (s : Surroundings) (config : Config) (e : Extraction) : Checking :=
  let named := nameBlocks 0 e.blocks
  let linting := s.linter.lint config.linterFlags (named.map scriptFile)
  { call := linting.call
    outcome := linting.findings.map fun findings =>
      { checkedAt := s.time
        files := e.files
        scripts := named.length
        reports := remap findings named
        errors := e.errors } }

/-- Checks the scripts of files. -/
def checkFiles (s : Surroundings) (config : Config) (paths : List (List Char)) : Checking :=
  match s.extractScripts config paths with
  | .ok extraction => s.checkExtraction config extraction
  | .error e => ⟨none, .error e⟩

/-- Checks the scripts of the files that patterns stand for. -/
def check (s : Surroundings) (config : Config) (patterns : List String) : Checking :=
  match s.collect patterns with
  | .ok paths => s.checkFiles config paths
  | .error e => ⟨none, .error e⟩

end Surroundings

end PipelineScripts.Check
