import PipelineScripts.Path
import PipelineScripts.Script.Directive

/-!
# Script blocks

A script taken from a pipeline file, ready to be written to a file of its own.
-/
namespace PipelineScripts.Script

open Text

/-- One script of a pipeline file. -/
structure Block where
  /-- The pipeline file it was read from. -/
  file : String
  name : String
  script : String
  /-- The shell, empty if none is known. -/
  shell : String
  /-- Where the section stands in the pipeline file. -/
  path : String
  /-- The line of the script's first line in the pipeline file. -/
  startLine : Nat
  directive : Option Directive
  /-- The mapping entry it was read from, by its node number. -/
  entry : Option Nat := none
deriving DecidableEq, Repr

namespace Block

/-- The shell a directive sets, or else the default. -/
def chooseShell (directive : Option Directive) (default : String) : String :=
  match directive with
  | some d => if d.shell = "" then default else d.shell
  | none => default

def hasShebang (b : Block) : Bool := ['#', '!'].isPrefixOf b.script.toList

/-- The rules the block's directive disables. -/
def disabledRules (b : Block) : List String :=
  match b.directive with
  | some d => d.disabledRules
  | none => []

/-- The options of the header line. -/
def headerOptions (b : Block) : List String :=
  let shell := if b.shell = "" then [] else ["shell=" ++ b.shell]
  let disable := match b.disabledRules with
    | [] => []
    | rules => ["disable=" ++ joinStrings "," rules]
  shell ++ disable

/-- The line that tells the linter about shell and disabled rules, with its line break. A script
with a shebang gets none. -/
def header? (b : Block) : Option String :=
  if b.hasShebang then none
  else match b.headerOptions with
    | [] => none
    | options => some ("# shellcheck " ++ joinStrings " " options ++ "\n")

/-- The number of lines written before the script. -/
def headerLines (b : Block) : Nat := if b.header?.isSome then 1 else 0

/-- The content of the generated file. -/
def text (b : Block) : String := b.header?.getD "" ++ b.script

/-- The name of the generated file: the pipeline file's stem and the block's name, in the pipeline
file's directory. -/
def outputName (b : Block) : String :=
  let path := b.file.toList
  let stem := (Path.stem? path).getD path
  let name := stem ++ '-' :: b.name.toList ++ ".sh".toList
  match Path.parent? path with
  | none | some [] => String.ofList name
  | some dir => String.ofList (Path.append dir name)

/-- Where the block is written below a directory. Only the names of its path count, so that it
stays below. -/
def target (b : Block) (root : String) : String :=
  String.ofList (Path.append root.toList (Path.normalPart b.outputName.toList))

end Block

end PipelineScripts.Script
