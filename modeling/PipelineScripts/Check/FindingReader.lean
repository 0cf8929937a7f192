import PipelineScripts.Check.Report
import PipelineScripts.Json.Reader

/-!
# Reading the linter's report

The report is an array of findings. A finding is an object with eight members, others being
ignored, or an array of the eight values.
-/
namespace PipelineScripts.Check

/-- The members of a finding. -/
def findingKeys : List String :=
  ["file", "line", "endLine", "column", "endColumn", "level", "code", "message"]

/-- A finding from its eight values. The code has 32 bits, the other numbers have 64. -/
def Finding.ofValues? : List Json → Option Finding
  | [.string file, .integer line, .integer endLine, .integer column, .integer endColumn,
      .string level, .integer code, .string message] =>
    let inRange := fun (bound : Nat) (n : Int) => 0 ≤ n && n < (bound : Int)
    if [line, endLine, column, endColumn].all (inRange Text.wordSize) &&
        inRange (Nat.pow 2 32) code then
      some ⟨file, line.toNat, endLine.toNat, column.toNat, endColumn.toNat, level, code.toNat,
        message⟩
    else none
  | _ => none

/-- The value of the only member with a key. -/
def onlyMember? (members : List (String × Json)) (key : String) : Option Json :=
  match members.filter (·.1 = key) with
  | [(_, value)] => some value
  | _ => none

def Finding.ofJson? : Json → Option Finding
  | .array values => Finding.ofValues? values
  | .object members => (findingKeys.mapM (onlyMember? members)).bind Finding.ofValues?
  | _ => none

/-- Reads the linter's report. A blank text is an empty one. -/
def readFindings? (text : List Char) : Option (List Finding) :=
  if Text.isAllBlank text then some []
  else
    match Json.parse? text with
    | some (.array items) => items.mapM Finding.ofJson?
    | _ => none

end PipelineScripts.Check
