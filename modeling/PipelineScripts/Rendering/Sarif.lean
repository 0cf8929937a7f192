import PipelineScripts.Json.Printer
import PipelineScripts.Rendering.Terminal

/-!
# SARIF

The static analysis results interchange format: a table of rules, and a result for each report.
The members of an object are in alphabetical order, and numbers are signed words of 64 bits.
-/
namespace PipelineScripts.Rendering

open Check

/-- The version of this program. -/
def programVersion : String := "0.1.0"

/-- The name of this program. -/
def programName : String := "scriptcheck"

/-- The rules that occur, each once, in ascending order. -/
def ruleIds (o : Outcome) : List String :=
  ((o.reports.map (·.reason)).eraseDups).mergeSort (· ≤ ·)

/-- The message of the first report of a rule. -/
def ruleMessage (o : Outcome) (id : String) : String :=
  ((o.reports.find? (·.reason == id)).map (·.message)).getD ""

def textJson (text : String) : Json := .object [("text", .string text)]

def ruleJson (o : Outcome) (id : String) : Json :=
  .object [("help", textJson ("See " ++ rulePage id)), ("id", .string id),
    ("shortDescription", textJson (ruleMessage o id))]

def sarifLevel : Level → String
  | .error => "error"
  | .warning => "warning"
  | .info | .style => "note"

/-- A word of 64 bits, read as a signed number. -/
def signedJson (n : Nat) : Json := .integer (Int.bmod n Text.wordSize)

/-- Where a report stands. A column of zero is left out. -/
def regionJson (r : Report) : Json :=
  let column := fun (name : String) (n : Nat) => if 0 < n then [(name, signedJson n)] else []
  .object (column "endColumn" r.endColumn ++ column "startColumn" r.column
    ++ [("startLine", signedJson r.line)])

/-- A file name with slashes for backslashes. -/
def fileUri (file : String) : String :=
  String.ofList (file.toList.map fun c => if c = '\\' then '/' else c)

def locationJson (r : Report) : Json :=
  .object [
    ("logicalLocations", .array [.object [("fullyQualifiedName", .string r.path)]]),
    ("physicalLocation", .object [
      ("artifactLocation", .object [("uri", .string (fileUri r.file))]),
      ("region", regionJson r)])]

def resultJson (ids : List String) (r : Report) : Json :=
  .object [("level", .string (sarifLevel r.level)), ("locations", .array [locationJson r]),
    ("message", textJson r.message), ("ruleId", .string r.reason),
    ("ruleIndex", .nat (ids.idxOf r.reason))]

def sarifJson (o : Outcome) : Json :=
  let ids := ruleIds o
  let driver := Json.object [("name", .string programName),
    ("rules", .array (ids.map (ruleJson o))), ("version", .string programVersion)]
  let run := Json.object [("results", .array (o.reports.map (resultJson ids))),
    ("tool", .object [("driver", driver)])]
  .object [("runs", .array [run]), ("version", .string "2.1.0")]

/-- The outcome of a check as SARIF. -/
def sarifText (o : Outcome) : String := String.ofList (sarifJson o).render

end PipelineScripts.Rendering
