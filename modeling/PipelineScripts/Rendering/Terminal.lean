import PipelineScripts.Check.Report

/-!
# Text for a terminal

Reports are listed by file, in the order of their lines. Each shows its place, the line of script
with a mark below it, and the page about its rule.
-/
namespace PipelineScripts.Rendering

open Check Text

/-- The page about a rule. -/
def rulePage (reason : String) : String := "https://www.shellcheck.net/wiki/" ++ reason

/-- How a text is set off: the numbers of its terminal codes. -/
abbrev Style := List Nat

def boldUnderlined : Style := [1, 4]
def dimmed : Style := [2]
def boldRed : Style := [1, 31]
def boldGreen : Style := [1, 32]
def red : Style := [31]

/-- The code that starts a style. -/
def Style.start (style : Style) : String := "\x1b[" ++ joinStrings ";" (style.map decimal) ++ "m"

/-- The code that ends every style. -/
def styleEnd : String := "\x1b[0m"

/-- Starts a style again wherever the text itself ends it. -/
def restarting (start : List Char) : List Char → List Char
  | '\x1b' :: '[' :: '0' :: 'm' :: r => styleEnd.toList ++ start ++ restarting start r
  | c :: r => c :: restarting start r
  | [] => []

/-- Sets a text off, on a terminal with colours. -/
def paint (colour : Bool) (style : Style) (text : String) : String :=
  if colour then
    style.start ++ String.ofList (restarting style.start.toList text.toList) ++ styleEnd
  else text

def levelStyle : Level → Style
  | .error => boldRed
  | .warning => [1, 33]
  | .info => [34]
  | .style => [32]

/-- A text repeated. -/
def repeated (n : Nat) (c : Char) : String := String.ofList (List.replicate n c)

/-- The mark below a line of script, from the column to the end column. -/
def marker (r : Report) : String :=
  repeated (r.column - 1) ' ' ++ repeated (max (r.endColumn - r.column) 1) '^'

/-- The lines that show the script. -/
def sourceLines (colour : Bool) (r : Report) : String :=
  match r.sourceLine with
  | none => ""
  | some line =>
    let mark :=
      if 0 < r.column then
        "           " ++ paint colour (levelStyle r.level) (marker r) ++ "\n"
      else ""
    "         > " ++ line ++ "\n" ++ mark

/-- A report. -/
def reportText (colour : Bool) (r : Report) : String :=
  let place := r.file ++ ":" ++ decimal r.line ++ ":" ++ decimal r.column
  "  " ++ paint colour dimmed place ++ " [" ++ paint colour (levelStyle r.level) r.level.name
    ++ "] " ++ paint colour dimmed r.reason ++ " " ++ r.message ++ "\n"
    ++ "         " ++ paint colour dimmed r.path ++ "\n"
    ++ sourceLines colour r
    ++ "         " ++ paint colour dimmed (rulePage r.reason) ++ "\n"

/-- The files with reports, each once, in ascending order. -/
def reportedFiles (o : Outcome) : List String :=
  ((o.reports.map (·.file)).eraseDups).mergeSort (· ≤ ·)

/-- Whether a report is not below another in their file. -/
def precedes (a b : Report) : Bool :=
  a.line < b.line || (a.line == b.line && a.column ≤ b.column)

/-- The reports of a file by line and column, others in their order. -/
def reportsOf (o : Outcome) (file : String) : List Report :=
  (o.reports.filter (·.file == file)).mergeSort precedes

def fileText (colour : Bool) (o : Outcome) (file : String) : String :=
  "\n" ++ paint colour boldUnderlined file ++ "\n"
    ++ String.join ((reportsOf o file).map (reportText colour))

def errorText (colour : Bool) (e : FileError) : String :=
  "  [" ++ paint colour boldRed "FAIL" ++ "] " ++ e.file ++ "\n         "
    ++ paint colour dimmed e.message ++ "\n"

def errorsText (colour : Bool) (o : Outcome) : String :=
  if o.errors.isEmpty then ""
  else
    "\n" ++ paint colour boldUnderlined "Errors" ++ "\n"
      ++ String.join (o.errors.map (errorText colour))

def summaryText (colour : Bool) (o : Outcome) : String :=
  let status :=
    if o.passed then paint colour boldGreen "PASSED" else paint colour boldRed "FAILED"
  "\nResult: " ++ status ++ "  |  " ++ decimal o.files ++ " files, " ++ decimal o.scripts
    ++ " scripts  |  " ++ decimal (o.count .error) ++ " errors, " ++ decimal (o.count .warning)
    ++ " warnings, " ++ decimal (o.count .info) ++ " info, " ++ decimal (o.count .style)
    ++ " style\n"

/-- The outcome of a check as text. -/
def terminalText (colour : Bool) (o : Outcome) : String :=
  String.join ((reportedFiles o).map (fileText colour o)) ++ errorsText colour o
    ++ summaryText colour o

end PipelineScripts.Rendering
