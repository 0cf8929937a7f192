import PipelineScripts.Check.Report
import PipelineScripts.Json.Printer

/-!
# JSON for other programs
-/
namespace PipelineScripts.Rendering

open Check

def reportJson (r : Report) : Json :=
  .object [("file", .string r.file), ("path", .string r.path), ("level", .string r.level.name),
    ("line", .nat r.line), ("column", .nat r.column), ("end_column", .nat r.endColumn),
    ("reason", .string r.reason), ("message", .string r.message)]

def errorJson (e : FileError) : Json :=
  .object [("file", .string e.file), ("message", .string e.message)]

def countsJson (o : Outcome) : Json :=
  .object [("errors", .nat (o.count .error)), ("warnings", .nat (o.count .warning)),
    ("info", .nat (o.count .info)), ("style", .nat (o.count .style)),
    ("failed_files", .nat o.errors.length)]

/-- The outcome of a check as a value. -/
def outcomeJson (o : Outcome) : Json :=
  .object [("checked_at", .string o.checkedAt), ("files", .nat o.files),
    ("scripts", .nat o.scripts), ("passed", .bool o.passed), ("summary", countsJson o),
    ("reports", .array (o.reports.map reportJson)), ("errors", .array (o.errors.map errorJson))]

/-- The outcome of a check as JSON. -/
def machineText (o : Outcome) : String := String.ofList (outcomeJson o).render

end PipelineScripts.Rendering
