import PipelineScripts.Blake3
import PipelineScripts.Check.Report
import PipelineScripts.Json.Printer

/-!
# Code quality issues

Each report is one issue. Its fingerprint hashes the place and the finding, so that the same finding
is known again later.
-/
namespace PipelineScripts.Rendering

open Check

def severity : Level → String
  | .error => "major"
  | .warning => "minor"
  | .info => "info"
  | .style => "minor"

/-- The texts that identify a report. -/
def identity (r : Report) : List String :=
  [r.file, r.path, Text.decimal r.line, r.reason, r.message]

/-- The bytes that are hashed: each text with a zero behind it. -/
def identityBytes (r : Report) : List UInt8 :=
  (identity r).flatMap fun text => text.toUTF8.toList ++ [0]

/-- The identity of a report, hashed. -/
def fingerprint (r : Report) : String := Blake3.hexHash (identityBytes r)

def issueJson (r : Report) : Json :=
  .object [("description", .string (r.reason ++ "/" ++ r.message)),
    ("check_name", .string r.reason), ("fingerprint", .string (fingerprint r)),
    ("severity", .string (severity r.level)),
    ("location", .object [("path", .string r.file),
      ("lines", .object [("begin", .nat r.line)])])]

/-- The outcome of a check as code quality issues. -/
def codeQualityText (o : Outcome) : String :=
  String.ofList (Json.array (o.reports.map issueJson)).render

end PipelineScripts.Rendering
