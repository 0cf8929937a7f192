import PipelineScripts.Rendering.CodeQuality
import PipelineScripts.Rendering.Machine
import PipelineScripts.Rendering.Sarif

/-!
# Output formats
-/
namespace PipelineScripts.Rendering

/-- The formats an outcome can be written in. -/
inductive Format
  | pretty
  | json
  | codeQuality
  | sarif
deriving DecidableEq, Repr

namespace Format

def name : Format → String
  | pretty => "pretty"
  | json => "json"
  | codeQuality => "code-quality"
  | sarif => "sarif"

/-- The format with a name. -/
def ofName? (text : String) : Option Format :=
  [pretty, json, codeQuality, sarif].find? (·.name == text)

/-- Writes an outcome. Only text for a terminal may be coloured. -/
def render (format : Format) (colour : Bool) (o : Check.Outcome) : String :=
  match format with
  | pretty => terminalText colour o
  | json => machineText o
  | codeQuality => codeQualityText o
  | sarif => sarifText o

end Format

end PipelineScripts.Rendering
