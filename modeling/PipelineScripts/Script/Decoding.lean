import PipelineScripts.Script.Annotated
import PipelineScripts.Script.Jobs

/-!
# The scripts of a file
-/
namespace PipelineScripts.Script

open Yaml

/-- All scripts of a file: those of its jobs, then those of annotated entries that no job has. -/
def decode (f : File) (shell : String) : Except ExtractError (List Block) := do
  let (jobs, names) ← jobBlocks f shell {}
  let (annotated, _) ← annotatedBlocks f shell (jobs.filterMap (·.entry)) names
  return jobs ++ annotated

end PipelineScripts.Script
