import Mathlib.Data.List.Perm.Subperm
import PipelineScripts.Proofs.Forests
import PipelineScripts.Proofs.NodePaths

/-!
# Trees and streams

For every source and every stream of events the builder gives a file, whatever the events say about
where they stand. Its documents are those of the stream, and its nodes make up their trees.
-/
namespace PipelineScripts.Yaml

namespace File

variable {f : File}

/-- There are no nodes outside the trees. -/
theorem perm_range_of_size (hf : f.Forest)
    (hsize : f.nodes.size = (f.roots.flatMap f.preorder).length) :
    (f.roots.flatMap f.preorder).Perm (List.range f.nodes.size) := by
  refine (hf.nodup.subperm fun id hid => ?_).perm_of_length_le (by simp [hsize])
  exact List.mem_range.mpr (hf.separated.lt_size_of_mem hid)

namespace Forest

/-- Every node is in the tree of a root. -/
theorem exists_root (hf : f.Forest) (hsize : f.nodes.size = (f.roots.flatMap f.preorder).length)
    {id : Nat} (hid : id < f.nodes.size) :
    ∃ root ∈ f.roots, Relation.ReflTransGen f.Below root id := by
  have hmem := (perm_range_of_size hf hsize).mem_iff.mpr (List.mem_range.mpr hid)
  obtain ⟨root, hroot, hmem⟩ := List.mem_flatMap.mp hmem
  exact ⟨root, hroot, (mem_preorder_iff hf.acyclic hf.closed (hf.root_lt root hroot)).mp hmem⟩

end Forest

end File

end PipelineScripts.Yaml
