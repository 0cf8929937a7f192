import PipelineScripts.Proofs.Relocation

/-!
# Trees inside larger files

Files that are merged keep what is in front of their roots, behind the nodes and sources of the
files before them.
-/
namespace PipelineScripts.Yaml.File

/-- The nodes of `f` in front of a root stand in `F` behind `offset` others. -/
structure CarriesTree (f F : File) (root offset source : Nat) : Prop where
  shaped : f.Shaped
  root_lt : root < f.nodes.size
  size_le : f.nodes.size ≤ F.nodes.size
  node : ∀ id : Nat, id < root →
    F.node? (id + offset) = (f.node? id).map (Node.moved offset source)

namespace CarriesTree

variable {f F : File} {root offset source : Nat}

theorem child_lt (h : f.CarriesTree F root offset source) {id child : Nat} (hid : id < root)
    (hbelow : f.Below id child) : child < root :=
  Nat.lt_trans (h.shaped.child_lt hbelow) hid

theorem copies (h : f.CarriesTree F root offset source) (hF : F.Acyclic) :
    f.CopiesNodes F (· + offset) source {id : Nat | id < root} where
  acyclic := h.shaped.acyclic
  acyclic_copy := hF
  child_mem := h.child_lt
  node := h.node

end CarriesTree

end PipelineScripts.Yaml.File
