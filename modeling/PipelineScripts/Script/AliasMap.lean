import PipelineScripts.Script.ExtractError
import PipelineScripts.Yaml.Node

/-!
# What aliases stand for

An alias stands for the value of the last anchor of its name before it, so two aliases of one name
may stand for different nodes. An anchor counts from where it opens, also inside its own value.
-/
namespace PipelineScripts.Script

open Yaml

/-- The node each alias stands for. -/
structure AliasMap where
  targets : List (NodeId × NodeId) := []
deriving DecidableEq, Repr

/-- The anchors and aliases met so far, the latest anchor first. -/
structure AliasWalk where
  anchors : List (String × NodeId) := []
  targets : List (NodeId × NodeId) := []
deriving DecidableEq, Repr

/-- Visits a node. A second visit of an alias changes nothing. -/
def AliasWalk.visit (f : File) (w : AliasWalk) (id : NodeId) : Except ExtractError AliasWalk :=
  match f.kind? id with
  | some (.anchor name value) => .ok { w with anchors := (name, value) :: w.anchors }
  | some (.aliasOf name) =>
    match w.anchors.lookup name with
    | none => .error (.unresolvedAlias name (f.line id))
    | some target =>
      if (w.targets.lookup id).isSome then .ok w
      else .ok { w with targets := w.targets ++ [(id, target)] }
  | _ => .ok w

namespace AliasMap

/-- Binds the aliases of the tree below a node. -/
def build (f : File) (root : NodeId) : Except ExtractError AliasMap := do
  let walk ← (f.preorder root).foldlM (AliasWalk.visit f) {}
  return ⟨walk.targets⟩

def target? (m : AliasMap) (id : NodeId) : Option NodeId := m.targets.lookup id

def size (m : AliasMap) : Nat := m.targets.length

end AliasMap

end PipelineScripts.Script
