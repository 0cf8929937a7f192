import PipelineScripts.Script.AliasMap
import PipelineScripts.Text.Lines

/-!
# References

`!reference [job, section]` stands for what is found by following its keys from the root.
-/
namespace PipelineScripts.Script

open Yaml

/-- A document with what its aliases stand for. -/
structure Scope where
  file : File
  root : NodeId
  aliases : AliasMap
deriving DecidableEq, Repr

/-- The tag of a reference. -/
def referenceTag : String := "!reference"

/-- The keys of a reference; `none` for any other node, and if they are not scalars in a
sequence. -/
def referencePath? (f : File) (id : NodeId) : Option (List String) :=
  match f.kind? id with
  | some (.tagged tag value) =>
    if tag = referenceTag then
      match f.kind? value with
      | some (.sequence items _) => items.mapM f.scalarText?
      | _ => none
    else none
  | _ => none

namespace Scope

/-- Looks through at most `fuel` anchors and aliases. -/
def unwrapWithin (s : Scope) : Nat → NodeId → NodeId
  | 0, id => id
  | fuel + 1, id =>
    match s.file.kind? id with
    | some (.anchor _ value) => s.unwrapWithin fuel value
    | some (.aliasOf _) =>
      match s.aliases.target? id with
      | some target => s.unwrapWithin fuel target
      | none => id
    | _ => id

/-- Looks through anchors and aliases. -/
def unwrap (s : Scope) (id : NodeId) : NodeId := s.unwrapWithin (s.file.nodes.size + 1) id

/-- The entries of the mapping behind anchors and aliases. -/
def mappingEntries? (s : Scope) (id : NodeId) : Option (List NodeId) :=
  match s.file.kind? (s.unwrap id) with
  | some (.mapping entries) => some entries
  | _ => none

/-- The value of an entry with a key. -/
def valueOfKey? (f : File) (key : String) (entry : NodeId) : Option NodeId :=
  match f.kind? entry with
  | some (.entry k value _) => if f.scalarText? k = some key then some value else none
  | _ => none

/-- The value of the last entry with a key. -/
def lookup? (s : Scope) (id : NodeId) (key : String) : Option NodeId := do
  let entries ← s.mappingEntries? id
  entries.reverse.findSome? (valueOfKey? s.file key)

/-- Follows keys from a node. -/
def resolvePath? (s : Scope) (start : NodeId) (keys : List String) : Option NodeId :=
  keys.foldlM s.lookup? start

/-- The node a reference stands for. -/
def resolveReference? (s : Scope) (id : NodeId) : Option NodeId := do
  let keys ← referencePath? s.file id
  s.resolvePath? s.root keys

end Scope

end PipelineScripts.Script
