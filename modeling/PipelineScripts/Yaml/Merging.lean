import PipelineScripts.Yaml.Node

/-!
# Merging files

Several files become one with a single document. Its root is that of the first document that has
one; the root mappings of all others are appended to it. Nodes keep the name of their file.
-/
namespace PipelineScripts.Yaml

/-- Why files cannot be merged: a document's root, or the root it is to be merged into, is no
mapping. -/
inductive MergeCause
  | sourceNotMapping
  | destinationNotMapping
deriving DecidableEq, Repr

/-- A merge that failed at a file. -/
structure MergeError where
  file : String
  cause : MergeCause
deriving DecidableEq, Repr

def MergeCause.message : MergeCause → String
  | sourceNotMapping => "document root is not a mapping"
  | destinationNotMapping => "destination document root is not a mapping"

/-- The name of a merged file. -/
def mergedName : String := "merged_pipeline_yaml.yml"

namespace File

/-- Looks through at most `fuel` anchors. -/
def behindAnchorsWithin (f : File) : Nat → NodeId → NodeId
  | 0, id => id
  | fuel + 1, id =>
    match f.kind? id with
    | some (.anchor _ value) => f.behindAnchorsWithin fuel value
    | _ => id

/-- Looks through anchors. -/
def behindAnchors (f : File) (id : NodeId) : NodeId := f.behindAnchorsWithin f.nodes.size id

/-- Adds the nodes of another file behind those of this one. -/
def appendNodes (f g : File) : File :=
  let offset := f.nodes.size
  let moved := g.nodes.map fun n =>
    { n with kind := n.kind.mapChildren (· + offset), source := n.source + f.sources.length }
  { f with nodes := f.nodes ++ moved, sources := f.sources ++ g.sources }

/-- Appends the entries of one root mapping to another. -/
def mergeRoot (f : File) (destination source : NodeId) (name : String) :
    Except MergeError File :=
  match f.kind? (f.behindAnchors source) with
  | some (.mapping more) =>
    let id := f.behindAnchors destination
    match f.node? id with
    | some ⟨.mapping entries, position, path, n⟩ =>
      .ok { f with
        nodes := f.nodes.setIfInBounds id ⟨.mapping (entries ++ more), position, path, n⟩ }
    | _ => .error ⟨name, .destinationNotMapping⟩
  | _ => .error ⟨name, .sourceNotMapping⟩

/-- A merge under way: the file, and the root that others are merged into. -/
structure Merging where
  file : File
  root : Option NodeId
deriving Repr

/-- Merges one root. -/
def Merging.addRoot (name : String) (m : Merging) (root : NodeId) : Except MergeError Merging :=
  match m.root with
  | none => .ok { m with root := some root }
  | some destination => (m.file.mergeRoot destination root name).map fun f => { m with file := f }

/-- Merges the documents of a file. -/
def Merging.addFile (m : Merging) (g : File) : Except MergeError Merging :=
  let offset := m.file.nodes.size
  let roots := (g.documents.filterMap id).map (· + offset)
  roots.foldlM (Merging.addRoot g.name) { m with file := m.file.appendNodes g }

/-- Merges files into one. -/
def merge (files : List File) : Except MergeError File := do
  let empty : File := { name := mergedName, sources := [] }
  let m ← files.foldlM Merging.addFile ⟨empty, none⟩
  return { m.file with documents := [m.root] }

end File

end PipelineScripts.Yaml
