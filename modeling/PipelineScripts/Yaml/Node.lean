import PipelineScripts.Yaml.Comment
import PipelineScripts.Yaml.Mark

/-!
# YAML trees

A file keeps its nodes in one array and names them by their place in it. Unlike a plain value the
tree keeps positions, anchors and aliases, tags, the body of block scalars as written, and the
comments at mapping entries and sequence items.

Walks down a tree are bounded by the number of nodes. No path without a cycle is longer.
-/
namespace PipelineScripts.Yaml

/-- The place of a node in its file. -/
abbrev NodeId := Nat

/-- The quotes of a flow scalar. -/
inductive ScalarStyle
  | plain
  | single
  | double
deriving DecidableEq, Repr

/-- What a node is. -/
inductive NodeKind
  | scalar (value : String) (style : ScalarStyle)
  /-- A block scalar: its value, and its body as written without the indentation. -/
  | block (folded : Bool) (value raw : String)
  /-- A sequence, with the comments at each item. -/
  | sequence (items : List NodeId) (comments : List (List Comment))
  | mapping (entries : List NodeId)
  | entry (key value : NodeId) (comments : List Comment)
  | tagged (tag : String) (value : NodeId)
  | anchor (name : String) (value : NodeId)
  | aliasOf (name : String)
deriving DecidableEq, Repr

/-- The nodes directly below, in document order. -/
def NodeKind.children : NodeKind → List NodeId
  | scalar .. | block .. | aliasOf _ => []
  | sequence items _ => items
  | mapping entries => entries
  | entry key value _ => [key, value]
  | tagged _ value => [value]
  | anchor _ value => [value]

/-- The same node with its children renamed. -/
def NodeKind.mapChildren (f : NodeId → NodeId) : NodeKind → NodeKind
  | scalar value style => scalar value style
  | block folded value raw => block folded value raw
  | aliasOf name => aliasOf name
  | sequence items comments => sequence (items.map f) comments
  | mapping entries => mapping (entries.map f)
  | entry key value comments => entry (f key) (f value) comments
  | tagged tag value => tagged tag (f value)
  | anchor name value => anchor name (f value)

@[simp] theorem NodeKind.children_mapChildren (f : NodeId → NodeId) (k : NodeKind) :
    (k.mapChildren f).children = k.children.map f := by
  cases k <;> rfl

/-- A node of a file. -/
structure Node where
  kind : NodeKind
  position : Position
  /-- Where it stands in its document, such as `$.build.script[1]`. -/
  path : String
  /-- The number of the source it was read from. -/
  source : Nat := 0
deriving DecidableEq, Repr

/-- A YAML stream. -/
structure File where
  name : String
  /-- The files the nodes were read from. -/
  sources : List String
  /-- The root of each document; an empty document has none. -/
  documents : List (Option NodeId) := []
  nodes : Array Node := #[]
deriving DecidableEq, Repr

namespace File

def node? (f : File) (id : NodeId) : Option Node := f.nodes[id]?

def kind? (f : File) (id : NodeId) : Option NodeKind := (f.node? id).map (·.kind)

/-- The line a node stands on. -/
def line (f : File) (id : NodeId) : Nat := ((f.node? id).map (·.position.line)).getD 0

/-- The number of the source a node was read from. -/
def sourceOf (f : File) (id : NodeId) : Nat := ((f.node? id).map (·.source)).getD 0

/-- The name of the source with a number. -/
def sourceName (f : File) (source : Nat) : String := f.sources[source]?.getD f.name

/-- The path of a node. -/
def path (f : File) (id : NodeId) : String := ((f.node? id).map (·.path)).getD ""

/-- The nodes directly below a node. -/
def children (f : File) (id : NodeId) : List NodeId := ((f.kind? id).map (·.children)).getD []

/-- The text of a scalar behind at most `fuel` wrappers. -/
def scalarTextWithin (f : File) : Nat → NodeId → Option String
  | 0, _ => none
  | fuel + 1, id =>
    match f.kind? id with
    | some (.scalar value _) | some (.block _ value _) => some value
    | some (.tagged _ value) | some (.anchor _ value) => f.scalarTextWithin fuel value
    | _ => none

/-- The text of a scalar behind anchors and tags. -/
def scalarText? (f : File) (id : NodeId) : Option String := f.scalarTextWithin f.nodes.size id

/-- The key of a mapping entry, if it is a scalar. -/
def entryKey? (f : File) (id : NodeId) : Option String :=
  match f.kind? id with
  | some (.entry key _ _) => f.scalarText? key
  | _ => none

/-- The comments at a mapping entry. -/
def entryComments (f : File) (id : NodeId) : List Comment :=
  match f.kind? id with
  | some (.entry _ _ comments) => comments
  | _ => []

/-- The nodes of the tree below a node to a depth, each before those below it. -/
def preorderWithin (f : File) : Nat → NodeId → List NodeId
  | 0, _ => []
  | fuel + 1, id => id :: (f.children id).flatMap (f.preorderWithin fuel)

/-- The nodes of the tree below a node, each before those below it. -/
def preorder (f : File) (id : NodeId) : List NodeId := f.preorderWithin f.nodes.size id

end File

end PipelineScripts.Yaml
