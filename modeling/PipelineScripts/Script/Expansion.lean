import PipelineScripts.Script.Directive
import PipelineScripts.Script.Folding
import PipelineScripts.Script.Reference

/-!
# Expanding a section

The value of a section is a scalar or a sequence, perhaps nested, with anchors, aliases and
references among its parts. Its expansion is the list of its scalars.

Two walks are nested: one goes down the tree, the other jumps to where an alias or a reference
points. A jump that is made again while its own expansion goes on is a cycle, so no more jumps
follow each other than there are nodes, and no path down between two of them has more nodes than
the file.
-/
namespace PipelineScripts.Script

open Yaml

/-- A piece of script. -/
structure Fragment where
  text : String
  /-- The line of its first line in its file. -/
  line : Nat
  /-- What the sequence items around it say. -/
  directive : Option Directive
  /-- The number of the source it was read from. -/
  source : Nat
deriving DecidableEq, Repr

/-- The jumps whose expansion goes on: the keys of references, and aliases. -/
structure InProgress where
  references : List String := []
  aliases : List NodeId := []
deriving DecidableEq, Repr

/-- The outcome of an expansion. -/
abbrev Expanded := Except ExtractError (List Fragment)

/-- Concatenates the results of a function that may fail. -/
def concatResults {α ε β : Type} (f : α → Except ε (List β)) : List α → Except ε (List β)
  | [] => .ok []
  | a :: rest =>
    match f a with
    | .error e => .error e
    | .ok bs =>
      match concatResults f rest with
      | .error e => .error e
      | .ok more => .ok (bs ++ more)

/-- The directives that apply to the items of a sequence: what applies around them, combined with
their own. -/
def itemDirectives (outer : Option Directive) (items : List NodeId)
    (comments : List (List Comment)) : List (NodeId × Option Directive) :=
  items.zipIdx.map fun (item, i) =>
    (item, Directive.combine outer
      (Directive.ofComments? ((comments[i]?.getD []).map (·.text))))

/-- The fragment of a scalar. A block scalar's text starts on the line below its header. -/
def leafFragment? (f : File) (id : NodeId) (directive : Option Directive) : Option Fragment :=
  match f.kind? id with
  | some (.scalar value _) => some ⟨value, f.line id, directive, f.sourceOf id⟩
  | some (.block folded value raw) =>
    let text := if folded then String.ofList (foldLiteral raw.toList) else value
    some ⟨text, f.line id + 1, directive, f.sourceOf id⟩
  | _ => none

namespace Scope

/-- A way to go on at another place of the document. -/
abbrev Jump := InProgress → Option Directive → NodeId → Expanded

/-- Goes on where a reference points. A malformed one, or one that points nowhere, is empty. -/
def followReference (s : Scope) (jump : Jump) (p : InProgress) (d : Option Directive)
    (id : NodeId) : Expanded :=
  match referencePath? s.file id with
  | none => .ok []
  | some keys =>
    let path := Text.joinStrings "." keys
    match s.resolvePath? s.root keys with
    | none => .ok []
    | some target =>
      if p.references.contains path then .error (.referenceCycle path)
      else jump { p with references := path :: p.references } d target

/-- Goes on where an alias points. -/
def followAlias (s : Scope) (jump : Jump) (p : InProgress) (d : Option Directive)
    (id : NodeId) (name : String) : Expanded :=
  match s.aliases.target? id with
  | none => .error (.unresolvedAlias name (s.file.line id))
  | some target =>
    if p.aliases.contains id then .error (.referenceCycle ("*" ++ name))
    else jump { p with aliases := id :: p.aliases } d target

/-- Expands the tree below a node, to a depth. -/
def expandTree (s : Scope) (jump : Jump) : Nat → Jump
  | 0, _, _, _ => .error .endlessTree
  | depth + 1, p, d, id =>
    match s.file.kind? id with
    | some (.tagged tag value) =>
      if tag = referenceTag then s.followReference jump p d id
      else s.expandTree jump depth p d value
    | some (.anchor _ value) => s.expandTree jump depth p d value
    | some (.aliasOf name) => s.followAlias jump p d id name
    | some (.sequence items comments) =>
      concatResults (fun (item, d) => s.expandTree jump depth p d item)
        (itemDirectives d items comments)
    | _ => .ok (leafFragment? s.file id d).toList

/-- Expands a node, with a number of jumps one after another. -/
def expandWithin (s : Scope) : Nat → Jump
  | 0, _, _, _ => .error .endlessTree
  | jumps + 1, p, d, id => s.expandTree (s.expandWithin jumps) (s.file.nodes.size + 1) p d id

/-- Expands a node into its scalars, in document order. -/
def expand (s : Scope) (id : NodeId) : Expanded :=
  s.expandWithin (s.file.nodes.size + 1) {} none id

end Scope

end PipelineScripts.Script
