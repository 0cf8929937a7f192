import PipelineScripts.Script.Block
import PipelineScripts.Script.Expansion
import PipelineScripts.Script.Inputs
import PipelineScripts.Script.Names

/-!
# From sections to blocks

A draft is a mapping entry that holds a script, with its expansion. Each fragment becomes a block
with a name of its own.
-/
namespace PipelineScripts.Script

open Yaml

/-- A section to be made into blocks. -/
structure Draft where
  /-- The mapping entry. -/
  entry : NodeId
  /-- What its blocks are named after. -/
  base : String
  /-- Where the numbering of names that are taken starts. -/
  index : Nat
  fragments : List Fragment
deriving DecidableEq, Repr

/-- The expansion of the value of a mapping entry. -/
def entryFragments (s : Scope) (entry : NodeId) : Expanded :=
  match s.file.kind? entry with
  | some (.entry _ value _) => s.expand value
  | _ => .ok []

namespace Draft

/-- The directive of the entry. -/
def directive? (f : File) (d : Draft) : Option Directive :=
  Directive.ofComments? ((f.entryComments d.entry).map (·.text))

/-- The path of the entry's value. -/
def path (f : File) (d : Draft) : String :=
  match f.kind? d.entry with
  | some (.entry _ value _) => f.path value
  | _ => ""

/-- The block of one fragment, under a name. Input tokens are replaced, and the entry's directive
applies with that of the items around the fragment. -/
def block (f : File) (shell : String) (d : Draft) (fragment : Fragment) (name : String) : Block :=
  let directive := Directive.combine (d.directive? f) fragment.directive
  { file := f.sourceName fragment.source
    name
    script := String.ofList (replaceInputs fragment.text.toList)
    shell := Block.chooseShell directive shell
    path := d.path f
    startLine := fragment.line
    directive
    entry := some d.entry }

/-- The names its blocks ask for. -/
def requests (d : Draft) : List (String × Nat) :=
  d.fragments.zipIdx.map fun (_, i) => (fragmentName d.base i, d.index)

/-- The blocks of a draft, with names that are free. -/
def blocks (f : File) (shell : String) (names : BlockNames) (d : Draft) :
    List Block × BlockNames :=
  let (given, names) := names.reserveAll d.requests
  (List.zipWith (d.block f shell) d.fragments given, names)

/-- The blocks of several drafts. -/
def blocksOfAll (f : File) (shell : String) (names : BlockNames) :
    List Draft → List Block × BlockNames
  | [] => ([], names)
  | d :: rest =>
    let (first, names) := d.blocks f shell names
    let (others, names) := blocksOfAll f shell names rest
    (first ++ others, names)

/-- Numbers drafts by the blocks before them. -/
def numbered (count : Nat) : List Draft → List Draft
  | [] => []
  | d :: rest => { d with index := count } :: numbered (count + d.fragments.length) rest

end Draft

end PipelineScripts.Script
