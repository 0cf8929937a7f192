import PipelineScripts.Script.Draft

/-!
# Annotated entries

A mapping entry with a directive comment holds a script, wherever it stands in the file. What is
below an entry that was extracted is not looked at again.
-/
namespace PipelineScripts.Script

open Yaml

/-- Finds the outermost annotated entries below a node, to a depth, each with its expansion. An
entry without any fragment is looked into; an entry that is `covered` is passed over. -/
def annotatedWithin (s : Scope) (covered : List NodeId) :
    Nat → NodeId → Except ExtractError (List Draft)
  | 0, _ => .error .endlessTree
  | depth + 1, id =>
    match s.file.kind? id with
    | some (.mapping entries) => concatResults (annotatedWithin s covered depth) entries
    | some (.sequence items _) => concatResults (annotatedWithin s covered depth) items
    | some (.anchor _ value) | some (.tagged _ value) => annotatedWithin s covered depth value
    | some (.entry _ value comments) =>
      if covered.contains id then .ok []
      else if (Directive.ofComments? (comments.map (·.text))).isNone then
        annotatedWithin s covered depth value
      else
        match s.expand value with
        | .error e => .error e
        | .ok [] => annotatedWithin s covered depth value
        | .ok fragments =>
          .ok [⟨id, "directive_" ++ (s.file.entryKey? id).getD "", 0, fragments⟩]
    | _ => .ok []

/-- The annotated entries of a document. -/
def annotatedInDocument (f : File) (covered : List NodeId) (root : NodeId) :
    Except ExtractError (List Draft) := do
  let aliases ← AliasMap.build f root
  annotatedWithin ⟨f, root, aliases⟩ covered f.nodes.size root

/-- The annotated entries of all documents. -/
def annotatedDrafts (f : File) (covered : List NodeId) : Except ExtractError (List Draft) :=
  (concatResults (annotatedInDocument f covered) (f.documents.filterMap id)).map
    (Draft.numbered 0)

/-- The blocks of the annotated entries. -/
def annotatedBlocks (f : File) (shell : String) (covered : List NodeId) (names : BlockNames) :
    Except ExtractError (List Block × BlockNames) :=
  (annotatedDrafts f covered).map (Draft.blocksOfAll f shell names)

end PipelineScripts.Script
