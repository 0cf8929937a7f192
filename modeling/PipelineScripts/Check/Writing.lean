import PipelineScripts.Check.Extraction

/-!
# Writing scripts

The scripts of some files are written below a directory, each to a file of its own. What is
written before a failure stays.
-/
namespace PipelineScripts.Check

open Script

/-- The scripts that were written, by their path names, and the files that failed. -/
structure WriteSummary where
  files : Nat
  written : List String
  errors : List FileError
deriving DecidableEq, Repr

/-- A run that writes: the files after it, and what it did. -/
structure Writing (α : Type) where
  files : Files.Tree
  result : Except Failure α

/-- Writes one script and gives its path name. Directories that were made for it stay, also where it
cannot be written. -/
def writeBlock (root : String) (t : Files.Tree) (b : Block) : Writing String :=
  let target := b.target root
  let parent := (Path.parent? target.toList).getD []
  let making := t.makeDirectories parent
  if making.complete then
    match making.tree.write? target.toList b.text with
    | none => ⟨making.tree, .error (.io target)⟩
    | some u => ⟨u, .ok target⟩
  else ⟨making.tree, .error (.io (String.ofList parent))⟩

/-- Writes scripts in their order, up to the first failure. -/
def writeBlocks (root : String) (t : Files.Tree) : List Block → Writing (List String)
  | [] => ⟨t, .ok []⟩
  | b :: rest =>
    let first := writeBlock root t b
    match first.result with
    | .error e => ⟨first.files, .error e⟩
    | .ok name =>
      let more := writeBlocks root first.files rest
      ⟨more.files, more.result.map (name :: ·)⟩

namespace Surroundings

/-- Writes the scripts of the files that patterns stand for. -/
def extract (s : Surroundings) (config : Config) (patterns : List String) (root : String) :
    Writing WriteSummary :=
  let extraction := s.collect patterns >>= s.extractScripts config
  match extraction with
  | .error e => ⟨s.files, .error e⟩
  | .ok e =>
    let writing := writeBlocks root s.files e.blocks
    ⟨writing.files, writing.result.map fun written => ⟨e.files, written, e.errors⟩⟩

end Surroundings

end PipelineScripts.Check
