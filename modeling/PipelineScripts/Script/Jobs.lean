import PipelineScripts.Script.Draft

/-!
# Jobs

The jobs of a pipeline are the entries of the root mapping whose value is a mapping. A name with a
dot in front marks a template, which is used by others and never run. A job's scripts are in three
sections; those it does not have may come from the mappings it merges with `<<`.

A file that starts with a header document has its jobs in the second document.
-/
namespace PipelineScripts.Script

open Yaml

/-- The number of the document that holds the jobs. -/
def jobDocument? (f : File) : Option Nat :=
  match f.documents.length with
  | 0 => none
  | 1 => some 0
  | _ => some 1

/-- The root of the document that holds the jobs. -/
def jobRoot? (f : File) : Option NodeId := do
  let i ← jobDocument? f
  let root ← f.documents[i]?
  root

/-- The keys of the sections that hold scripts. -/
def sectionKeys : List String := ["before_script", "script", "after_script"]

/-- The key that merges mappings. -/
def mergeKey : String := "<<"

def isSection (f : File) (entry : NodeId) : Bool :=
  match f.entryKey? entry with
  | some key => sectionKeys.contains key
  | none => false

/-- Whether a key of the root mapping names a job that runs. -/
def isJobKey (key : String) : Bool := key.toList.head? != some '.' && key != mergeKey

/-- The mappings a merge key names: one, or those of a sequence. -/
def mergeSources (s : Scope) (value : NodeId) : List NodeId :=
  let value := s.unwrap value
  match s.file.kind? value with
  | some (.sequence items _) => items
  | _ => [value]

/-- The sections that an entry merges. -/
def mergedSections (s : Scope) (entry : NodeId) : List NodeId :=
  match s.file.kind? entry with
  | some (.entry _ value _) =>
    if s.file.entryKey? entry = some mergeKey then
      (mergeSources s value).flatMap fun source =>
        ((s.mappingEntries? source).getD []).filter (isSection s.file)
    else []
  | _ => []

/-- Adds an entry unless one with its key is there. -/
def addMissing (f : File) (sections : List NodeId) (entry : NodeId) : List NodeId :=
  if sections.all fun e => f.entryKey? e != f.entryKey? entry then sections ++ [entry]
  else sections

/-- The sections of a job: its own, then those it merges and does not have. -/
def jobSections (s : Scope) (entries : List NodeId) : List NodeId :=
  (entries.flatMap (mergedSections s)).foldl (addMissing s.file)
    (entries.filter (isSection s.file))

/-- The sections of one entry of the root mapping, with their names; none unless it is a job that
runs. -/
def sectionsOf (s : Scope) (entry : NodeId) : List (NodeId × String × Nat) :=
  match s.file.kind? entry, s.file.entryKey? entry with
  | some (.entry _ value _), some job =>
    if isJobKey job then
      match s.mappingEntries? value with
      | some entries =>
        (jobSections s entries).zipIdx.filterMap fun (e, i) =>
          (s.file.entryKey? e).map fun key => (e, job ++ "_" ++ key, i)
      | none => []
    else []
  | _, _ => []

/-- The sections of all jobs, expanded. -/
def jobDrafts (f : File) : Except ExtractError (List Draft) :=
  match jobRoot? f with
  | none => .ok []
  | some root => do
    let aliases ← AliasMap.build f root
    let s : Scope := ⟨f, root, aliases⟩
    let sections := ((s.mappingEntries? root).getD []).flatMap (sectionsOf s)
    concatResults
      (fun (entry, base, index) =>
        (entryFragments s entry).map fun fragments => [⟨entry, base, index, fragments⟩])
      sections

/-- The blocks of all jobs. -/
def jobBlocks (f : File) (shell : String) (names : BlockNames) :
    Except ExtractError (List Block × BlockNames) :=
  (jobDrafts f).map (Draft.blocksOfAll f shell names)

end PipelineScripts.Script
