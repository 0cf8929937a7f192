import PipelineScripts.Files.Pattern
import PipelineScripts.Files.Tree

/-!
# Searching for files

The path names a pattern stands for, and the pipeline files they lead to. Names of a directory are
visited in ascending order, a directory before what is in it.
-/
namespace PipelineScripts.Files

/-- Whether a path name is a plain `.`. -/
def isCurrent (path : List Char) : Bool := Path.components path == [.current]

/-- The path name of an entry. In the working directory it is the name alone. -/
def entryPath (path name : List Char) : List Char :=
  if isCurrent path then name else Path.append path name

/-- The path name of what is below a directory. -/
def pathBelow (path : List Char) (names : List Name) : List Char := names.foldl entryPath path

/-- The entries `..` and `.`, which every directory has. A pattern stands for them only if it
starts with a dot. -/
def dotEntries : Part → List (List Char)
  | .wild (.char '.' :: ts) =>
    [['.', '.'], ['.']].filter (Token.matchName (.char '.' :: ts))
  | _ => []

/-- Whether a name without wildcards leads on from a directory. -/
def leadsOn (t : Tree) (path name next : List Char) : Bool :=
  if name = ['.'] || name = ['.', '.'] then t.isDirectoryAt path else (t.lookup? next).isSome

/-- What a directory holds. -/
def entriesAt (t : Tree) (path : List Char) : List (Name × Tree) :=
  ((t.lookup? path).map Tree.entries).getD []

/-- What is below a directory. -/
def descendantsAt (t : Tree) (path : List Char) : List (List Name × Tree) :=
  ((t.lookup? path).map Tree.descendants).getD []

/-- The path names that segments stand for, from a path name on. -/
def search (t : Tree) : List Part → List Char → List (List Char)
  | [], path => [path]
  | .literal name :: rest, path =>
    let next := entryPath path name
    if leadsOn t path name next then search t rest next else []
  | .wild tokens :: rest, path =>
    if t.isDirectoryAt path then
      (dotEntries (.wild tokens)).flatMap (fun dots => search t rest (Path.append path dots))
        ++ (entriesAt t path).flatMap fun (name, _) =>
          if Token.matchName tokens name then search t rest (entryPath path name) else []
    else []
  | [.directories], path =>
    (descendantsAt t path).filterMap fun (names, u) =>
      if u.isDirectory then some (pathBelow path names) else none
  | .directories :: .directories :: rest, path => search t (.directories :: rest) path
  | .directories :: part :: rest, path =>
    (descendantsAt t path).flatMap fun (names, _) =>
      if part.matchesName (names.getLastD []) then search t rest (pathBelow path names) else []

/-- The path names a pattern stands for. It is matched against the files below the working
directory only. -/
def Pattern.search (p : Pattern) (t : Tree) : List (List Char) :=
  if p.absolute then []
  else
    let found := Files.search t p.parts ['.']
    if p.directoriesOnly then found.filter t.isDirectoryAt else found

/-- The endings of pipeline files. -/
def pipelineExtensions : List (List Char) := ["yml".toList, "yaml".toList]

/-- Whether a file found in a directory is a pipeline file. -/
def isPipelineFile (path : List Char) : Bool :=
  match Path.extension? path with
  | some extension => pipelineExtensions.contains (extension.map Char.toLower)
  | none => false

/-- The pipeline files below a directory. -/
def pipelineFilesBelow (t : Tree) (path : List Char) : List (List Char) :=
  (descendantsAt t path).filterMap fun (names, u) =>
    let file := names.foldl Path.append path
    if !u.isDirectory && isPipelineFile file then some file else none

/-- The files at a path name: the pipeline files below a directory, or else the file itself. -/
def filesAt (t : Tree) (path : List Char) : List (List Char) :=
  if t.isDirectoryAt path then pipelineFilesBelow t path else [path]

/-- Whether two path names have the same components. -/
def samePath (a b : List Char) : Bool := Path.components a == Path.components b

/-- Adds a path name, unless it is there. -/
def addNew (found : List (List Char)) (path : List Char) : List (List Char) :=
  if found.any (samePath path) then found else found ++ [path]

/-- The files that patterns stand for, each once; `none` if a pattern is malformed. -/
def collect? (t : Tree) (patterns : List String) : Option (List (List Char)) :=
  (patterns.mapM fun text => Pattern.parse? text.toList).map fun ps =>
    ((ps.flatMap (·.search t)).flatMap (filesAt t)).foldl addNew []

end PipelineScripts.Files
