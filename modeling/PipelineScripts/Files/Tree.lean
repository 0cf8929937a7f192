import PipelineScripts.Path

/-!
# File trees

The files below a working directory. A path name is followed from there, one segment after the
other: `.` and an empty segment stay in a directory, `..` leads to the one that holds it. Nothing
above the working directory can be reached.
-/
namespace PipelineScripts.Files

/-- The name of a file or a directory. -/
abbrev Name := List Char

/-- A file or a directory. The names of a directory are ascending. -/
inductive Tree
  | text (content : String)
  /-- A file whose bytes are no text. -/
  | binary
  | directory (entries : List (Name × Tree))
deriving Repr

namespace Tree

def isDirectory : Tree → Bool
  | directory _ => true
  | _ => false

/-- What a directory holds. -/
def entries : Tree → List (Name × Tree)
  | directory es => es
  | _ => []

/-- What stands at a place, given by the names that lead there. -/
def get? (t : Tree) : List Name → Option Tree
  | [] => some t
  | name :: rest => (t.entries.lookup name).bind fun u => u.get? rest

/-- Sets what a name stands for, and keeps the names ascending. -/
def setEntry (name : Name) (t : Tree) : List (Name × Tree) → List (Name × Tree)
  | [] => [(name, t)]
  | (other, u) :: rest =>
    if name = other then (name, t) :: rest
    else if name < other then (name, t) :: (other, u) :: rest
    else (other, u) :: setEntry name t rest

/-- Puts something at a place. Missing directories are made, and a file in the way is replaced. -/
def put (t u : Tree) : List Name → Tree
  | [] => u
  | name :: rest =>
    let inner := (t.entries.lookup name).getD (directory [])
    directory (setEntry name (inner.put u rest) t.entries)

mutual

/-- All that is below a directory, each with the names that lead to it: first an entry, then what
is below it. -/
def descendants : Tree → List (List Name × Tree)
  | text _ => []
  | binary => []
  | directory es => entriesDescendants es

/-- The entries of a directory and all that is below them. -/
def entriesDescendants : List (Name × Tree) → List (List Name × Tree)
  | [] => []
  | e :: rest => entryDescendants e ++ entriesDescendants rest

/-- An entry and all that is below it. -/
def entryDescendants : Name × Tree → List (List Name × Tree)
  | (name, t) => ([name], t) :: (descendants t).map fun (names, u) => (name :: names, u)

end

/-- The most bytes of a name. -/
def maxNameBytes : Nat := 255

/-- The most bytes of a path name. -/
def maxPathBytes : Nat := 4095

def byteLength (s : List Char) : Nat := (String.ofList s).utf8ByteSize

/-- Whether a name is short enough. -/
def isShortName (name : List Char) : Bool := byteLength name ≤ maxNameBytes

/-- Whether a path name can be asked for, and starts in the working directory. -/
def isPassable (path : List Char) : Bool :=
  path ≠ [] && !Path.isAbsolute path && !path.contains '\x00' && byteLength path ≤ maxPathBytes

/-- Whether a path name can be used at all. -/
def isUsable (path : List Char) : Bool :=
  isPassable path && (Path.segments path).all isShortName

/-- Whether a directory stands at a place. -/
def hasDirectory (t : Tree) (place : List Name) : Bool :=
  ((t.get? place).map isDirectory).getD false

/-- The directory that holds a place. The working directory has none. -/
def parentPlace? (place : List Name) : Option (List Name) :=
  if place.isEmpty then none else some place.dropLast

/-- Follows one segment of a path name. -/
def follow? (t : Tree) (place : List Name) (segment : List Char) : Option (List Name) :=
  if !t.hasDirectory place then none
  else match Path.segmentComponent? segment with
    | some (.normal name) =>
      if (t.get? (place ++ [name])).isSome then some (place ++ [name]) else none
    | some .parent => parentPlace? place
    | _ => some place

/-- The place a path name leads to, if there is something. -/
def place? (t : Tree) (path : List Char) : Option (List Name) :=
  if isUsable path then (Path.segments path).foldlM t.follow? [] else none

/-- What a path name leads to. -/
def lookup? (t : Tree) (path : List Char) : Option Tree := (t.place? path).bind t.get?

def isDirectoryAt (t : Tree) (path : List Char) : Bool :=
  ((t.lookup? path).map isDirectory).getD false

/-- The text of a file. -/
def read? (t : Tree) (path : List Char) : Option String :=
  match t.lookup? path with
  | some (text content) => some content
  | _ => none

/-- Follows one segment and makes the directory it names, if there is nothing. -/
def enter? (t : Tree) (place : List Name) (segment : List Char) : Option (Tree × List Name) :=
  match Path.segmentComponent? segment with
  | some (.normal name) =>
    let next := place ++ [name]
    match t.get? next with
    | none => if isShortName name then some (t.put (directory []) next, next) else none
    | some u => if u.isDirectory then some (t, next) else none
  | some .parent => (parentPlace? place).map fun up => (t, up)
  | _ => some (t, place)

/-- Directories that were made: the tree after it, and whether all of them are there. -/
structure Making where
  tree : Tree
  complete : Bool

/-- Makes the directories that segments name, each in the one before. -/
def enterAll (t : Tree) (place : List Name) : List (List Char) → Making
  | [] => ⟨t, true⟩
  | segment :: rest =>
    match t.enter? place segment with
    | none => ⟨t, false⟩
    | some (u, next) => u.enterAll next rest

/-- Makes a directory and those that lead to it. No path name asks for nothing. What was made before
a failure stays. -/
def makeDirectories (t : Tree) (path : List Char) : Making :=
  if path = [] then ⟨t, true⟩
  else if isPassable path then t.enterAll [] (Path.segments path)
  else ⟨t, false⟩

/-- Writes a file into a directory that is there. -/
def write? (t : Tree) (path : List Char) (content : String) : Option Tree :=
  if !isUsable path then none
  else match (Path.segments path).reverse with
    | [] => none
    | last :: before =>
      match Path.segmentComponent? last, before.reverse.foldlM t.follow? [] with
      | some (.normal name), some place =>
        if t.hasDirectory place && !t.hasDirectory (place ++ [name]) then
          some (t.put (text content) (place ++ [name]))
        else none
      | _, _ => none

/-- The texts of a tree with their path names. -/
def texts (t : Tree) : List (String × String) :=
  t.descendants.filterMap fun (names, u) =>
    match u with
    | text content => some (String.ofList (Text.join ['/'] names), content)
    | _ => none

/-- The texts that are new or different after a run. -/
def changedTexts (before after : Tree) : List (String × String) :=
  after.texts.filter fun (name, content) => before.read? name.toList ≠ some content

end Tree

end PipelineScripts.Files
