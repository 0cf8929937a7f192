import PipelineScripts.Text.Lines

/-!
# Path names

Path names with `/` between their components. Repeated slashes and `.` components mean nothing,
apart from a `.` in front; `..` is kept as it is, since only a file system knows where it leads.
-/
namespace PipelineScripts.Path

open Text

/-- A component of a path name. -/
inductive Component
  | root
  | current
  | parent
  | normal (name : List Char)
deriving DecidableEq, Repr

/-- The text of a component. -/
def Component.text : Component → List Char
  | root => ['/']
  | current => ['.']
  | parent => ['.', '.']
  | normal name => name

/-- The pieces between the slashes. -/
def segments (path : List Char) : List (List Char) := split (· == '/') path

def isAbsolute (path : List Char) : Bool := path.head? == some '/'

/-- The component a segment names: none for an empty one and for `.`. -/
def segmentComponent? (segment : List Char) : Option Component :=
  if segment = [] || segment = ['.'] then none
  else if segment = ['.', '.'] then some .parent
  else some (.normal segment)

/-- What stands before the segments: the root, or a `.` in front. -/
def leading (path : List Char) : List Component :=
  if isAbsolute path then [.root]
  else if (segments path).head? = some ['.'] then [.current]
  else []

/-- The components of a path name. -/
def components (path : List Char) : List Component :=
  leading path ++ (segments path).filterMap segmentComponent?

/-- The last component, if it is a name. -/
def fileName? (path : List Char) : Option (List Char) :=
  match (components path).getLast? with
  | some (.normal name) => some name
  | _ => none

/-- Splits a file name at its last dot. A dot in front does not count. -/
def splitExtension (name : List Char) : List Char × Option (List Char) :=
  match splitLast? '.' name with
  | some ([], _) => (name, none)
  | some (stem, extension) => (stem, some extension)
  | none => (name, none)

/-- The file name without its extension. -/
def stem? (path : List Char) : Option (List Char) :=
  (fileName? path).map fun name => (splitExtension name).1

/-- What follows the last dot of the file name. -/
def extension? (path : List Char) : Option (List Char) :=
  (fileName? path).bind fun name => (splitExtension name).2

/-- Drops the segments at the end that name nothing. A `.` in front of a relative path does. -/
def dropEmptySegments (reversed : List (List Char)) : List (List Char) :=
  match reversed with
  | [] => []
  | s :: rest =>
    if (segmentComponent? s).isSome || (rest.isEmpty && s = ['.']) then s :: rest
    else dropEmptySegments rest

/-- The path name without its last component, as written; `none` for the root and for no path. -/
def parent? (path : List Char) : Option (List Char) :=
  match (components path).getLast? with
  | none | some .root => none
  | some _ =>
    let kept := dropEmptySegments ((dropEmptySegments (segments path).reverse).drop 1)
    if kept.isEmpty then some (if isAbsolute path then ['/'] else [])
    else some (join ['/'] kept.reverse)

/-- Appends a path name to another. An absolute one replaces what is before it. -/
def append (base path : List Char) : List Char :=
  if isAbsolute path then path
  else if base = [] || base.getLast? == some '/' then base ++ path
  else base ++ '/' :: path

/-- The names among the components, as a relative path. -/
def normalPart (path : List Char) : List Char :=
  let names := (components path).filterMap fun
    | .normal name => some name
    | _ => none
  names.foldl append []

end PipelineScripts.Path
