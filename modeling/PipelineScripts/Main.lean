import Std.Time.DateTime.Timestamp
import PipelineScripts.CommandLine.Program
import PipelineScripts.Text.Instant

/-!
# The command line

Reads the files that the arguments name, runs the program on them, and writes what it leaves
behind. No other program is started from here, so the linter counts as missing.
-/
namespace PipelineScripts.CommandLine

open Check Files

/-- The names on the way to a file below the working directory. -/
def placeOf? (path : List Char) : Option (List Name) :=
  if Tree.isUsable path then
    (Path.components path).foldr (fun c rest =>
      match c, rest with
      | .normal name, some names => some (name :: names)
      | .current, some names => some names
      | _, _ => none) (some [])
  else none

/-- Adds a file to a tree, if it can be read. -/
def loadFile (t : Tree) (name : String) : IO Tree := do
  match placeOf? name.toList with
  | none => return t
  | some place =>
    try
      let bytes ← IO.FS.readBinFile name
      let file := match String.fromUTF8? bytes with
        | some content => Tree.text content
        | none => Tree.binary
      return t.put file place
    catch _ => return t

/-- Writes a file and makes the directories that lead to it. -/
def storeFile (name content : String) : IO Unit := do
  match Path.parent? name.toList with
  | none | some [] => pure ()
  | some directory => IO.FS.createDirAll (String.ofList directory)
  IO.FS.writeFile name content

/-- Runs the program with arguments. -/
def execute (arguments : List String) : IO UInt32 := do
  let files ← (Config.defaultFile :: arguments).foldlM loadFile (Tree.directory [])
  let now ← Std.Time.Timestamp.now
  let surroundings : Surroundings :=
    { files
      linter := .missing
      time := Text.instantText now.toNanosecondsSinceUnixEpoch.val.toNat
      detail := "unreadable or malformed" }
  let response := run surroundings arguments
  for (name, content) in files.changedTexts response.files do
    storeFile name content
  IO.print response.stdout
  IO.eprint response.stderr
  return response.code.toUInt32

end PipelineScripts.CommandLine

def main (arguments : List String) : IO UInt32 := PipelineScripts.CommandLine.execute arguments
