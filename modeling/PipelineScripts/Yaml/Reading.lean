import PipelineScripts.Yaml.Tree

/-!
# Reading YAML files

A file read on its own must define the anchor of every alias. A fragment, one of several files that
are merged later, may leave some to the others: its unknown aliases are kept as aliases.
-/
namespace PipelineScripts.Yaml

/-- Why a file cannot be read. -/
inductive ReadError
  | malformed
  /-- An alias of an anchor that is not defined before it. -/
  | unknownAlias (name : String) (line : Nat)
deriving DecidableEq, Repr

/-- What stands for the `*` of an unknown alias, so that it reads as a plain scalar of the same
length. -/
def aliasPlaceholder : Char := '_'

/-- A source whose events could be read, with the aliases replaced in it. -/
structure EventSource where
  source : List Char
  events : List Event
  aliases : List (Nat × String)
deriving DecidableEq, Repr

/-- Reads the events of a source. An unknown alias is an error, or, if it is to be kept, is
replaced by a scalar before the source is read again. -/
def readEvents (keep : Bool) : Nat → List Char → List (Nat × String) →
    Except ReadError EventSource
  | 0, _, _ => .error .malformed
  | fuel + 1, source, aliases =>
    match Event.read source with
    | .ok events => .ok ⟨source, events, aliases⟩
    | .error .malformed => .error .malformed
    | .error (.unknownAnchor mark) =>
      match aliasAt? source mark.index with
      | none => .error .malformed
      | some (star, name) =>
        if keep then
          readEvents keep fuel (source.set star aliasPlaceholder)
            ((star, String.ofList name) :: aliases)
        else .error (.unknownAlias (String.ofList name) mark.line)

namespace File

/-- Reads a file. Each turn of `readEvents` takes away one `*`. -/
def read (keep : Bool) (name content : String) : Except ReadError File := do
  let source := content.toList
  let read ← readEvents keep (source.count '*' + 1) source []
  match File.ofEvents? name read.source read.events read.aliases with
  | some file => .ok file
  | none => .error .malformed

/-- Reads a file of its own. -/
def parse (name content : String) : Except ReadError File := read false name content

/-- Reads one of several files that belong together. -/
def parseFragment (name content : String) : Except ReadError File := read true name content

end File

end PipelineScripts.Yaml
