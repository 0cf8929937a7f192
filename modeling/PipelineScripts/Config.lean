import PipelineScripts.Toml.Document

/-!
# Configuration
-/
namespace PipelineScripts

/-- The kinds of pipeline files. -/
inductive Dialect
  | gitlab
deriving DecidableEq, Repr

def Dialect.name : Dialect → String
  | gitlab => "gitlab"

def Dialect.ofName? (text : String) : Option Dialect :=
  if text = Dialect.gitlab.name then some .gitlab else none

/-- The options of a run. -/
structure Config where
  /-- The shell of scripts that name none; empty if it is left to the linter. -/
  shell : String := ""
  dialect : Dialect := .gitlab
  /-- Whether all files are one pipeline. -/
  merge : Bool := false
  /-- Whether it is an error to find no script. -/
  strict : Bool := false
  /-- Flags for the linter, with or without their leading hyphens. -/
  linterFlags : List String := []
deriving DecidableEq, Repr

namespace Config

open Toml

/-- The file that is read if none is named. -/
def defaultFile : String := "scriptcheck.toml"

/-- Reads the value of a key, if it is set. -/
def field? {α : Type} (entries : Entries) (key : String) (default : α) (read : Value → Option α) :
    Option α :=
  match entries.lookup key with
  | none => some default
  | some value => read value

def readText? : Value → Option String
  | .string text => some text
  | _ => none

def readFlag? : Value → Option Bool
  | .bool b => some b
  | _ => none

def readTexts? : Value → Option (List String)
  | .array items => items.mapM readText?
  | _ => none

/-- The entries of any table. -/
def entries? : Value → Option Entries
  | .table _ entries | .inlineTable entries => some entries
  | _ => none

/-- A dialect is named by a text, or by the only key of a table with an empty value. -/
def readDialect? (value : Value) : Option Dialect :=
  match value with
  | .string text => Dialect.ofName? text
  | _ =>
    match entries? value with
    | some [(key, inner)] =>
      match inner, entries? inner with
      | .array [], _ | _, some [] => Dialect.ofName? key
      | _, _ => none
    | _ => none

/-- Whether the values of all keys but some can be read, whatever they are. -/
def othersReadable (known : List String) (entries : Entries) : Bool :=
  entries.all fun (key, value) => known.contains key || value.isReadable

/-- The linter's options in the entries of a table. -/
def linterFlagsOfEntries? (entries : Entries) : Option (List String) :=
  if othersReadable ["args"] entries then field? entries "args" [] readTexts? else none

/-- The linter's options: a table, or an array with the flags in front. A date or a time counts as
a table of its parts, none of which is an option. -/
def readLinterFlags? (value : Value) : Option (List String) :=
  match value with
  | .moment | .array [] => some []
  | .array (flags :: _) => readTexts? flags
  | _ => (entries? value).bind linterFlagsOfEntries?

/-- The keys that mean something. -/
def knownKeys : List String := ["shell", "pipeline", "merge", "strict", "shellcheck"]

/-- The options in the entries of a document. Other keys do not count. -/
def ofEntries? (entries : Entries) : Option Config := do
  if !othersReadable knownKeys entries then none
  let shell ← field? entries "shell" "" readText?
  let dialect ← field? entries "pipeline" .gitlab readDialect?
  let merge ← field? entries "merge" false readFlag?
  let strict ← field? entries "strict" false readFlag?
  let linterFlags ← field? entries "shellcheck" [] readLinterFlags?
  return { shell, dialect, merge, strict, linterFlags }

/-- Reads options; `none` if the text is malformed or a value has the wrong kind. -/
def parse? (text : List Char) : Option Config := (Toml.parse? text).bind ofEntries?

end Config

end PipelineScripts
