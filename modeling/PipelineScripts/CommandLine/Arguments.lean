import PipelineScripts.Config
import PipelineScripts.Rendering.Format

/-!
# Command-line arguments

Options that hold for every command may stand before or behind its name; where one stands on both
sides, the one behind counts. A value may be the next argument or be attached, as in
`--shell=sh`, `-ssh` or `-s=sh`, and flags without values may share a hyphen. What follows
`--flags` belongs to the linter, and what follows `--` is a pattern.
-/
namespace PipelineScripts.CommandLine

open Rendering

/-- The options. -/
inductive Key
  | verbose
  | config
  | dialect
  | merge
  | strict
  | shell
  | format
  | output
  | flags
  | help
  | version
deriving DecidableEq, Repr

/-- The commands, and the program before its command is known. -/
inductive Level
  | program
  | check
  | extract
  | tools
deriving DecidableEq, Repr

/-- How an option is written. -/
structure Spelling where
  key : Key
  long : List Char
  short : Option Char
deriving DecidableEq, Repr

def spellings : List Spelling :=
  [ ⟨.verbose, "verbose".toList, some 'v'⟩,
    ⟨.config, "config".toList, none⟩,
    ⟨.dialect, "type".toList, some 't'⟩,
    ⟨.merge, "merge".toList, none⟩,
    ⟨.strict, "strict".toList, none⟩,
    ⟨.shell, "shell".toList, some 's'⟩,
    ⟨.format, "format".toList, some 'f'⟩,
    ⟨.output, "output".toList, some 'o'⟩,
    ⟨.flags, "flags".toList, none⟩,
    ⟨.help, "help".toList, some 'h'⟩,
    ⟨.version, "version".toList, some 'V'⟩ ]

namespace Key

/-- Whether an option needs a value. -/
def takesValue : Key → Bool
  | config | dialect | shell | format | output | flags => true
  | _ => false

/-- Whether an option may stand at a level. -/
def allowedAt : Key → Level → Bool
  | shell, l | output, l => l == .check || l == .extract
  | format, l | flags, l => l == .check
  | version, l => l == .program
  | _, _ => true

/-- The option with a long name. -/
def ofLong? (level : Level) (name : List Char) : Option Key :=
  (spellings.find? fun s => s.long == name && s.key.allowedAt level).map (·.key)

/-- The option with a short name. -/
def ofShort? (level : Level) (c : Char) : Option Key :=
  (spellings.find? fun s => s.short == some c && s.key.allowedAt level).map (·.key)

end Key

/-- Why there is nothing to run: the arguments are refused, or ask about the program itself. -/
inductive Stop
  | usage
  | help
  | version
deriving DecidableEq, Repr

/-- The options that were given at one level, and the patterns. -/
structure Settings where
  verbose : Bool := false
  config : Option String := none
  dialect : Option Dialect := none
  merge : Bool := false
  strict : Bool := false
  shell : Option String := none
  format : Option Format := none
  output : Option String := none
  flags : List String := []
  patterns : List String := []
deriving DecidableEq, Repr

namespace Settings

/-- Sets something that was not set. -/
def setOnce {α : Type} (old : Option α) (new : α) : Except Stop (Option α) :=
  if old.isSome then .error .usage else .ok (some new)

/-- A value that must be one of a list of names. -/
def named {α : Type} (value : Option α) : Except Stop α :=
  match value with
  | some x => .ok x
  | none => .error .usage

/-- A path name, which must not be empty. -/
def pathName (value : String) : Except Stop String :=
  if value.isEmpty then .error .usage else .ok value

/-- Sets an option that has a value. Only the flags of the linter may be repeated. -/
def setValue (s : Settings) (key : Key) (value : String) : Except Stop Settings :=
  match key with
  | .config => do return { s with config := ← setOnce s.config (← pathName value) }
  | .dialect => do
    return { s with dialect := ← setOnce s.dialect (← named (Dialect.ofName? value)) }
  | .shell => do return { s with shell := ← setOnce s.shell value }
  | .format => do return { s with format := ← setOnce s.format (← named (Format.ofName? value)) }
  | .output => do return { s with output := ← setOnce s.output (← pathName value) }
  | .flags => .ok { s with flags := s.flags ++ [value] }
  | _ => .error .usage

/-- Sets an option that has no value. -/
def turnOn (s : Settings) (key : Key) : Except Stop Settings :=
  match key with
  | .verbose => if s.verbose then .error .usage else .ok { s with verbose := true }
  | .merge => if s.merge then .error .usage else .ok { s with merge := true }
  | .strict => if s.strict then .error .usage else .ok { s with strict := true }
  | .help => .error .help
  | .version => .error .version
  | _ => .error .usage

end Settings

/-- What an argument may be. -/
inductive Expecting
  | anything
  /-- The value of an option. -/
  | value (key : Key)
  /-- More flags for the linter. -/
  | moreFlags
  /-- Patterns only. -/
  | patterns
deriving DecidableEq, Repr

/-- The settings so far, and what is expected next. -/
abbrev State := Settings × Expecting

/-- An option with or without a value attached to it. -/
def readOption (s : Settings) (key : Key) (attached : Option (List Char)) : Except Stop State :=
  match key.takesValue, attached with
  | true, some value => do return (← s.setValue key (String.ofList value), .anything)
  | true, none => .ok (s, .value key)
  | false, some _ => .error .usage
  | false, none => do return (← s.turnOn key, .anything)

/-- Reads an argument behind its two hyphens. -/
def readLong (level : Level) (s : Settings) (body : List Char) : Except Stop State :=
  let (name, attached) := match Text.splitOnce? '=' body with
    | some (name, value) => (name, some value)
    | none => (body, none)
  match Key.ofLong? level name with
  | some key => readOption s key attached
  | none => .error .usage

/-- What is attached to a short option, without an equals sign. -/
def attachedValue? : List Char → Option (List Char)
  | [] => none
  | '=' :: value => some value
  | value => some value

/-- Reads short options behind their hyphen. -/
def readShort (level : Level) (s : Settings) : List Char → Except Stop State
  | [] => .ok (s, .anything)
  | c :: rest =>
    match Key.ofShort? level c with
    | none => .error .usage
    | some key =>
      if key.takesValue then readOption s key (attachedValue? rest)
      else do readShort level (← s.turnOn key) rest

/-- Whether an argument looks like options. A hyphen alone does not. -/
def isOptionLike (arg : String) : Bool :=
  match arg.toList with
  | '-' :: _ :: _ => true
  | _ => false

/-- Reads arguments. Before the command is known they end at the first one that is no option, and
the rest is returned. -/
def readArguments (level : Level) : List String → State → Except Stop (Settings × List String)
  | [], (_, .value _) => .error .usage
  | [], (s, _) => .ok (s, [])
  | arg :: rest, (s, .value key) =>
    if key = .flags then do readArguments level rest (← s.setValue key arg, .moreFlags)
    else if isOptionLike arg then .error .usage
    else do readArguments level rest (← s.setValue key arg, .anything)
  | arg :: rest, (s, .moreFlags) =>
    readArguments level rest ({ s with flags := s.flags ++ [arg] }, .moreFlags)
  | arg :: rest, (s, .patterns) =>
    if level = .program || level = .tools then .error .usage
    else readArguments level rest ({ s with patterns := s.patterns ++ [arg] }, .patterns)
  | arg :: rest, (s, .anything) =>
    match arg.toList with
    | ['-', '-'] => readArguments level rest (s, .patterns)
    | '-' :: '-' :: body => do readArguments level rest (← readLong level s body)
    | '-' :: c :: body => do readArguments level rest (← readShort level s (c :: body))
    | _ =>
      if level = .program then .ok (s, arg :: rest)
      else if level = .tools then .error .usage
      else readArguments level rest ({ s with patterns := s.patterns ++ [arg] }, .anything)

/-- What to do. -/
inductive Command
  | check (patterns : List String) (shell : Option String) (format : Format)
    (output : Option String) (flags : List String)
  | extract (patterns : List String) (shell : Option String) (output : String)
  | tools
deriving DecidableEq, Repr

/-- What is asked of the program. -/
structure Request where
  verbose : Bool
  config : Option String
  dialect : Option Dialect
  merge : Bool
  strict : Bool
  command : Command
deriving DecidableEq, Repr

/-- The level of a command. -/
def Level.ofName? (name : String) : Option Level :=
  if name = "check" then some .check
  else if name = "extract" then some .extract
  else if name = "check-tools" then some .tools
  else none

/-- Whether there is help about what is named behind `help`: the program itself, or one command. -/
def isHelpTopic : List String → Bool
  | [] => true
  | [name] => name = "help" || (Level.ofName? name).isSome
  | _ => false

/-- Where scripts are written if no directory is named. -/
def defaultDirectory : String := "scripts"

/-- The command with its settings. Patterns are required where they are allowed. -/
def command (level : Level) (s : Settings) : Except Stop Command :=
  match level with
  | .program => .error .usage
  | .tools => .ok .tools
  | .check =>
    if s.patterns.isEmpty then .error .usage
    else .ok (.check s.patterns s.shell (s.format.getD .pretty) s.output s.flags)
  | .extract =>
    if s.patterns.isEmpty then .error .usage
    else .ok (.extract s.patterns s.shell (s.output.getD defaultDirectory))

/-- Reads all arguments. -/
def parse (arguments : List String) : Except Stop Request := do
  let (before, rest) ← readArguments .program arguments ({}, .anything)
  match rest with
  | [] => .error .usage
  | name :: rest =>
    match Level.ofName? name with
    | none => .error (if name = "help" && isHelpTopic rest then .help else .usage)
    | some level =>
      let (behind, _) ← readArguments level rest ({}, .anything)
      return {
        verbose := before.verbose || behind.verbose
        config := behind.config <|> before.config
        dialect := behind.dialect <|> before.dialect
        merge := before.merge || behind.merge
        strict := before.strict || behind.strict
        command := ← command level behind }

end PipelineScripts.CommandLine
