import PipelineScripts.Text.Blank

/-!
# Pipeline inputs in shell source

A token such as `$[[ inputs.name ]]` is filled in before the script runs and is no valid shell.
Inside single quotes it becomes the bare input name, anywhere else a variable, so that missing
quotes around an input are found like those around a variable.
-/
namespace PipelineScripts.Script

open Text

/-- Where a position of a shell script stands. -/
inductive Quoting
  | bare
  | single
  | double
  /-- After a backslash outside quotes. -/
  | escaped
  /-- After a backslash inside double quotes. -/
  | doubleEscaped
  | comment
deriving DecidableEq, Repr

/-- The state of the quote scanner: where it stands, and whether a blank or nothing precedes. -/
structure QuoteState where
  quoting : Quoting := .bare
  afterBlank : Bool := true
deriving DecidableEq, Repr

namespace QuoteState

/-- The effect of one character on where the scanner stands. -/
def nextQuoting (q : QuoteState) (c : Char) : Quoting :=
  match q.quoting with
  | .comment => if c = '\n' then .bare else .comment
  | .escaped => .bare
  | .doubleEscaped => .double
  | .single => if c = '\'' then .bare else .single
  | .double =>
    if c = '\\' then .doubleEscaped else if c = '"' then .bare else .double
  | .bare =>
    if c = '\\' then .escaped
    else if c = '\'' then .single
    else if c = '"' then .double
    else if c = '#' && q.afterBlank then .comment
    else .bare

/-- Reads one character. -/
def step (q : QuoteState) (c : Char) : QuoteState := ⟨q.nextQuoting c, isBlank c⟩

/-- Reads a text. -/
def run (q : QuoteState) (s : List Char) : QuoteState := s.foldl step q

@[simp] theorem run_nil (q : QuoteState) : q.run [] = q := rfl

@[simp] theorem run_cons (q : QuoteState) (c : Char) (s : List Char) :
    q.run (c :: s) = (q.step c).run s := rfl

@[simp] theorem run_append (q : QuoteState) (s t : List Char) :
    q.run (s ++ t) = (q.run s).run t := List.foldl_append

end QuoteState

/-- Whether a shell script ends inside single quotes. -/
def endsInSingleQuotes (s : List Char) : Bool := (QuoteState.run {} s).quoting = .single

/-- Characters of an input name. -/
def isInputNameChar (c : Char) : Bool := c.isAlphanum || c = '_' || c = '-'

/-- An input token at the front of a text: its name and its length. -/
structure InputToken where
  name : List Char
  length : Nat
deriving DecidableEq, Repr

/-- Reads `$[[ inputs.name … ]]` at the front of a text. What stands between the name and the
closing brackets is anything without a `]`. -/
def inputToken? (s : List Char) : Option InputToken := do
  let afterOpen ← ['$', '[', '['].isPrefixOf? s
  let afterWord ← "inputs.".toList.isPrefixOf? (trimStart afterOpen)
  let name := afterWord.takeWhile isInputNameChar
  if name.isEmpty then none
  let tail := (afterWord.dropWhile isInputNameChar).dropWhile (· != ']')
  let rest ← [']', ']'].isPrefixOf? tail
  return ⟨name, s.length - rest.length⟩

/-- The variable an input stands for: its name in capitals, with `_` for a hyphen. -/
def variableName (name : List Char) : List Char :=
  name.map fun c => if c.isAlphanum then c.toUpper else '_'

/-- What replaces a token where the quote scanner is in state `q`. -/
def InputToken.replacement (t : InputToken) (q : QuoteState) : List Char :=
  if q.quoting = .single then t.name
  else ['$', '\x7b'] ++ variableName t.name ++ ['\x7d']

/-- Replaces the tokens from left to right. `skip` characters still belong to the token replaced
last; the quote scanner reads the script as written, tokens included. -/
def replaceFrom (q : QuoteState) : Nat → List Char → List Char
  | _, [] => []
  | skip + 1, c :: r => replaceFrom (q.step c) skip r
  | 0, c :: r =>
    match inputToken? (c :: r) with
    | some t => t.replacement q ++ replaceFrom (q.step c) (t.length - 1) r
    | none => c :: replaceFrom (q.step c) 0 r

/-- Replaces every input token of a script. Replaced text is not read again. -/
def replaceInputs (script : List Char) : List Char := replaceFrom {} 0 script

end PipelineScripts.Script
