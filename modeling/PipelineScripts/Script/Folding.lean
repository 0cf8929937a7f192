import PipelineScripts.Text.Blank
import PipelineScripts.Text.Lines

/-!
# Shell source of a folded scalar

YAML turns the single line breaks of a `>` scalar into spaces, which glues separate shell lines
into one. `foldLiteral` works on the body as written and keeps its lines: every line but the last
is continued with a backslash, so the shell reads what YAML folds, and a finding on a line still
points at the line of the file.
-/
namespace PipelineScripts.Script

open Text

/-- The line break a text uses. -/
inductive LineBreak
  | lf
  | crlf
deriving DecidableEq, Repr

namespace LineBreak

def chars : LineBreak → List Char
  | lf => ['\n']
  | crlf => ['\r', '\n']

/-- The pieces between two CRLF breaks. -/
def splitCrlf : List Char → List (List Char)
  | [] => [[]]
  | '\r' :: '\n' :: r => [] :: splitCrlf r
  | c :: r => consFirst c (splitCrlf r)

/-- The pieces between the breaks. -/
def split : LineBreak → List Char → List (List Char)
  | lf, s => Text.split (· == '\n') s
  | crlf, s => splitCrlf s

/-- CRLF if it occurs at all, LF otherwise. -/
def ofText (s : List Char) : LineBreak :=
  if (splitCrlf s).length = 1 then lf else crlf

end LineBreak

/-- A line without its leading blanks and, unless it is blank, a comment or the last one, with a
line continuation. -/
def continueLine (isLast : Bool) (line : List Char) : List Char :=
  match trimStart line with
  | [] => []
  | c :: r => if isLast || c = '#' then c :: r else c :: r ++ [' ', '\\']

/-- Continues every line but the last. -/
def continueLines : List (List Char) → List (List Char)
  | [] => []
  | [line] => [continueLine true line]
  | line :: rest => continueLine false line :: continueLines rest

/-- Rebuilds shell source from the body of a folded scalar. A final line break is kept. -/
def foldLiteral (raw : List Char) : List Char :=
  let br := LineBreak.ofText raw
  match br.chars.isSuffixOf? raw with
  | some [] => raw
  | some body => join br.chars (continueLines (br.split body)) ++ br.chars
  | none => if raw = [] then raw else join br.chars (continueLines (br.split raw))

end PipelineScripts.Script
