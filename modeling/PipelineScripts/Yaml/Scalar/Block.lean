import PipelineScripts.Yaml.Cursor

/-!
# Block scalars

A block scalar is a header, `|` or `>` with its indicators, and an indented body. Without an
indentation indicator the body's indentation is that of its first line, or of a deeper blank line
before it.
-/
namespace PipelineScripts.Yaml

/-- What becomes of the line breaks at the end of the body. -/
inductive Chomping
  | strip
  | clip
  | keep
deriving DecidableEq, Repr

/-- The indicators of a header: `indent` is the indentation indicator, zero if there is none. -/
structure BlockHeader where
  chomping : Chomping := .clip
  indent : Nat := 0
deriving DecidableEq, Repr

/-- A block scalar that was read. -/
structure BlockRead where
  cursor : Cursor
  text : List Char
  start : Mark
deriving DecidableEq, Repr

namespace BlockHeader

def chomping? (c : Char) : Option Chomping :=
  if c = '+' then some .keep else if c = '-' then some .strip else none

/-- The indicators, in either order. An indentation of zero is an error. -/
def read? (c : Cursor) : Option (BlockHeader × Cursor) :=
  let digit := fun (c : Cursor) => c.peek.toNat - '0'.toNat
  match chomping? c.peek with
  | some chomping =>
    let c := c.pass 1
    if c.peek.isDigit then
      if c.peek = '0' then none else some (⟨chomping, digit c⟩, c.pass 1)
    else some (⟨chomping, 0⟩, c)
  | none =>
    if c.peek.isDigit then
      if c.peek = '0' then none
      else
        let n := digit c
        let c := c.pass 1
        match chomping? c.peek with
        | some chomping => some (⟨chomping, n⟩, c.pass 1)
        | none => some (⟨.clip, n⟩, c)
    else some ({}, c)

end BlockHeader

/-- Passes over spaces left of `indent` and over lines without more; counts the lines. -/
def skipBlockIndent (indent : Nat) : Nat → Cursor → Nat → Cursor × Nat
  | 0, c, breaks => (c, breaks)
  | fuel + 1, c, breaks =>
    let spaces := ((c.rest.takeWhile (· == ' ')).take (indent - c.mark.column)).length
    let c := c.skip spaces
    if isBreak c.peek then skipBlockIndent indent fuel c.skipBreak (breaks + 1) else (c, breaks)

/-- Passes over blank lines and the spaces of the first line with more. Counts the lines and finds
the largest number of spaces. -/
def skipFirstIndent : Nat → Cursor → Nat → Nat → Cursor × Nat × Nat
  | 0, c, deepest, breaks => (c, deepest, breaks)
  | fuel + 1, c, deepest, breaks =>
    let c := c.skipWhile (· == ' ')
    let deepest := max deepest c.mark.column
    if isBreak c.peek then skipFirstIndent fuel c.skipBreak deepest (breaks + 1)
    else (c, deepest, breaks)

/-- The body read so far, backwards. -/
structure BlockBody where
  cursor : Cursor
  text : List Char := []
  /-- A line break ended the last line. -/
  broken : Bool := false
  /-- Blank lines after it. -/
  breaks : Nat := 0
  /-- The last line starts with a blank. -/
  blankLine : Bool := false
deriving DecidableEq, Repr

namespace BlockBody

/-- What the line breaks before a further line read as. In a folded body a single break between
two lines that start with no blank is a space. -/
def joint (folded : Bool) (b : BlockBody) (startsBlank : Bool) : List Char :=
  if folded && b.broken && !b.blankLine && !startsBlank then
    if b.breaks = 0 then [' '] else List.replicate b.breaks '\n'
  else List.replicate (b.breaks + if b.broken then 1 else 0) '\n'

/-- Reads the lines of the body. -/
def run (folded : Bool) (indent : Nat) : Nat → BlockBody → BlockBody
  | 0, b => b
  | fuel + 1, b =>
    let c := b.cursor
    if c.mark.column ≠ indent || isEnd c.peek || (indent = 0 && c.atDocumentEnd) then b
    else
      let startsBlank := isSpaceOrTab c.peek
      let line := c.rest.takeWhile (!isLineEnd ·)
      let text := line.reverse ++ (b.joint folded startsBlank ++ b.text)
      let c := c.skip line.length
      if isEnd c.peek then ⟨c, text, false, 0, startsBlank⟩
      else
        let (c, breaks) := skipBlockIndent indent (c.rest.length + 1) c.skipBreak 0
        run folded indent fuel ⟨c, text, true, breaks, startsBlank⟩

/-- The text with the line breaks at its end, as the chomping says. -/
def finish (chomping : Chomping) (indent : Nat) (b : BlockBody) : List Char :=
  let lastBreak := if b.broken then ['\n'] else []
  let supplied :=
    if isEnd b.cursor.peek && max indent 1 ≤ b.cursor.mark.column then ['\n'] else []
  match chomping with
  | .strip => b.text.reverse
  | .clip => b.text.reverse ++ lastBreak ++ supplied
  | .keep => b.text.reverse ++ lastBreak ++ supplied ++ List.replicate b.breaks '\n'

end BlockBody

/-- The text of a body that the end of the input cuts off before its first line. -/
def emptyBlock (chomping : Chomping) (sameLine : Bool) (breaks : Nat) : List Char :=
  if sameLine then []
  else
    match chomping with
    | .strip => []
    | .clip => ['\n']
    | .keep => List.replicate (max breaks 1) '\n'

/-- Reads a block scalar inside a block collection at column `parent`, which is -1 outside any. -/
def readBlock? (folded : Bool) (parent : Int) (c : Cursor) : Option BlockRead := do
  let start := c.mark
  let (header, c) ← BlockHeader.read? (c.pass 1)
  let after ← c.skipBlanks?
  let c := after.cursor
  if !isLineEnd c.peek then none
  let c := if isBreak c.peek then c.skipBreak else c
  if c.peek = '\t' then none
  let fuel := c.rest.length + 1
  let (c, indent, breaks) :=
    if header.indent = 0 then
      let (c, deepest, breaks) := skipFirstIndent fuel c 0 0
      (c, max deepest (parent + 1).toNat, breaks)
    else
      let indent := parent.toNat + header.indent
      let (c, breaks) := skipBlockIndent indent fuel c 0
      (c, indent, breaks)
  if isEnd c.peek then
    return ⟨c, emptyBlock header.chomping (c.mark.line = start.line) breaks, start⟩
  if c.mark.column < indent && parent < c.mark.column then none
  let body := BlockBody.run folded indent (c.rest.length + 1) { cursor := c, breaks }
  return ⟨body.cursor, body.finish header.chomping indent, c.mark⟩

end PipelineScripts.Yaml
