import PipelineScripts.Yaml.Cursor

/-!
# Plain scalars

A plain scalar is written without quotes and may run over several lines. One line break inside it
reads as a space, and of several the first is dropped.
-/
namespace PipelineScripts.Yaml

/-- A plain scalar read so far. Its text is kept backwards, as are the blanks after it, which
belong to it only if more text follows on the line. -/
structure PlainRead where
  cursor : Cursor
  text : List Char := []
  blanks : List Char := []
  /-- A line break ended the text read so far. -/
  broken : Bool := false
  /-- Further line breaks after the first. -/
  breaks : Nat := 0
  /-- Where the text ends. -/
  stop : Mark
deriving DecidableEq, Repr

/-- Whether `c`, followed by `next`, may stand in a plain scalar. -/
def isPlainChar (inFlow : Bool) (c next : Char) : Bool :=
  if c = ':' && (isGap next || (inFlow && isFlowChar next)) then false
  else !(inFlow && isFlowChar c)

/-- The longest word of a plain scalar in front. -/
def plainWord (inFlow : Bool) : List Char → List Char
  | [] => []
  | c :: r =>
    if isGap c || !isPlainChar inFlow c (r.headD '\x00') then [] else c :: plainWord inFlow r

namespace PlainRead

/-- What the blanks and line breaks before a further word read as, backwards. -/
def joint (p : PlainRead) : List Char :=
  if p.cursor.leading then
    if p.broken && p.breaks = 0 then [' '] else List.replicate p.breaks '\n'
  else p.blanks

/-- Adds a word. -/
def addWord (p : PlainRead) (word : List Char) : PlainRead :=
  let cursor := p.cursor.pass word.length
  ⟨cursor, word.reverse ++ (p.joint ++ p.text), [], false, 0, cursor.mark⟩

/-- Passes over blanks and line breaks. A tab left of `least` is allowed on a blank line only. -/
def skipBlanks? (least : Int) : Nat → PlainRead → Option PlainRead
  | 0, p => some p
  | fuel + 1, p =>
    let c := p.cursor.peek
    if isSpaceOrTab c then
      if !p.cursor.leading then
        skipBlanks? least fuel { p with cursor := p.cursor.skip 1, blanks := c :: p.blanks }
      else if p.cursor.mark.column < least && c = '\t' then
        match p.cursor.skipBlanks? with
        | some b =>
          if isLineEnd b.cursor.peek then skipBlanks? least fuel { p with cursor := b.cursor }
          else none
        | none => none
      else skipBlanks? least fuel { p with cursor := p.cursor.skip 1 }
    else if isBreak c then
      if p.cursor.leading then
        skipBlanks? least fuel { p with cursor := p.cursor.skipBreak, breaks := p.breaks + 1 }
      else
        skipBlanks? least fuel
          { p with cursor := p.cursor.skipBreak, blanks := [], broken := true }
    else some p

/-- Reads words and what is between them, until something ends the scalar. -/
def run (inFlow : Bool) (least : Int) : Nat → PlainRead → Option PlainRead
  | 0, p => some p
  | fuel + 1, p =>
    let c := p.cursor.peek
    if (p.cursor.leading && p.cursor.atDocumentIndicator) || c = '#' then some p
    else if inFlow && c = '-' && isFlowChar (p.cursor.peekAt 1) then none
    else
      let word := plainWord inFlow p.cursor.rest
      let p := if word.isEmpty then p else p.addWord word
      let c := p.cursor.peek
      if !(isSpaceOrTab c || isBreak c) then some p
      else
        match skipBlanks? least (p.cursor.rest.length + 1) p with
        | none => none
        | some p =>
          if !inFlow && p.cursor.mark.column < least then some p else run inFlow least fuel p

end PlainRead

/-- Reads a plain scalar whose further lines are at column `least` or right of it. -/
def readPlain? (inFlow : Bool) (least : Int) (c : Cursor) : Option PlainRead :=
  if inFlow && c.mark.column < least then none
  else
    match PlainRead.run inFlow least (c.rest.length + 1) { cursor := c, stop := c.mark } with
    | some p => if p.text.isEmpty then none else some p
    | none => none

end PipelineScripts.Yaml
