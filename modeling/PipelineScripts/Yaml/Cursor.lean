import PipelineScripts.Yaml.Mark

/-!
# Reading a YAML text

A cursor is the text still to be read with its position. The end of the text reads as a NUL
character, and a NUL ends the text. Line breaks are CR, LF and CRLF.
-/
namespace PipelineScripts.Yaml

/-! ### Character classes -/

/-- The end of the text. -/
def isEnd (c : Char) : Bool := c = '\x00'

/-- A carriage return or a line feed. -/
def isBreak (c : Char) : Bool := c = '\n' || c = '\r'

/-- A space or a tab. -/
def isSpaceOrTab (c : Char) : Bool := c = ' ' || c = '\t'

/-- The end of a line or of the text. -/
def isLineEnd (c : Char) : Bool := isBreak c || isEnd c

/-- Anything that ends a word. -/
def isGap (c : Char) : Bool := isSpaceOrTab c || isLineEnd c

/-- The characters that structure a flow collection. -/
def isFlowChar (c : Char) : Bool :=
  c = ',' || c = '[' || c = ']' || c = '\x7b' || c = '\x7d'

/-- Letters, digits, `_` and `-`. -/
def isWordChar (c : Char) : Bool := c.isAlphanum || c = '_' || c = '-'

/-- The characters of a tag URI. -/
def isUriChar (c : Char) : Bool := isWordChar c || "#;/?:@&=+$,.!~*'()[]%".toList.contains c

/-- The characters of a short tag. -/
def isTagChar (c : Char) : Bool := isUriChar c && !isFlowChar c && c != '!'

/-- The characters of an anchor name. -/
def isAnchorNameChar (c : Char) : Bool := !isGap c && !isFlowChar c && c != '\ufeff'

/-! ### Cursors -/

/-- The text still to be read. `leading` tells whether only blanks were read on this line. -/
structure Cursor where
  rest : List Char
  mark : Mark := {}
  leading : Bool := true
deriving DecidableEq, Repr

namespace Cursor

/-- The next character. -/
def peek (c : Cursor) : Char := c.rest.headD '\x00'

/-- The `n`-th character from here. -/
def peekAt (c : Cursor) (n : Nat) : Char := (c.rest.drop n).headD '\x00'

/-- Passes over `n` characters of this line. -/
def skip (c : Cursor) (n : Nat) : Cursor :=
  { c with
    rest := c.rest.drop n
    mark := { c.mark with index := c.mark.index + n, column := c.mark.column + n } }

/-- Passes over `n` characters of this line that are not blanks. -/
def pass (c : Cursor) (n : Nat) : Cursor := { c.skip n with leading := false }

/-- Passes over the characters in front that satisfy `p`, none of them a line break. -/
def skipWhile (c : Cursor) (p : Char → Bool) : Cursor := c.skip (c.rest.takeWhile p).length

/-- Passes over one line break. -/
def skipBreak (c : Cursor) : Cursor :=
  match c.rest with
  | '\r' :: '\n' :: r => ⟨r, ⟨c.mark.index + 2, c.mark.line + 1, 0⟩, true⟩
  | d :: r => if isBreak d then ⟨r, ⟨c.mark.index + 1, c.mark.line + 1, 0⟩, true⟩ else c
  | [] => c

/-- Passes over the rest of the line. -/
def skipLine (c : Cursor) : Cursor := c.skipWhile (!isLineEnd ·)

/-- Whether three times `d` stands here, followed by a gap. -/
def atTriple (c : Cursor) (d : Char) : Bool :=
  c.peek = d && c.peekAt 1 = d && c.peekAt 2 = d && isGap (c.peekAt 3)

def atDocumentStart (c : Cursor) : Bool := c.atTriple '-'

def atDocumentEnd (c : Cursor) : Bool := c.atTriple '.'

def atDocumentIndicator (c : Cursor) : Bool := c.atDocumentStart || c.atDocumentEnd

/-- The blanks after a token: whether a tab and whether a space was among them, and where they
end. -/
structure Blanks where
  cursor : Cursor
  tabs : Bool
  spaces : Bool

/-- Passes over blanks and a comment. A comment with no blank before it is an error. -/
def skipBlanks? (c : Cursor) : Option Blanks :=
  let blanks := c.rest.takeWhile isSpaceOrTab
  let after := c.skip blanks.length
  if after.peek = '#' then
    if blanks.isEmpty then none
    else some ⟨after.skipLine, blanks.contains '\t', blanks.contains ' '⟩
  else some ⟨after, blanks.contains '\t', blanks.contains ' '⟩

end Cursor

end PipelineScripts.Yaml
