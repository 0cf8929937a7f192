import PipelineScripts.Yaml.Scalar.Quoted

/-!
# Tags and directives

A tag is `!<uri>`, `!suffix` or `!handle!suffix`. Of a tag only the handle is kept, since a handle
other than `!` and `!!` must have been declared.
-/
namespace PipelineScripts.Yaml

/-- Reads the `%xx` escapes of one character in a URI. -/
def skipUriEscape? (c : Cursor) : Option Cursor := do
  let byte := fun (c : Cursor) => do
    if c.peek ≠ '%' then none
    hexNumber? [c.peekAt 1, c.peekAt 2]
  let first ← byte c
  let width ←
    if first < 0x80 then some 1
    else if 0xC0 ≤ first && first < 0xE0 then some 2
    else if 0xE0 ≤ first && first < 0xF0 then some 3
    else if 0xF0 ≤ first && first < 0xF8 then some 4
    else none
  let (c, code) ← (List.range (width - 1)).foldlM
    (fun (c, code) _ => do
      let b ← byte c
      if 0x80 ≤ b && b < 0xC0 then some (c.pass 3, code * 256 + b) else none)
    (c.pass 3, first)
  let _ ← charOfCode? code
  return c

/-- Passes over URI characters that satisfy `p`. -/
def skipUri? (p : Char → Bool) : Nat → Cursor → Option Cursor
  | 0, c => some c
  | fuel + 1, c =>
    if !p c.peek then some c
    else if c.peek = '%' then
      match skipUriEscape? c with
      | some c => skipUri? p fuel c
      | none => none
    else skipUri? p fuel (c.pass 1)

/-- Reads `!`, `!word` or `!word!`. -/
def readHandle? (c : Cursor) : Option (List Char × Cursor) :=
  if c.peek ≠ '!' then none
  else
    let c := c.pass 1
    let word := c.rest.takeWhile isWordChar
    let c := c.skip word.length
    if c.peek = '!' then some ('!' :: word ++ ['!'], c.pass 1) else some ('!' :: word, c)

/-- Whether a handle ends in an exclamation mark of its own. -/
def isClosedHandle (handle : List Char) : Bool :=
  2 ≤ handle.length && handle.getLast? = some '!'

/-- Reads a tag; the result is its handle, empty for a full URI and for `!` alone. -/
def readTag? (inFlow : Bool) (c : Cursor) : Option (List Char × Cursor) := do
  let (handle, c) ←
    if c.peekAt 1 = '<' then do
      let c ← skipUri? isUriChar (c.rest.length + 1) (c.pass 2)
      if c.peek = '>' then some ([], c.pass 1) else none
    else do
      let (handle, c) ← readHandle? c
      let after ← skipUri? isTagChar (c.rest.length + 1) c
      if isClosedHandle handle then
        if after.mark.index = c.mark.index then none else some (handle, after)
      else if handle.length = 1 && after.mark.index = c.mark.index then some ([], after)
      else some (['!'], after)
  if isGap c.peek || (inFlow && isFlowChar c.peek) then some (handle, c) else none

/-- Reads the digits of a version number. -/
def skipVersionNumber? (c : Cursor) : Option Cursor :=
  let digits := (c.rest.takeWhile Char.isDigit).length
  if digits = 0 || 9 < digits then none else some (c.pass digits)

/-- Reads the rest of a version directive. -/
def skipVersion? (c : Cursor) : Option Cursor := do
  let c ← skipVersionNumber? (c.skipWhile isSpaceOrTab)
  if c.peek = '.' then skipVersionNumber? (c.pass 1) else none

/-- Reads the rest of a tag directive; the result is its handle. -/
def readTagDirective? (c : Cursor) : Option (List Char × Cursor) := do
  let (handle, c) ← readHandle? (c.skipWhile isSpaceOrTab)
  if handle ≠ ['!'] && !isClosedHandle handle then none
  let c := c.skipWhile isSpaceOrTab
  let c ←
    if c.peek = '!' then some (c.pass 1)
    else if !isTagChar c.peek then none
    else if c.peek = '%' then skipUriEscape? c
    else some (c.pass 1)
  let c ← skipUri? isUriChar (c.rest.length + 1) c
  if isGap c.peek then some (handle, c) else none

end PipelineScripts.Yaml
