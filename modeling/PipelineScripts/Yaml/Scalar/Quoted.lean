import PipelineScripts.Yaml.Cursor

/-!
# Quoted scalars

Single quotes know one escape, the doubled quote. Double quotes know the escapes of `escape?` and
an escaped line break. Line breaks are folded as in plain scalars.
-/
namespace PipelineScripts.Yaml

/-- A quoted scalar read so far, its text backwards. -/
structure QuotedRead where
  cursor : Cursor
  text : List Char := []
deriving DecidableEq, Repr

/-- The value of a hexadecimal digit. -/
def hexValue? (c : Char) : Option Nat :=
  if '0' ≤ c && c ≤ '9' then some (c.toNat - '0'.toNat)
  else if 'a' ≤ c && c ≤ 'f' then some (c.toNat - 'a'.toNat + 10)
  else if 'A' ≤ c && c ≤ 'F' then some (c.toNat - 'A'.toNat + 10)
  else none

/-- The value of hexadecimal digits. -/
def hexNumber? (digits : List Char) : Option Nat :=
  digits.foldlM (fun n d => (hexValue? d).map (16 * n + ·)) 0

/-- The character with a code, unless the code is a surrogate or too large. -/
def charOfCode? (n : Nat) : Option Char :=
  if n < 0xD800 || (0xDFFF < n && n < 0x110000) then some (Char.ofNat n) else none

/-- The character written by `width` hexadecimal digits. -/
def hexEscape? (width : Nat) (s : List Char) : Option (Char × Nat) := do
  let digits := s.take width
  if digits.length < width then none
  let n ← hexNumber? digits
  let c ← charOfCode? n
  return (c, width + 1)

/-- What the characters after a backslash stand for, and how many of them belong to it. -/
def escape? : List Char → Option (Char × Nat)
  | [] => none
  | c :: r =>
    match c with
    | '0' => some ('\x00', 1)
    | 'a' => some ('\x07', 1)
    | 'b' => some ('\x08', 1)
    | 't' | '\t' => some ('\t', 1)
    | 'n' => some ('\n', 1)
    | 'v' => some ('\x0b', 1)
    | 'f' => some ('\x0c', 1)
    | 'r' => some ('\r', 1)
    | 'e' => some ('\x1b', 1)
    | ' ' => some (' ', 1)
    | '"' => some ('"', 1)
    | '/' => some ('/', 1)
    | '\\' => some ('\\', 1)
    | 'N' => some ('\u0085', 1)
    | '_' => some ('\u00a0', 1)
    | 'L' => some ('\u2028', 1)
    | 'P' => some ('\u2029', 1)
    | 'x' => hexEscape? 2 r
    | 'u' => hexEscape? 4 r
    | 'U' => hexEscape? 8 r
    | _ => none

namespace QuotedRead

/-- Reads up to a blank, a line break or the closing quote. The flag tells whether an escaped
line break was read last. -/
def readWord? (single : Bool) : Nat → QuotedRead → Option (QuotedRead × Bool)
  | 0, q => some (q, false)
  | fuel + 1, q =>
    let c := q.cursor.peek
    if isGap c then some (q, false)
    else if single && c = '\'' then
      if q.cursor.peekAt 1 = '\'' then
        readWord? single fuel ⟨q.cursor.pass 2, '\'' :: q.text⟩
      else some (q, false)
    else if !single && c = '"' then some (q, false)
    else if !single && c = '\\' then
      if isBreak (q.cursor.peekAt 1) then some (⟨(q.cursor.pass 1).skipBreak, q.text⟩, true)
      else
        match escape? (q.cursor.rest.drop 1) with
        | some (d, n) => readWord? single fuel ⟨q.cursor.pass (n + 1), d :: q.text⟩
        | none => none
    else readWord? single fuel ⟨q.cursor.pass 1, c :: q.text⟩

/-- Passes over blanks and line breaks, and adds what they read as. `blanks` are those of this
line, `broken` tells that a line break was read, `breaks` counts the further ones and `leading`
that the line holds nothing else so far. -/
def readGap? (indent : Int) (blanks : List Char) (broken : Bool) (breaks : Nat) (leading : Bool) :
    Nat → QuotedRead → Option QuotedRead
  | 0, q => some q
  | fuel + 1, q =>
    let c := q.cursor.peek
    if isSpaceOrTab c then
      if leading then
        if c = '\t' && q.cursor.mark.column < indent then none
        else readGap? indent blanks broken breaks leading fuel { q with cursor := q.cursor.skip 1 }
      else
        readGap? indent (c :: blanks) broken breaks leading fuel
          { q with cursor := q.cursor.skip 1 }
    else if isBreak c then
      let q := { q with cursor := q.cursor.skipBreak }
      if leading then readGap? indent blanks broken (breaks + 1) leading fuel q
      else readGap? indent [] true breaks true fuel q
    else
      let joint :=
        if !leading then blanks
        else if broken && breaks = 0 then [' ']
        else List.replicate breaks '\n'
      some { q with text := joint ++ q.text }

/-- Reads words and gaps up to the closing quote. -/
def run (single : Bool) (indent : Int) : Nat → QuotedRead → Option QuotedRead
  | 0, _ => none
  | fuel + 1, q =>
    if q.cursor.mark.column = 0 && q.cursor.atDocumentIndicator then none
    else if isEnd q.cursor.peek then none
    else if q.cursor.mark.column < indent then none
    else
      match readWord? single (q.cursor.rest.length + 1) q with
      | none => none
      | some (q, escapedBreak) =>
        if q.cursor.peek = (if single then '\'' else '"') then some q
        else
          match readGap? indent [] false 0 escapedBreak (q.cursor.rest.length + 1) q with
          | none => none
          | some q => run single indent fuel q

end QuotedRead

/-- Whether the text after a quoted scalar may follow it. -/
def mayFollowQuoted (inFlow sameLine : Bool) (c : Char) : Bool :=
  isLineEnd c || (inFlow && (c = ',' || c = '\x7d' || c = ']')) ||
    (c = ':' && (inFlow || sameLine))

/-- Reads a quoted scalar with the blanks and the comment after it. -/
def readQuoted? (single inFlow : Bool) (indent : Int) (c : Cursor) : Option QuotedRead := do
  let q ← QuotedRead.run single indent (c.rest.length + 1) ⟨c.pass 1, []⟩
  let after ← (q.cursor.pass 1).skipBlanks?
  if mayFollowQuoted inFlow (c.mark.line = after.cursor.mark.line) after.cursor.peek then
    return ⟨after.cursor, q.text⟩
  else none

end PipelineScripts.Yaml
