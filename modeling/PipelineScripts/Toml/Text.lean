import PipelineScripts.Toml.Value

/-!
# TOML strings

Basic strings in double quotes with escapes, literal strings in single quotes without, and both
over several lines in triple quotes.
-/
namespace PipelineScripts.Toml

/-- A space or a tab. -/
def isBlank (c : Char) : Bool := c = ' ' || c = '\t'

/-- Control characters, which may stand nowhere but in line breaks; tabs are none. -/
def isControl (c : Char) : Bool := (c.toNat < 0x20 && c != '\t') || c = '\x7f'

/-- Drops blanks in front. -/
def skipBlanks (s : List Char) : List Char := s.dropWhile isBlank

/-- Reads a line break, LF or CRLF. -/
def newline? : List Char → Option (List Char)
  | '\n' :: r => some r
  | '\r' :: '\n' :: r => some r
  | _ => none

/-- The value of a hexadecimal digit. -/
def hexDigit? (c : Char) : Option Nat :=
  if c.isDigit then some (c.toNat - 48)
  else if 'a' ≤ c && c ≤ 'f' then some (c.toNat - 87)
  else if 'A' ≤ c && c ≤ 'F' then some (c.toNat - 55)
  else none

/-- The character with a hexadecimal code of a width, and what follows it. -/
def hexChar? (width : Nat) (s : List Char) : Option (Char × List Char) := do
  let digits := s.take width
  if digits.length < width then none
  let n ← digits.foldlM (fun n d => (hexDigit? d).map (16 * n + ·)) 0
  if n < 0xD800 || (0xDFFF < n && n < 0x110000) then return (Char.ofNat n, s.drop width)
  else none

/-- The character an escape stands for, and what follows it. -/
def escape? : List Char → Option (Char × List Char)
  | 'b' :: r => some ('\x08', r)
  | 't' :: r => some ('\t', r)
  | 'n' :: r => some ('\n', r)
  | 'f' :: r => some ('\x0c', r)
  | 'r' :: r => some ('\r', r)
  | 'e' :: r => some ('\x1b', r)
  | '"' :: r => some ('"', r)
  | '\\' :: r => some ('\\', r)
  | 'x' :: r => hexChar? 2 r
  | 'u' :: r => hexChar? 4 r
  | 'U' :: r => hexChar? 8 r
  | _ => none

/-- Reads a basic string after its opening quote. -/
def readBasic? : Nat → List Char → Option (List Char × List Char)
  | 0, _ => none
  | fuel + 1, s =>
    match s with
    | [] => none
    | '"' :: r => some ([], r)
    | '\\' :: r =>
      match escape? r with
      | some (c, r) => (readBasic? fuel r).map fun (text, r) => (c :: text, r)
      | none => none
    | c :: r =>
      if isControl c then none else (readBasic? fuel r).map fun (text, r) => (c :: text, r)

/-- Reads a literal string after its opening quote. -/
def readLiteral? : List Char → Option (List Char × List Char)
  | [] => none
  | '\'' :: r => some ([], r)
  | c :: r => if isControl c then none else (readLiteral? r).map fun (text, r) => (c :: text, r)

/-- The closing quotes of a string over several lines: up to two more quotes than three belong to
the text. -/
def closingQuotes? (quote : Char) (s : List Char) : Option (List Char × List Char) :=
  let quotes := (s.takeWhile (· == quote)).length
  if quotes < 3 then none
  else
    let extra := min (quotes - 3) 2
    some (List.replicate extra quote, s.drop (extra + 3))

/-- Passes over the blanks and line breaks after a backslash at the end of a line. -/
def skipContinued : Nat → List Char → List Char
  | 0, s => s
  | fuel + 1, s =>
    match newline? (skipBlanks s) with
    | some r => skipContinued fuel r
    | none => skipBlanks s

/-- Reads a string over several lines after its opening quotes. Line breaks are kept as they are
written. -/
def readMultiline? (quote : Char) : Nat → List Char → Option (List Char × List Char)
  | 0, _ => none
  | fuel + 1, s =>
    match closingQuotes? quote s with
    | some result => some result
    | none =>
      match newline? s with
      | some r =>
        let written := s.take (s.length - r.length)
        (readMultiline? quote fuel r).map fun (text, r) => (written ++ text, r)
      | none =>
        match s with
        | [] => none
        | c :: r =>
          if c = '\\' && quote = '"' then
            if (newline? (skipBlanks r)).isSome then
              readMultiline? quote fuel (skipContinued r.length r)
            else
              match escape? r with
              | some (c, r) => (readMultiline? quote fuel r).map fun (text, r) => (c :: text, r)
              | none => none
          else if isControl c then none
          else (readMultiline? quote fuel r).map fun (text, r) => (c :: text, r)

/-- Reads a string of one line. -/
def readLineString? (s : List Char) : Option (List Char × List Char) :=
  match s with
  | '"' :: r => readBasic? (r.length + 1) r
  | '\'' :: r => readLiteral? r
  | _ => none

/-- Reads any string. A line break right after triple quotes does not count. -/
def readString? (s : List Char) : Option (List Char × List Char) :=
  let multiline := fun (quote : Char) (r : List Char) =>
    readMultiline? quote (r.length + 1) ((newline? r).getD r)
  match s with
  | '"' :: '"' :: '"' :: r => multiline '"' r
  | '\'' :: '\'' :: '\'' :: r => multiline '\'' r
  | _ => readLineString? s

end PipelineScripts.Toml
