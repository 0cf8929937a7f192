import PipelineScripts.Json.Value

/-!
# Reading JSON

A strict reader: no leading zeros, comments, trailing commas or raw control characters. Blanks are
space, tab, line feed and carriage return.
-/
namespace PipelineScripts.Json

/-- White space between the parts of a text. -/
def isGap (c : Char) : Bool := c = ' ' || c = '\t' || c = '\n' || c = '\r'

def skipGaps (s : List Char) : List Char := s.dropWhile isGap

/-- The value of a hexadecimal digit. -/
def hexDigit? (c : Char) : Option Nat :=
  if '0' ≤ c && c ≤ '9' then some (c.toNat - 48)
  else if 'a' ≤ c && c ≤ 'f' then some (c.toNat - 87)
  else if 'A' ≤ c && c ≤ 'F' then some (c.toNat - 55)
  else none

/-- The character after a backslash, apart from `u`. -/
def escaped? : Char → Option Char
  | '"' => some '"'
  | '\\' => some '\\'
  | '/' => some '/'
  | 'b' => some '\x08'
  | 'f' => some '\x0c'
  | 'n' => some '\n'
  | 'r' => some '\r'
  | 't' => some '\t'
  | _ => none

/-- The code points of a string up to its closing quote, halves of surrogate pairs among them. -/
def readCodes? : List Char → Option (List Nat × List Char)
  | [] => none
  | '"' :: r => some ([], r)
  | '\\' :: 'u' :: a :: b :: c :: d :: r => do
    let code := 4096 * (← hexDigit? a) + 256 * (← hexDigit? b) + 16 * (← hexDigit? c)
      + (← hexDigit? d)
    let (codes, rest) ← readCodes? r
    return (code :: codes, rest)
  | '\\' :: c :: r => do
    let c ← escaped? c
    let (codes, rest) ← readCodes? r
    return (c.toNat :: codes, rest)
  | c :: r =>
    if c = '\\' || c.toNat < 0x20 then none
    else do
      let (codes, rest) ← readCodes? r
      return (c.toNat :: codes, rest)

/-- Joins surrogate pairs; `none` if half a pair stands alone. -/
def joinSurrogates? : List Nat → Option (List Char)
  | [] => some []
  | [code] => if 0xD800 ≤ code && code < 0xE000 then none else some [Char.ofNat code]
  | code :: next :: rest =>
    if 0xD800 ≤ code && code < 0xDC00 then
      if 0xDC00 ≤ next && next < 0xE000 then
        (joinSurrogates? rest).map
          (Char.ofNat (0x10000 + 1024 * (code - 0xD800) + (next - 0xDC00)) :: ·)
      else none
    else if 0xDC00 ≤ code && code < 0xE000 then none
    else (joinSurrogates? (next :: rest)).map (Char.ofNat code :: ·)

/-- Reads a string after its opening quote. The text is `none` if it is ill-formed. -/
def readString? (s : List Char) : Option (Option String × List Char) := do
  let (codes, rest) ← readCodes? s
  return ((joinSurrogates? codes).map String.ofList, rest)

def digitsValue (digits : List Char) : Nat :=
  digits.foldl (fun n d => 10 * n + (d.toNat - 48)) 0

/-- Reads the digits after a point, if there is one. -/
def readFraction? (s : List Char) : Option (List Char × List Char) :=
  match s with
  | '.' :: r =>
    let digits := r.takeWhile Char.isDigit
    if digits.isEmpty then none else some ('.' :: digits, r.dropWhile Char.isDigit)
  | _ => some ([], s)

/-- Reads an exponent, if there is one. -/
def readExponent? (s : List Char) : Option (List Char × List Char) :=
  match s with
  | e :: r =>
    if e = 'e' || e = 'E' then
      let (sign, r) := match r with
        | '+' :: r => (['+'], r)
        | '-' :: r => (['-'], r)
        | _ => ([], r)
      let digits := r.takeWhile Char.isDigit
      if digits.isEmpty then none
      else some (e :: sign ++ digits, r.dropWhile Char.isDigit)
    else some ([], s)
  | [] => some ([], [])

/-- Reads a number. -/
def readNumber? (s : List Char) : Option (Json × List Char) := do
  let (negative, s) := match s with
    | '-' :: r => (true, r)
    | _ => (false, s)
  let digits := s.takeWhile Char.isDigit
  if digits.isEmpty || (1 < digits.length && digits.head? = some '0') then none
  let (fraction, s) ← readFraction? (s.dropWhile Char.isDigit)
  let (exponent, s) ← readExponent? s
  let n := digitsValue digits
  let sign := if negative then ['-'] else []
  if fraction.isEmpty && exponent.isEmpty && !(negative && n = 0) then
    return (.integer (if negative then -n else n), s)
  else return (.decimal (String.ofList (sign ++ digits ++ fraction ++ exponent)), s)

/-- An object with members whose keys may be ill-formed. -/
def objectOf (members : List (Option String × Json)) : Json :=
  match members.mapM fun (key, value) => key.map fun key => (key, value) with
  | some members => .object members
  | none => .illFormed

mutual

/-- Reads a value at the front of a text. -/
def readValue? : Nat → List Char → Option (Json × List Char)
  | 0, _ => none
  | fuel + 1, s =>
    match skipGaps s with
    | 'n' :: 'u' :: 'l' :: 'l' :: r => some (.null, r)
    | 't' :: 'r' :: 'u' :: 'e' :: r => some (.bool true, r)
    | 'f' :: 'a' :: 'l' :: 's' :: 'e' :: r => some (.bool false, r)
    | '"' :: r =>
      match readString? r with
      | some (some text, r) => some (.string text, r)
      | some (none, r) => some (.illFormed, r)
      | none => none
    | '[' :: r =>
      match skipGaps r with
      | ']' :: r => some (.array [], r)
      | _ => (readItems? fuel r).map fun (items, r) => (.array items, r)
    | '\x7b' :: r =>
      match skipGaps r with
      | '\x7d' :: r => some (.object [], r)
      | _ => (readMembers? fuel r).map fun (members, r) => (objectOf members, r)
    | s => readNumber? s

/-- Reads the items of an array up to its end. -/
def readItems? : Nat → List Char → Option (List Json × List Char)
  | 0, _ => none
  | fuel + 1, s =>
    match readValue? fuel s with
    | none => none
    | some (item, r) =>
      match skipGaps r with
      | ',' :: r => (readItems? fuel r).map fun (items, r) => (item :: items, r)
      | ']' :: r => some ([item], r)
      | _ => none

/-- Reads the members of an object up to its end. -/
def readMembers? : Nat → List Char → Option (List (Option String × Json) × List Char)
  | 0, _ => none
  | fuel + 1, s =>
    match skipGaps s with
    | '"' :: r =>
      match readString? r with
      | none => none
      | some (key, r) =>
        match skipGaps r with
        | ':' :: r =>
          match readValue? fuel r with
          | none => none
          | some (value, r) =>
            match skipGaps r with
            | ',' :: r =>
              (readMembers? fuel r).map fun (members, r) => ((key, value) :: members, r)
            | '\x7d' :: r => some ([(key, value)], r)
            | _ => none
        | _ => none
    | _ => none

end

/-- Reads a text that is one value. -/
def parse? (s : List Char) : Option Json :=
  match readValue? (s.length + 1) s with
  | some (value, rest) => if (skipGaps rest).isEmpty then some value else none
  | none => none

end PipelineScripts.Json
