import PipelineScripts.Text.Lines
import PipelineScripts.Toml.Text

/-!
# Unquoted TOML values

Booleans, numbers, dates and times.
-/
namespace PipelineScripts.Toml

/-! ### Numbers

A number is taken for one by its shape: where its underscores stand, and what it starts with. Behind
an underscore the shape of a decimal integer leaves open which characters follow; if they are not
digits, the number has no value. -/

/-- A digit of the largest base. -/
def isHexDigit (c : Char) : Bool := (hexDigit? c).isSome

/-- Whether each underscore stands between two digits, where `afterDigit` says whether what stands
in front of the text counts as a digit. -/
def underscoresInside (isDigit : Char → Bool) (afterDigit : Bool) : List Char → Bool
  | [] => true
  | c :: r =>
    (c != '_' || (afterDigit && r.head?.any isDigit)) && underscoresInside isDigit (isDigit c) r

/-- Splits off a sign. -/
def splitSign : List Char → Option Char × List Char
  | '-' :: r => (some '-', r)
  | '+' :: r => (some '+', r)
  | s => (none, s)

/-- The value of digits to a base. Underscores do not count. -/
def digitsValue (base : Nat) (s : List Char) : Nat :=
  s.foldl (fun n c => match hexDigit? c with
    | some d => base * n + d
    | none => n) 0

/-- The integers that have a value, 128 bits with or without a sign. -/
def inIntegerRange (negative : Bool) (n : Nat) : Bool :=
  if negative then n ≤ Nat.pow 2 127 else n < Nat.pow 2 128

/-- Whether a text behind the mark of a base is an integer, and then whether it has a value. It has
none without digits. -/
def markedInteger? (base : Nat) (s : List Char) : Option Bool :=
  let isDigit := fun c => (hexDigit? c).any (· < base)
  if s.all (fun c => isDigit c || c = '_') && underscoresInside isDigit false s then
    some (!s.isEmpty && inIntegerRange false (digitsValue base s))
  else none

/-- Whether a text behind a sign, if there is one, is a decimal integer, and then whether it has a
value. It starts with digits, of which only a single one may be zero, or behind a sign with an
underscore. The sign counts as a digit. -/
def decimalInteger? (sign : Option Char) (s : List Char) : Option Bool :=
  let rest := s.dropWhile Char.isDigit
  if !s.isEmpty && (s.length = 1 || s.head? != some '0') && !s.contains ' '
      && (rest.isEmpty || rest.head? == some '_') && underscoresInside isHexDigit sign.isSome s then
    some (s.all (fun c => c.isDigit || c = '_')
      && inIntegerRange (sign == some '-') (digitsValue 10 s))
  else none

/-- Whether `n` times ten to the power of `e` rounds to a finite number of 64 bits. -/
def isFinite (n : Nat) (e : Int) : Bool :=
  let bound := Nat.pow 2 1024 - Nat.pow 2 970
  let size : Int := (Nat.toDigits 10 n).length + e
  if n = 0 || size < 300 then true
  else if 310 < size then false
  else if 0 ≤ e then n * Nat.pow 10 e.toNat < bound
  else n < bound * Nat.pow 10 (-e).toNat

/-- Splits at an exponent. -/
def splitExponent (s : List Char) : List Char × Option (List Char) :=
  match Text.splitOnce? 'e' (s.map fun c => if c = 'E' then 'e' else c) with
  | some (mantissa, exponent) => (mantissa, some exponent)
  | none => (s, none)

/-- Whether a text holds digits and underscores only, and at least one digit. -/
def isDigitRun (s : List Char) : Bool :=
  s.any Char.isDigit && s.all fun c => c.isDigit || c = '_'

/-- Whether digits start with a zero that is not the only one. -/
def hasLeadingZero (s : List Char) : Bool :=
  s.head? == some '0' && 1 < s.countP Char.isDigit

/-- Whether a text behind a sign, if there is one, is a number with a fraction or an exponent, and
then whether it has a value. -/
def float? (sign : Option Char) (s : List Char) : Option Bool :=
  let (mantissa, exponent) := splitExponent s
  let (whole, fraction) :=
    match Text.splitOnce? '.' mantissa with
    | some (whole, fraction) => (whole, some fraction)
    | none => (mantissa, none)
  let (powerSign, power) := splitSign (exponent.getD ['0'])
  if isDigitRun whole && !hasLeadingZero whole && isDigitRun (fraction.getD ['0'])
      && isDigitRun power && underscoresInside Char.isDigit sign.isSome s then
    let places := (fraction.getD []).countP Char.isDigit
    let e : Int := digitsValue 10 power
    some (isFinite (digitsValue 10 (whole ++ fraction.getD []))
      ((if powerSign = some '-' then -e else e) - places))
  else none

/-- Whether a text is a number, and then whether it has a value. -/
def number? (s : List Char) : Option Bool :=
  match s with
  | '0' :: 'x' :: digits => markedInteger? 16 digits
  | '0' :: 'o' :: digits => markedInteger? 8 digits
  | '0' :: 'b' :: digits => markedInteger? 2 digits
  | _ =>
    let (sign, body) := splitSign s
    if body = "inf".toList || body = "nan".toList then some true
    else if body.any (fun c => c = '.' || c = 'e' || c = 'E') then float? sign body
    else decimalInteger? sign body

/-! ### Dates and times -/

/-- Reads a number of exactly `width` digits within bounds. -/
def readField? (width low high : Nat) (s : List Char) : Option (Nat × List Char) :=
  let digits := s.take width
  if digits.length = width && digits.all Char.isDigit then
    let n := digitsValue 10 digits
    if low ≤ n && n ≤ high then some (n, s.drop width) else none
  else none

/-- Reads one given character. -/
def readChar? (c : Char) : List Char → Option (List Char)
  | [] => none
  | d :: r => if d = c then some r else none

def daysInMonth (year month : Nat) : Nat :=
  if month = 2 then
    if year % 4 = 0 && (year % 100 ≠ 0 || year % 400 = 0) then 29 else 28
  else if [4, 6, 9, 11].contains month then 30
  else 31

/-- Reads a date. -/
def skipDate? (s : List Char) : Option (List Char) := do
  let (year, s) ← readField? 4 0 9999 s
  let (month, s) ← readField? 2 1 12 (← readChar? '-' s)
  let (_, s) ← readField? 2 1 (daysInMonth year month) (← readChar? '-' s)
  return s

/-- Reads a time of day. Seconds and their fraction may be left out. -/
def skipTime? (s : List Char) : Option (List Char) := do
  let (_, s) ← readField? 2 0 23 s
  let (_, s) ← readField? 2 0 59 (← readChar? ':' s)
  match s with
  | ':' :: r =>
    let (_, s) ← readField? 2 0 60 r
    match s with
    | '.' :: r =>
      if (r.takeWhile Char.isDigit).isEmpty then none else some (r.dropWhile Char.isDigit)
    | _ => some s
  | _ => some s

/-- Reads an offset from universal time, if there is one. -/
def skipOffset? (s : List Char) : Option (List Char) :=
  match s with
  | 'Z' :: r | 'z' :: r => some r
  | '+' :: r | '-' :: r => do
    let (_, s) ← readField? 2 0 23 r
    let (_, s) ← readField? 2 0 59 (← readChar? ':' s)
    return s
  | _ => some s

/-- A date, a time, or a date and a time with or without an offset. -/
def isMoment (s : List Char) : Bool :=
  match skipDate? s with
  | some [] => true
  | some (c :: r) =>
    (c = 'T' || c = 't' || c = ' ') && ((skipTime? r).bind skipOffset?) == some []
  | none => skipTime? s == some []

/-! ### Scalars -/

/-- The characters of an unquoted text: all that mean nothing between values. -/
def isScalarChar (c : Char) : Bool :=
  !(isBlank c || ['=', ',', '[', ']', '\x7b', '\x7d', '#', '\r', '\n'].contains c)

/-- Whether an unquoted text goes on after blanks. -/
def goesOn (s : List Char) : Bool :=
  (s.dropWhile isBlank).head?.any fun c => isScalarChar c && c ≠ '.' && c ≠ '"' && c ≠ '\''

/-- The unquoted text in front. The blanks in it belong to it: one may stand between a date and a
time. -/
def scalarText : List Char → List Char
  | [] => []
  | c :: r => if isScalarChar c || (isBlank c && goesOn r) then c :: scalarText r else []

/-- The value of an unquoted text. -/
def scalar? (text : List Char) : Option Value :=
  if text = "true".toList then some (.bool true)
  else if text = "false".toList then some (.bool false)
  else if isMoment text then some .moment
  else (number? text).map .number

end PipelineScripts.Toml
