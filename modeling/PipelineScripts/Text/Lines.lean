/-!
# Lines and pieces

`lines` cuts a text at its line breaks, LF or CRLF. A break ends a line, so a text that ends in
one has no empty line after it, and a carriage return that no line feed follows belongs to its
line. `split` cuts at every separator and keeps the empty pieces.
-/
namespace PipelineScripts.Text

/-- Puts a character in front of the first piece. -/
def consFirst (c : Char) : List (List Char) → List (List Char)
  | [] => [[c]]
  | l :: ls => (c :: l) :: ls

/-- The lines of a text, without their breaks. -/
def lines : List Char → List (List Char)
  | [] => []
  | '\n' :: r => [] :: lines r
  | '\r' :: '\n' :: r => [] :: lines r
  | c :: r => consFirst c (lines r)

/-- The pieces between the characters that satisfy `p`; always at least one. -/
def split (p : Char → Bool) : List Char → List (List Char)
  | [] => [[]]
  | c :: r => if p c then [] :: split p r else consFirst c (split p r)

/-- Splits at the first separator; `none` if there is none. -/
def splitOnce? (sep : Char) : List Char → Option (List Char × List Char)
  | [] => none
  | c :: r =>
    if c = sep then some ([], r) else (splitOnce? sep r).map fun (a, b) => (c :: a, b)

/-- Splits at the last separator; `none` if there is none. -/
def splitLast? (sep : Char) (s : List Char) : Option (List Char × List Char) :=
  (splitOnce? sep s.reverse).map fun (a, b) => (b.reverse, a.reverse)

/-- Joins pieces, with `sep` between two of them. -/
def join (sep : List Char) (pieces : List (List Char)) : List Char := sep.intercalate pieces

/-- Strings joined with a separator between two of them. -/
def joinStrings (sep : String) (pieces : List String) : String :=
  String.ofList (join sep.toList (pieces.map String.toList))

@[simp] theorem consFirst_ne_nil (c : Char) (ls : List (List Char)) : consFirst c ls ≠ [] := by
  cases ls <;> simp [consFirst]

theorem split_ne_nil (p : Char → Bool) (s : List Char) : split p s ≠ [] := by
  cases s with
  | nil => simp [split]
  | cons c r => by_cases h : p c <;> simp [split, h]

end PipelineScripts.Text
