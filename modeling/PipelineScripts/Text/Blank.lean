/-!
# White space

The characters with the Unicode property `White_Space`, and trimming by them.
-/
namespace PipelineScripts.Text

/-- The Unicode property `White_Space`: twenty-five characters. -/
def isBlank (c : Char) : Bool :=
  let n := c.toNat
  (9 ≤ n && n ≤ 13) || n == 0x20 || n == 0x85 || n == 0xA0 || n == 0x1680 ||
    (0x2000 ≤ n && n ≤ 0x200A) || n == 0x2028 || n == 0x2029 || n == 0x202F ||
    n == 0x205F || n == 0x3000

/-- Drops the blanks in front. -/
def trimStart (s : List Char) : List Char := s.dropWhile isBlank

/-- Drops the blanks at the end. -/
def trimEnd (s : List Char) : List Char := (s.reverse.dropWhile isBlank).reverse

/-- Drops the blanks on both sides. -/
def trim (s : List Char) : List Char := trimEnd (trimStart s)

/-- Whether nothing but blanks is in the text. -/
def isAllBlank (s : List Char) : Bool := s.all isBlank

end PipelineScripts.Text
