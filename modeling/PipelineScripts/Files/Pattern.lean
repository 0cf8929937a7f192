import PipelineScripts.Text.Lines
import PipelineScripts.Path

/-!
# File patterns

A pattern is a path name with wildcards. `?` is any character and `*` any run of characters of a
name; `[ab]` and `[a-z]` are one of some characters, `[!ab]` any other one; `**` is any number of
directories. A pattern that is not well formed is refused as a whole.
-/
namespace PipelineScripts.Files

/-- Some characters, from the first to the last. -/
structure CharSpan where
  first : Char
  last : Char
deriving DecidableEq, Repr

def CharSpan.contains (span : CharSpan) (c : Char) : Bool := span.first ≤ c && c ≤ span.last

/-- A piece of a pattern for a name. -/
inductive Token
  | char (c : Char)
  | anyChar
  | anyRun
  | oneOf (spans : List CharSpan)
  | noneOf (spans : List CharSpan)
deriving DecidableEq, Repr

namespace Token

/-- Whether the piece stands for a character. A run stands for none by itself. -/
def accepts : Token → Char → Bool
  | char c, d => c == d
  | anyChar, _ => true
  | anyRun, _ => false
  | oneOf spans, d => spans.any (·.contains d)
  | noneOf spans, d => !spans.any (·.contains d)

/-- Whether some end of a text satisfies `p`. -/
def anySuffix (p : List Char → Bool) : List Char → Bool
  | [] => p []
  | c :: r => p (c :: r) || anySuffix p r

/-- Whether pieces stand for a name. -/
def matchName : List Token → List Char → Bool
  | [], s => s.isEmpty
  | anyRun :: ts, s => anySuffix (matchName ts) s
  | _ :: _, [] => false
  | t :: ts, c :: s => t.accepts c && matchName ts s

/-- Reads what stands between brackets: `a-z` is a span, any other character is itself. -/
def readSpans : List Char → List CharSpan
  | [] => []
  | a :: '-' :: b :: r => ⟨a, b⟩ :: readSpans r
  | a :: r => ⟨a, a⟩ :: readSpans r

/-- Splits at the bracket that closes a set. The first character belongs to the set, even if it
is a bracket. -/
def splitSet? : List Char → Option (List Char × List Char)
  | [] => none
  | c :: r => (Text.splitOnce? ']' r).map fun (inside, rest) => (c :: inside, rest)

/-- Reads the set behind an opening bracket. -/
def readSet? : List Char → Option (Token × List Char)
  | '!' :: r => (splitSet? r).map fun (inside, rest) => (noneOf (readSpans inside), rest)
  | r => (splitSet? r).map fun (inside, rest) => (oneOf (readSpans inside), rest)

/-- Reads the pieces of a pattern for a name. Each takes at least one character, so the length is
fuel enough. -/
def readWithin? : Nat → List Char → Option (List Token)
  | _, [] => some []
  | 0, _ => none
  | _ + 1, '*' :: '*' :: _ => none
  | fuel + 1, '*' :: r => (readWithin? fuel r).map (anyRun :: ·)
  | fuel + 1, '?' :: r => (readWithin? fuel r).map (anyChar :: ·)
  | fuel + 1, '[' :: r =>
    (readSet? r).bind fun (set, rest) => (readWithin? fuel rest).map (set :: ·)
  | fuel + 1, c :: r => (readWithin? fuel r).map (char c :: ·)

/-- The character of a piece that is one. -/
def literal? : Token → Option Char
  | char c => some c
  | _ => none

end Token

/-- A segment of a pattern. -/
inductive Part
  /-- A name without wildcards. -/
  | literal (name : List Char)
  | wild (tokens : List Token)
  /-- Any number of directories. -/
  | directories
deriving DecidableEq, Repr

namespace Part

/-- The segment that some pieces make. -/
def ofTokens (tokens : List Token) : Part :=
  match tokens.mapM Token.literal? with
  | some name => literal name
  | none => wild tokens

/-- Reads a segment. -/
def parse? (segment : List Char) : Option Part :=
  if segment = ['*', '*'] then some directories
  else (Token.readWithin? segment.length segment).map ofTokens

/-- Whether a segment stands for a name. -/
def matchesName : Part → List Char → Bool
  | literal name, s => name == s
  | wild tokens, s => Token.matchName tokens s
  | directories, _ => false

end Part

/-- A pattern for path names. -/
structure Pattern where
  parts : List Part
  /-- Whether it starts at the root. -/
  absolute : Bool
  /-- Whether only directories count. -/
  directoriesOnly : Bool
deriving DecidableEq, Repr

namespace Pattern

/-- The segments of a pattern. A slash at the end starts none. -/
def segments (text : List Char) : List (List Char) :=
  let all := Path.segments text
  if 1 < all.length && all.getLast? == some [] then all.dropLast else all

/-- Reads a pattern. -/
def parse? (text : List Char) : Option Pattern :=
  ((segments text).mapM Part.parse?).map fun parts =>
    { parts
      absolute := Path.isAbsolute text
      directoriesOnly := text.getLast? == some '/' }

end Pattern

end PipelineScripts.Files
