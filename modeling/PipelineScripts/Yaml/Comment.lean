import PipelineScripts.Text.Blank
import PipelineScripts.Text.Lines

/-!
# Comments

Comments are found line by line in the source. A `#` starts one at the start of the line or after
a blank, outside quotes; a quote opens a scalar only where a scalar may start, so that an
apostrophe in plain text means nothing.
-/
namespace PipelineScripts.Yaml

open Text

/-- A comment: its line and what follows the `#`. -/
structure Comment where
  line : Nat
  text : String
deriving DecidableEq, Repr

/-- Where a position of a line stands. -/
inductive LineQuoting
  | outside
  | single
  | double
  /-- After a backslash inside double quotes. -/
  | escaped
deriving DecidableEq, Repr

/-- Whether a quote after `previous` opens a scalar. -/
def opensScalar (previous : Option Char) : Bool :=
  match previous with
  | none => true
  | some p => isBlank p || p = ':' || p = '-' || p = '[' || p = '\x7b' || p = ','

/-- The effect of one character on where the line stands. -/
def LineQuoting.next (q : LineQuoting) (previous : Option Char) (c : Char) : LineQuoting :=
  match q with
  | .escaped => .double
  | .double => if c = '\\' then .escaped else if c = '"' then .outside else .double
  | .single => if c = '\'' then .outside else .single
  | .outside =>
    if c = '\'' && opensScalar previous then .single
    else if c = '"' && opensScalar previous then .double
    else .outside

/-- The offset of the `#` that starts a comment, in a line that is in state `q` after
`previous`. -/
def commentStartFrom? (q : LineQuoting) (previous : Option Char) : List Char → Option Nat
  | [] => none
  | c :: r =>
    if q = .outside && c = '#' && previous.all isBlank then some 0
    else (commentStartFrom? (q.next previous c) (some c) r).map (· + 1)

/-- The offset of the `#` that starts a comment. -/
def commentStart? (line : List Char) : Option Nat := commentStartFrom? .outside none line

/-- A line without its comment. -/
def codePart (line : List Char) : List Char :=
  match commentStart? line with
  | some i => line.take i
  | none => line

/-- A comment of a line. `alone` tells whether nothing but blanks precedes it. -/
structure LineComment where
  comment : Comment
  alone : Bool
deriving DecidableEq, Repr

/-- The comment of a line. -/
def lineComment? (number : Nat) (line : List Char) : Option LineComment :=
  (commentStart? line).map fun i =>
    ⟨⟨number, String.ofList (line.drop (i + 1))⟩, isAllBlank (line.take i)⟩

/-- A range of lines, the last one included. -/
structure LineRange where
  first : Nat
  last : Nat
deriving DecidableEq, Repr

def LineRange.contains (r : LineRange) (line : Nat) : Bool := r.first ≤ line && line ≤ r.last

/-- The comments of a source, one place for each line. -/
structure SourceComments where
  ofLine : Array (Option LineComment)
deriving DecidableEq, Repr

namespace SourceComments

/-- Finds the comments. In the lines of `content` a `#` is text. -/
def find (lines : List (List Char)) (content : List LineRange) : SourceComments :=
  ⟨(lines.zipIdx 1).toArray.map fun (line, number) =>
    if content.any (·.contains number) then none else lineComment? number line⟩

/-- The comment of a line, counted from one. -/
def at? (s : SourceComments) (line : Nat) : Option LineComment :=
  if line = 0 then none else (s.ofLine[line - 1]?).join

/-- The comments on lines of their own that end with line `n`, without a gap. -/
def aloneUpTo (s : SourceComments) : Nat → List Comment
  | 0 => []
  | n + 1 =>
    match s.at? (n + 1) with
    | some c => if c.alone then s.aloneUpTo n ++ [c.comment] else []
    | none => []

/-- The comments of what starts on a line: those directly above it and the one at its end. -/
def groupFor (s : SourceComments) (line : Nat) : List Comment :=
  let trailing :=
    match s.at? line with
    | some c => if c.alone then [] else [c.comment]
    | none => []
  s.aloneUpTo (line - 1) ++ trailing

end SourceComments

end PipelineScripts.Yaml
