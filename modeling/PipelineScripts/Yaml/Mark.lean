/-!
# Marks

Positions in a YAML text. Lines count from one, columns from zero, both in characters.
-/
namespace PipelineScripts.Yaml

/-- A position: the number of characters before it, its line and its column. -/
structure Mark where
  index : Nat := 0
  line : Nat := 1
  column : Nat := 0
deriving DecidableEq, Repr

/-- The text between two positions. -/
structure Span where
  start : Mark
  stop : Mark
deriving DecidableEq, Repr

/-- The empty span at a position. -/
def Mark.span (m : Mark) : Span := ⟨m, m⟩

/-- A line and a column, both counted from one. -/
structure Position where
  line : Nat
  column : Nat
deriving DecidableEq, Repr

def Mark.position (m : Mark) : Position := ⟨m.line, m.column + 1⟩

end PipelineScripts.Yaml
