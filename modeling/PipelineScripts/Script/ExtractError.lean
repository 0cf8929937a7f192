import PipelineScripts.Text.Decimal

/-!
# Errors of extraction
-/
namespace PipelineScripts.Script

/-- Why the scripts of a document cannot be extracted. -/
inductive ExtractError
  /-- An alias of an anchor that is not defined before it. -/
  | unresolvedAlias (anchor : String) (line : Nat)
  /-- A reference or an alias that leads back to itself. -/
  | referenceCycle (path : String)
  /-- A tree with a cycle among its own nodes, which no file has. -/
  | endlessTree
deriving DecidableEq, Repr

/-- The text of an error. -/
def ExtractError.message : ExtractError → String
  | unresolvedAlias anchor line =>
    "unknown anchor '" ++ anchor ++ "' referenced at line " ++ Text.decimal line
  | referenceCycle path => "reference cycle through '" ++ path ++ "'"
  | endlessTree => "endless tree"

end PipelineScripts.Script
