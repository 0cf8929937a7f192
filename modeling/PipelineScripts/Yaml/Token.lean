import PipelineScripts.Yaml.Mark

/-!
# YAML tokens
-/
namespace PipelineScripts.Yaml

/-- How a scalar is written. -/
inductive ScalarForm
  | plain
  | single
  | double
  | literal
  | folded
deriving DecidableEq, Repr

/-- What a token is. -/
inductive TokenKind
  | streamStart
  | streamEnd
  | versionDirective
  /-- A tag handle made known; an unknown directive has an empty one. -/
  | tagDirective (handle : List Char)
  | documentStart
  | documentEnd
  | blockSequenceStart
  | blockMappingStart
  | blockEnd
  | flowSequenceStart
  | flowSequenceEnd
  | flowMappingStart
  | flowMappingEnd
  | blockEntry
  | flowEntry
  | key
  | value
  | aliasOf (name : List Char)
  | anchor (name : List Char)
  | tag (handle : List Char)
  | scalar (form : ScalarForm) (text : List Char)
deriving DecidableEq, Repr

/-- A token and where it stands. -/
structure Token where
  kind : TokenKind
  span : Span
deriving DecidableEq, Repr

/-- The tokens of a text up to its end, or up to the first one that cannot be read. -/
structure TokenStream where
  tokens : List Token
  complete : Bool
deriving DecidableEq, Repr

end PipelineScripts.Yaml
