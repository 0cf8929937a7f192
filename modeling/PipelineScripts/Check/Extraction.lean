import PipelineScripts.Check.Linter
import PipelineScripts.Config
import PipelineScripts.Files.Search
import PipelineScripts.Script.Decoding

/-!
# Extraction

The scripts of a list of pipeline files. Files are decoded one by one, and one that fails is
reported and left out; or they are merged into one pipeline, and then any failure ends the run.
-/
namespace PipelineScripts.Check

open Script

/-- What a run finds outside of itself. -/
structure Surroundings where
  /-- The files below the working directory. -/
  files : Files.Tree
  linter : Linter
  /-- The time of the run, as reports show it. -/
  time : String
  /-- What is said about a failure where the cause lies in a file or in the system. -/
  detail : String
  /-- Whether text for a terminal is coloured. -/
  colour : Bool := false

/-- The scripts of some files. -/
structure Extraction where
  files : Nat
  blocks : List Block
  errors : List FileError
deriving DecidableEq, Repr

namespace Surroundings

/-- Reads a pipeline file. -/
def readPipeline (s : Surroundings)
    (parse : String → String → Except Yaml.ReadError Yaml.File) (path : List Char) :
    Except Failure Yaml.File :=
  let name := String.ofList path
  match s.files.read? path with
  | none => .error (.io name)
  | some content => (parse name content).mapError (Failure.ofReadError name)

/-- The scripts of a file that is read. -/
def decodeRead (config : Config) (f : Yaml.File) : Except Failure (List Block) :=
  (decode f config.shell).mapError (Failure.extract f.name)

/-- The scripts of one file. -/
def decodeFile (s : Surroundings) (config : Config) (path : List Char) :
    Except Failure (List Block) := do
  decodeRead config (← s.readPipeline Yaml.File.parse path)

/-- The scripts of the pipeline that files make together. -/
def decodeMerged (s : Surroundings) (config : Config) (paths : List (List Char)) :
    Except Failure (List Block) := do
  let fragments ← paths.mapM (s.readPipeline Yaml.File.parseFragment)
  let merged ← (Yaml.File.merge fragments).mapError Failure.merge
  decodeRead config merged

/-- Adds the scripts of one file, or the error it ends with. -/
def addFile (s : Surroundings) (config : Config) (path : List Char) (rest : Extraction) :
    Extraction :=
  match s.decodeFile config path with
  | .ok blocks => { rest with files := rest.files + 1, blocks := blocks ++ rest.blocks }
  | .error e =>
    { rest with
      files := rest.files + 1
      errors := ⟨String.ofList path, e.message s.detail⟩ :: rest.errors }

/-- The scripts of files, each on its own. -/
def extractEach (s : Surroundings) (config : Config) (paths : List (List Char)) : Extraction :=
  paths.foldr (s.addFile config) ⟨0, [], []⟩

/-- The scripts of files. -/
def extractScripts (s : Surroundings) (config : Config) (paths : List (List Char)) :
    Except Failure Extraction := do
  let extraction ←
    if config.merge then
      (s.decodeMerged config paths).map fun blocks => Extraction.mk paths.length blocks []
    else pure (s.extractEach config paths)
  if config.strict && extraction.blocks.isEmpty then throw (.noScripts paths.length)
  return extraction

/-- The files that patterns stand for. -/
def collect (s : Surroundings) (patterns : List String) : Except Failure (List (List Char)) :=
  match Files.collect? s.files patterns with
  | some paths => .ok paths
  | none => .error .pattern

/-- Reads the configuration. A file that is named must be there; the default one need not. -/
def loadConfig (s : Surroundings) (path : Option String) : Except Failure Config :=
  let name := path.getD Config.defaultFile
  if (s.files.lookup? name.toList).isSome then
    match s.files.read? name.toList with
    | none => .error (.config (.unreadable name))
    | some content =>
      match Config.parse? content.toList with
      | some config => .ok config
      | none => .error (.config (.malformed name))
  else if path.isSome then .error (.config (.notFound name))
  else .ok {}

end Surroundings

end PipelineScripts.Check
