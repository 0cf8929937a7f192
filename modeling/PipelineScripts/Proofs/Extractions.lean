import PipelineScripts.Check.Extraction
import PipelineScripts.Proofs.DistinctNames
import PipelineScripts.Proofs.MergedTree
import PipelineScripts.Proofs.OutputPlaces

/-!
# What is extracted from files

Each block of an extraction is from a file that was asked for and could be read, and two blocks of
one file have different names. Files that are decoded on their own do not change each other's
blocks or errors.
-/
namespace PipelineScripts.Script

open Yaml

/-- The names of the blocks of a file differ. -/
theorem nodup_names_of_decode {f : File} {shell : String} {blocks : List Block}
    (h : decode f shell = .ok blocks) (hlength : blocks.length ≤ Text.wordSize) :
    (blocks.map (·.name)).Nodup := by
  obtain ⟨requests, hrequests⟩ := exists_requests_of_decode h
  have hcount : requests.length = blocks.length := by
    rw [← BlockNames.length_reserveAll {} requests, ← hrequests, List.length_map]
  have htaken := @BlockNames.nodup_taken_reserveAll {} requests List.nodup_nil
    (by simpa [hcount] using hlength)
  rw [BlockNames.taken_reserveAll] at htaken
  rw [hrequests]
  simpa using htaken

/-- A block names the source it is from. -/
theorem file_mem_sources {f : File} {shell : String} {blocks : List Block} (hf : IsSourced f)
    (h : decode f shell = .ok blocks) {b : Block} (hb : b ∈ blocks) : b.file ∈ f.sources := by
  obtain ⟨d, fragment, name, hfragment, rfl⟩ := exists_fragment_of_decode h hb
  have hlt := hfragment.source_lt hf
  have hfile : (d.block f shell fragment name).file = f.sources[fragment.source] := by
    simp [Draft.block, File.sourceName, List.getElem?_eq_getElem hlt]
  rw [hfile]
  exact List.getElem_mem hlt

end PipelineScripts.Script

namespace PipelineScripts.Yaml.File

theorem sources_of_read {keep : Bool} {name content : String} {f : File}
    (h : File.read keep name content = .ok f) : f.sources = [name] := by
  obtain ⟨source, events, aliases, documents, b, -, rfl⟩ := exists_built_of_read h
  rfl

end PipelineScripts.Yaml.File

namespace PipelineScripts.Check

open Script Text

variable {s : Surroundings} {config : Config}

namespace Surroundings

/-- The scripts that one file adds. -/
def scriptsOf (s : Surroundings) (config : Config) (path : List Char) : List Block :=
  match s.decodeFile config path with
  | .ok blocks => blocks
  | .error _ => []

/-- The error that one file adds. -/
def errorsOf (s : Surroundings) (config : Config) (path : List Char) : List FileError :=
  match s.decodeFile config path with
  | .ok _ => []
  | .error e => [⟨String.ofList path, e.message s.detail⟩]

/-- Files are decoded one after the other. -/
theorem extractEach_eq (s : Surroundings) (config : Config) (paths : List (List Char)) :
    s.extractEach config paths =
      ⟨paths.length, paths.flatMap (s.scriptsOf config), paths.flatMap (s.errorsOf config)⟩ := by
  induction paths with
  | nil => rfl
  | cons path rest ih =>
    rw [extractEach, List.foldr_cons, ← extractEach, ih, addFile]
    cases h : s.decodeFile config path <;> simp [scriptsOf, errorsOf, h]

/-! ### Where blocks are from -/

/-- A path name that can be read, and that a block names as its file. -/
def IsFileOf (s : Surroundings) (path : List Char) (b : Block) : Prop :=
  b.file = String.ofList path ∧ ∃ content, s.files.read? path = some content

theorem exists_read_of_readPipeline {parse : String → String → Except Yaml.ReadError Yaml.File}
    {path : List Char} {f : Yaml.File} (h : s.readPipeline parse path = .ok f) :
    ∃ content, s.files.read? path = some content ∧ parse (String.ofList path) content = .ok f := by
  unfold readPipeline at h
  dsimp only at h
  split at h
  next => cases h
  next content hcontent =>
    exact ⟨content, hcontent, mapError_eq_ok.mp h⟩

/-- Blocks of one decoded file, which may be merged of several. -/
structure Decoded (s : Surroundings) (paths : List (List Char)) (blocks : List Block) : Prop where
  isFileOf : ∀ b ∈ blocks, ∃ path ∈ paths, s.IsFileOf path b
  distinct : blocks.length ≤ wordSize → (blocks.map (·.name)).Nodup

theorem decoded_of_decodeFile {path : List Char} {blocks : List Block}
    (h : s.decodeFile config path = .ok blocks) : s.Decoded [path] blocks := by
  obtain ⟨f, hf, h⟩ := bind_eq_ok.mp h
  obtain ⟨content, hcontent, hparse⟩ := exists_read_of_readPipeline hf
  have hdecode := mapError_eq_ok.mp h
  refine ⟨fun b hb => ⟨path, by simp, ?_, content, hcontent⟩, nodup_names_of_decode hdecode⟩
  have hmem := file_mem_sources (Yaml.File.shaped_of_read hparse).source_lt hdecode hb
  rw [Yaml.File.sources_of_read hparse] at hmem
  exact List.mem_singleton.mp hmem

theorem decoded_of_decodeMerged {paths : List (List Char)} {blocks : List Block}
    (h : s.decodeMerged config paths = .ok blocks) : s.Decoded paths blocks := by
  obtain ⟨fragments, hfragments, h⟩ := bind_eq_ok.mp h
  obtain ⟨merged, hmerged, h⟩ := bind_eq_ok.mp h
  have hdecode := mapError_eq_ok.mp h
  have hread : ∀ g ∈ fragments, ∃ path ∈ paths, ∃ content, s.files.read? path = some content ∧
      Yaml.File.parseFragment (String.ofList path) content = .ok g := by
    intro g hg
    obtain ⟨path, hpath, hg⟩ := exists_of_mem_mapM hfragments hg
    exact ⟨path, hpath, exists_read_of_readPipeline hg⟩
  have hshaped : ∀ g ∈ fragments, g.Shaped := by
    intro g hg
    obtain ⟨path, -, content, -, hparse⟩ := hread g hg
    exact Yaml.File.shaped_of_read hparse
  obtain ⟨-, rfl⟩ := (Yaml.File.merge_eq_ok hshaped).mp (mapError_eq_ok.mp hmerged)
  have hsourced : ∀ g ∈ fragments, IsSourced g := fun g hg => (hshaped g hg).source_lt
  refine ⟨fun b hb => ?_, nodup_names_of_decode hdecode⟩
  have hmem := file_mem_sources (Yaml.File.isSourced_mergedFile hsourced) hdecode hb
  rw [Yaml.File.sources_mergedFile] at hmem
  obtain ⟨g, hg, hfile⟩ := List.mem_flatMap.mp hmem
  obtain ⟨path, hpath, content, hcontent, hparse⟩ := hread g hg
  rw [Yaml.File.sources_of_read hparse] at hfile
  exact ⟨path, hpath, List.mem_singleton.mp hfile, content, hcontent⟩

theorem mem_scriptsOf {path : List Char} {b : Block} (h : b ∈ s.scriptsOf config path) :
    s.IsFileOf path b := by
  unfold scriptsOf at h
  split at h
  next blocks hblocks =>
    obtain ⟨path', hpath, hfile⟩ := (decoded_of_decodeFile hblocks).isFileOf b h
    rwa [List.mem_singleton.mp hpath] at hfile
  next => simp at h

theorem nodup_names_scriptsOf {path : List Char}
    (hlength : (s.scriptsOf config path).length ≤ wordSize) :
    ((s.scriptsOf config path).map (·.name)).Nodup := by
  unfold scriptsOf at hlength ⊢
  split at hlength
  next blocks hblocks => exact (decoded_of_decodeFile hblocks).distinct hlength
  next => exact List.nodup_nil

/-- What `extractScripts` returns is what one merged pipeline holds, or what the files hold. -/
theorem extractScripts_eq_ok {paths : List (List Char)} {e : Extraction}
    (h : s.extractScripts config paths = .ok e) :
    (config.merge = true ∧ s.decodeMerged config paths = .ok e.blocks) ∨
      config.merge = false ∧ e = s.extractEach config paths := by
  have hchecked : ∀ extraction : Extraction,
      (if config.strict && extraction.blocks.isEmpty then
        Except.error (Failure.noScripts paths.length) else Except.ok extraction) = .ok e →
      extraction = e := by
    intro extraction hextraction
    split_ifs at hextraction
    exact Except.ok.inj hextraction
  unfold extractScripts at h
  cases hmerge : config.merge with
  | true =>
    rw [if_pos hmerge] at h
    obtain ⟨extraction, hextraction, h⟩ := bind_eq_ok.mp h
    obtain ⟨blocks, hblocks, rfl⟩ := map_eq_ok.mp hextraction
    cases hchecked _ h
    exact .inl ⟨rfl, hblocks⟩
  | false =>
    rw [if_neg (by simp [hmerge])] at h
    exact .inr ⟨rfl, (hchecked _ h).symm⟩

/-- Every block is from one of the files. -/
theorem exists_path_of_extractScripts {paths : List (List Char)} {e : Extraction}
    (h : s.extractScripts config paths = .ok e) {b : Block} (hb : b ∈ e.blocks) :
    ∃ path ∈ paths, s.IsFileOf path b := by
  rcases extractScripts_eq_ok h with ⟨-, hmerged⟩ | ⟨-, rfl⟩
  · exact (decoded_of_decodeMerged hmerged).isFileOf b hb
  · rw [extractEach_eq] at hb
    obtain ⟨path, hpath, hb⟩ := List.mem_flatMap.mp hb
    exact ⟨path, hpath, mem_scriptsOf hb⟩

/-- Two blocks of one file have different names. -/
theorem pairwise_of_extractScripts {paths : List (List Char)} (hpaths : paths.Nodup)
    {e : Extraction} (h : s.extractScripts config paths = .ok e)
    (hlength : e.blocks.length ≤ wordSize) :
    e.blocks.Pairwise fun a b => a.file = b.file → a.name ≠ b.name := by
  have hweaken : ∀ blocks : List Block, (blocks.map (·.name)).Nodup →
      blocks.Pairwise fun a b => a.file = b.file → a.name ≠ b.name := by
    intro blocks hnodup
    refine (List.pairwise_map.mp hnodup).imp fun {a b} hne _ => ?_
    exact hne
  rcases extractScripts_eq_ok h with ⟨-, hmerged⟩ | ⟨-, rfl⟩
  · exact hweaken _ ((decoded_of_decodeMerged hmerged).distinct hlength)
  · rw [extractEach_eq] at hlength ⊢
    dsimp only at hlength ⊢
    rw [List.pairwise_flatMap]
    refine ⟨fun path hpath => hweaken _ ?_, hpaths.imp fun {p q} hne a ha b hb hfile => ?_⟩
    · refine nodup_names_scriptsOf (le_trans ?_ hlength)
      obtain ⟨before, after, rfl⟩ := List.append_of_mem hpath
      simp only [List.flatMap_append, List.flatMap_cons, List.length_append]
      omega
    · have heq := (mem_scriptsOf ha).1.symm.trans (hfile.trans (mem_scriptsOf hb).1)
      exact absurd (String.ofList_injective heq) hne

/-- The files that patterns stand for are different. -/
theorem nodup_of_collect {patterns : List String} {paths : List (List Char)}
    (h : s.collect patterns = .ok paths) : paths.Nodup := by
  unfold collect at h
  split at h
  next found hfound =>
    cases h
    obtain ⟨ps, -, rfl⟩ := Option.map_eq_some_iff.mp hfound
    generalize (ps.flatMap (·.search s.files)).flatMap (Files.filesAt s.files) = candidates
    have hall : ∀ (candidates found : List (List Char)), found.Nodup →
        (candidates.foldl Files.addNew found).Nodup := by
      intro candidates
      induction candidates with
      | nil => exact fun found hfound => hfound
      | cons path rest ih =>
        intro found hfound
        refine ih _ ?_
        unfold Files.addNew
        split_ifs with hsame
        · exact hfound
        · rw [List.nodup_append]
          refine ⟨hfound, by simp, ?_⟩
          rintro p hp q hq rfl
          rw [List.mem_singleton.mp hq] at hp
          exact hsame (List.any_eq_true.mpr ⟨path, hp, by simp [Files.samePath]⟩)
    exact hall candidates [] List.nodup_nil
  next => cases h

end Surroundings

end PipelineScripts.Check
