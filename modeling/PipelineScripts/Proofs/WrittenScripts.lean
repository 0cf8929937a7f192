import PipelineScripts.Check.Writing
import PipelineScripts.Proofs.Extractions

/-!
# Scripts on disk

A run that writes scripts puts each of them at the names of its output name, below the output
directory. Nothing keeps two blocks from having the same names: two files of one directory that
differ in their extension only have one stem, and a later script then replaces an earlier one.
Where the names differ, every script is found in its own file afterwards.
-/
namespace PipelineScripts.Check

open Script Files Text

/-! ### Writing one script after another -/

/-- Directories are made, and then the script is written or nothing else is done. -/
theorem writeBlock_cases (root : String) (t : Tree) (b : Block) : ∃ parent,
    (∃ e, writeBlock root t b = ⟨(t.makeDirectories parent).tree, .error e⟩) ∨
    ∃ u, (t.makeDirectories parent).tree.write? (b.target root).toList b.text = some u ∧
      writeBlock root t b = ⟨u, .ok (b.target root)⟩ := by
  unfold writeBlock
  generalize b.target root = target
  extract_lets _ parent making
  refine ⟨parent, ?_⟩
  by_cases hcomplete : making.complete = true
  · rw [if_pos hcomplete]
    cases making.tree.write? target.toList b.text with
    | none => exact .inl ⟨_, rfl⟩
    | some u => exact .inr ⟨u, rfl, rfl⟩
  · exact .inl ⟨_, if_neg hcomplete⟩

-- What is written need not be computed to tell what writing does.
attribute [local irreducible] writeBlock

/-- What is in another place stays, whether a script can be written or not. -/
theorem read?_writeBlock_of_ne {root : String} {t : Tree} {a b : Block} {c : String}
    (hne : a.place ≠ b.place) (hread : t.read? (a.target root).toList = some c) :
    (writeBlock root t b).files.read? (a.target root).toList = some c := by
  obtain ⟨parent, hcases⟩ := writeBlock_cases root t b
  have hkeeps := Tree.keeps_makeDirectories parent (Tree.hasDirectory_nil_of_read? hread)
  have hkept : (t.makeDirectories parent).tree.read? (a.target root).toList = some c :=
    hkeeps.grows.read? hread fun _ _ => hkeeps.texts
  rcases hcases with ⟨e, hblock⟩ | ⟨u, hwrite, hblock⟩
  · rw [hblock]
    exact hkept
  · rw [hblock]
    refine (Tree.wrote_of_write? hwrite).read? (Block.foldlM_step?_target_ne hne.symm ?_) hkept
    obtain ⟨-, place, hplace, -⟩ := Tree.read?_eq_some.mp hkept
    rw [Tree.foldlM_step?_of_follow? hplace]
    rfl

/-- A script that was written can be read under its path name. -/
theorem read?_writeBlock_self {root name : String} {t : Tree} {b : Block}
    (h : (writeBlock root t b).result = .ok name) : name = b.target root ∧
      (writeBlock root t b).files.read? (b.target root).toList = some b.text := by
  obtain ⟨parent, ⟨e, hblock⟩ | ⟨u, hwrite, hblock⟩⟩ := writeBlock_cases root t b
  · rw [hblock] at h
    cases h
  · rw [hblock] at h ⊢
    exact ⟨(Except.ok.inj h).symm, (Tree.wrote_of_write? hwrite).read⟩

theorem writeBlocks_cons (root : String) (t : Tree) (b : Block) (rest : List Block) :
    writeBlocks root t (b :: rest) =
      match (writeBlock root t b).result with
      | .error e => ⟨(writeBlock root t b).files, .error e⟩
      | .ok name =>
        ⟨(writeBlocks root (writeBlock root t b).files rest).files,
          (writeBlocks root (writeBlock root t b).files rest).result.map (name :: ·)⟩ := rfl

theorem writeBlocks_cons_eq_ok {root : String} {t : Tree} {b : Block} {rest : List Block}
    {written : List String} (h : (writeBlocks root t (b :: rest)).result = .ok written) :
    ∃ name more, (writeBlock root t b).result = .ok name ∧
      (writeBlocks root (writeBlock root t b).files rest).result = .ok more ∧
      written = name :: more ∧ (writeBlocks root t (b :: rest)).files =
        (writeBlocks root (writeBlock root t b).files rest).files := by
  rw [writeBlocks_cons] at h ⊢
  cases hfirst : (writeBlock root t b).result with
  | error e =>
    rw [hfirst] at h
    cases h
  | ok name =>
    rw [hfirst] at h
    obtain ⟨more, hmore, rfl⟩ := map_eq_ok.mp h
    exact ⟨name, more, rfl, hmore, rfl, rfl⟩

theorem written_eq {root : String} {t : Tree} {blocks : List Block} {written : List String}
    (h : (writeBlocks root t blocks).result = .ok written) :
    written = blocks.map (·.target root) := by
  induction blocks generalizing t written with
  | nil =>
    cases h
    rfl
  | cons b rest ih =>
    obtain ⟨name, more, hfirst, hmore, rfl, -⟩ := writeBlocks_cons_eq_ok h
    rw [List.map_cons, ih hmore, (read?_writeBlock_self hfirst).1]

/-- What was written stays until something is written in its place, also where a later script cannot
be written. -/
theorem read?_writeBlocks_of_ne {root : String} {t : Tree} {blocks : List Block} {a : Block}
    {c : String} (hne : ∀ b ∈ blocks, a.place ≠ b.place)
    (hread : t.read? (a.target root).toList = some c) :
    (writeBlocks root t blocks).files.read? (a.target root).toList = some c := by
  induction blocks generalizing t with
  | nil => exact hread
  | cons b rest ih =>
    have hfirst := read?_writeBlock_of_ne (hne b (by simp)) hread
    rw [writeBlocks_cons]
    split
    next => exact hfirst
    next => exact ih (fun x hx => hne x (List.mem_cons_of_mem b hx)) hfirst

/-- A script is found in its file unless a later one has its place. -/
theorem read?_writeBlocks {root : String} {t : Tree} {before after : List Block} {b : Block}
    {written : List String}
    (h : (writeBlocks root t (before ++ b :: after)).result = .ok written)
    (hne : ∀ x ∈ after, b.place ≠ x.place) :
    (writeBlocks root t (before ++ b :: after)).files.read? (b.target root).toList =
      some b.text := by
  induction before generalizing t written with
  | nil =>
    obtain ⟨name, more, hfirst, -, -, hfiles⟩ := writeBlocks_cons_eq_ok h
    rw [List.nil_append, hfiles]
    exact read?_writeBlocks_of_ne hne (read?_writeBlock_self hfirst).2
  | cons x before ih =>
    rw [List.cons_append] at h ⊢
    obtain ⟨name, more, -, hmore, -, hfiles⟩ := writeBlocks_cons_eq_ok h
    rw [hfiles]
    exact ih hmore

/-! ### Names that stay apart -/

/-- Neither stem, with a dash behind it, begins the other. -/
def StemsApart (a b : Block) : Prop :=
  ¬ a.stem ++ ['-'] <+: b.stem ++ ['-'] ∧ ¬ b.stem ++ ['-'] <+: a.stem ++ ['-']

instance (a b : Block) : Decidable (StemsApart a b) :=
  inferInstanceAs (Decidable (_ ∧ _))

theorem StemsApart.ne {a b : Block} (h : StemsApart a b) (x y : List Char) :
    a.stem ++ '-' :: x ≠ b.stem ++ '-' :: y := by
  intro heq
  have ha : a.stem ++ ['-'] <+: a.stem ++ '-' :: x := ⟨x, by simp⟩
  have hb : b.stem ++ ['-'] <+: a.stem ++ '-' :: x := heq ▸ ⟨y, by simp⟩
  rcases Nat.le_total (a.stem ++ ['-']).length (b.stem ++ ['-']).length with hle | hle
  · exact h.1 (List.prefix_of_prefix_length_le ha hb hle)
  · exact h.2 (List.prefix_of_prefix_length_le hb ha hle)

/-- Blocks whose names have no slash have different places if they are of one file and have
different names, or of files in different directories, or of files with stems that are apart. -/
theorem place_ne_of_noSlash {a b : Block} (ha : '/' ∉ a.stem ∧ '/' ∉ a.name.toList)
    (hb : '/' ∉ b.stem ∧ '/' ∉ b.name.toList) (hsame : a.file = b.file → a.name ≠ b.name)
    (hother : a.file ≠ b.file → a.directory ≠ b.directory ∨ StemsApart a b) :
    a.place ≠ b.place := by
  rw [Block.place_of_noSlash ha.1 ha.2, Block.place_of_noSlash hb.1 hb.2]
  intro heq
  obtain ⟨hdirectory, hlast⟩ := List.append_inj' heq rfl
  have htext := List.append_cancel_right (List.singleton_inj.mp hlast)
  by_cases hfile : a.file = b.file
  · have hstem : a.stem = b.stem := by rw [Block.stem, Block.stem, hfile]
    rw [hstem] at htext
    have hname := (List.cons.inj (List.append_cancel_left htext)).2
    exact hsame hfile (String.toList_inj.mp hname)
  · rcases hother hfile with hne | hapart
    · exact hne hdirectory
    · exact hapart.ne _ _ htext

namespace Surroundings

variable {s : Surroundings} {config : Config} {patterns : List String} {root : String}

/-- The names of the files that blocks are from have no slash. -/
theorem slash_not_mem_stem_of_extractScripts {paths : List (List Char)} {e : Extraction}
    (h : s.extractScripts config paths = .ok e) {b : Block} (hb : b ∈ e.blocks) :
    '/' ∉ b.stem := by
  obtain ⟨path, -, hfile, content, hread⟩ := exists_path_of_extractScripts h hb
  obtain ⟨name, hname⟩ := Tree.exists_fileName?_of_read? hread
  have hpath : path = b.file.toList := by rw [hfile, String.toList_ofList]
  rw [hpath] at hname
  exact Block.slash_not_mem_stem hname

theorem extract_eq_ok {summary : WriteSummary}
    (h : (s.extract config patterns root).result = .ok summary) :
    ∃ e, s.collect patterns >>= s.extractScripts config = .ok e ∧
      (s.extract config patterns root).files = (writeBlocks root s.files e.blocks).files ∧
      (writeBlocks root s.files e.blocks).result = .ok summary.written := by
  unfold extract at h ⊢
  dsimp only at h ⊢
  split at h
  next => cases h
  next e he =>
    rw [he]
    obtain ⟨written, hwritten, rfl⟩ := map_eq_ok.mp h
    exact ⟨e, rfl, rfl, hwritten⟩

/-- The path names that are written differ if and only if the places of the blocks do, and then
every script is found in its own file. So it is where no block's name has a slash and any two files
are in different directories or have stems of which neither begins the other at a dash. -/
theorem written_nodup_iff {summary : WriteSummary}
    (h : (s.extract config patterns root).result = .ok summary) :
    ∃ e, s.collect patterns >>= s.extractScripts config = .ok e ∧
      summary.written = e.blocks.map (·.target root) ∧
      (summary.written.Nodup ↔ e.blocks.Pairwise fun a b => a.place ≠ b.place) ∧
      (summary.written.Nodup → ∀ b ∈ e.blocks,
        (s.extract config patterns root).files.read? (b.target root).toList = some b.text) ∧
      (e.blocks.length ≤ wordSize → (∀ b ∈ e.blocks, '/' ∉ b.name.toList) →
        (∀ a ∈ e.blocks, ∀ b ∈ e.blocks, a.file ≠ b.file →
          a.directory ≠ b.directory ∨ StemsApart a b) → summary.written.Nodup) := by
  obtain ⟨e, he, hfiles, hresult⟩ := extract_eq_ok h
  have hwritten := written_eq hresult
  have hiff : summary.written.Nodup ↔ e.blocks.Pairwise fun a b => a.place ≠ b.place := by
    rw [hwritten, List.Nodup, List.pairwise_map]
    exact List.Pairwise.iff fun a b => not_congr (Block.target_eq_iff root a b)
  refine ⟨e, he, hwritten, hiff, fun hnodup b hb => ?_, fun hlength hslash hfilesApart => ?_⟩
  · obtain ⟨before, after, hblocks⟩ := List.append_of_mem hb
    have hpairwise := hiff.mp hnodup
    rw [hblocks] at hpairwise hresult hfiles
    rw [hfiles]
    refine read?_writeBlocks hresult ?_
    exact (List.pairwise_cons.mp (List.pairwise_append.mp hpairwise).2.1).1
  · obtain ⟨paths, hpaths, hextract⟩ := bind_eq_ok.mp he
    have hnames := pairwise_of_extractScripts (nodup_of_collect hpaths) hextract hlength
    have hstem : ∀ b ∈ e.blocks, '/' ∉ b.stem := fun b hb =>
      slash_not_mem_stem_of_extractScripts hextract hb
    refine hiff.mpr (hnames.imp_of_mem fun {a b} ha hb hsame => ?_)
    exact place_ne_of_noSlash ⟨hstem a ha, hslash a ha⟩ ⟨hstem b hb, hslash b hb⟩ hsame
      (hfilesApart a ha b hb)

/-- A working directory with two pipelines of one job each, which both have the name `job`. -/
def twoPipelines (first second : String) : Surroundings where
  files := .directory [(first.toList, .text "job:\n  script: echo a\n"),
    (second.toList, .text "job:\n  script: echo b\n")]
  linter := .missing
  time := ""
  detail := ""

theorem twoPipelines_written :
    ∃ summary e, ((twoPipelines "ci.yml" "nightly.yml").extract {} ["*.yml"] "scripts").result =
        .ok summary ∧
      (twoPipelines "ci.yml" "nightly.yml").collect ["*.yml"] >>=
        (twoPipelines "ci.yml" "nightly.yml").extractScripts {} = .ok e ∧
      summary.written = ["scripts/ci-job_script.sh", "scripts/nightly-job_script.sh"] ∧
      summary.written = e.blocks.map (·.target "scripts") ∧
      ∀ b ∈ e.blocks, ((twoPipelines "ci.yml" "nightly.yml").extract {} ["*.yml"]
        "scripts").files.read? (b.target "scripts").toList = some b.text := by
  have hrun : ((twoPipelines "ci.yml" "nightly.yml").extract {} ["*.yml"]
      "scripts").result.toOption =
      some ⟨2, ["scripts/ci-job_script.sh", "scripts/nightly-job_script.sh"], []⟩ := by
    decide +kernel
  have hresult := toOption_eq_some.mp hrun
  obtain ⟨e, he, hwritten, -, hread, -⟩ := written_nodup_iff hresult
  exact ⟨_, e, hresult, he, rfl, hwritten, hread (by decide)⟩

/-- Two files that differ in their extension have one stem, so their jobs of one name are written
to one file, and only the later script is left. -/
theorem twoPipelines_overwritten :
    ∃ summary, ((twoPipelines "ci.yaml" "ci.yml").extract {} ["ci.yml", "ci.yaml"]
        "scripts").result = .ok summary ∧
      summary.written = ["scripts/ci-job_script.sh", "scripts/ci-job_script.sh"] ∧
      ¬ summary.written.Nodup ∧
      ((twoPipelines "ci.yaml" "ci.yml").extract {} ["ci.yml", "ci.yaml"]
        "scripts").files.texts =
        [("ci.yaml", "job:\n  script: echo a\n"), ("ci.yml", "job:\n  script: echo b\n"),
          ("scripts/ci-job_script.sh", "echo a")] := by
  have hrun : ((twoPipelines "ci.yaml" "ci.yml").extract {} ["ci.yml", "ci.yaml"]
      "scripts").result.toOption =
      some ⟨2, ["scripts/ci-job_script.sh", "scripts/ci-job_script.sh"], []⟩ := by
    decide +kernel
  exact ⟨_, toOption_eq_some.mp hrun, rfl, by decide, by decide +kernel⟩

end Surroundings

end PipelineScripts.Check
