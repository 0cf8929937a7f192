import PipelineScripts.Proofs.DistinctNames
import PipelineScripts.Proofs.PlainSections

/-!
# The scripts of jobs

The first pass over a file finds the scripts of its jobs and nothing else: for each job, for each of
its sections and for each leaf of the section's value, in this order, one block made at that leaf.
The names of the blocks are asked for in the same order, after the job, the section and, but for
the first, the number of the leaf.
-/
namespace PipelineScripts.Script

open Yaml

/-- A leaf of a section of a job: the section's entry and number, what its blocks are named after,
and the number of the leaf. -/
structure Site where
  entry : NodeId
  base : String
  number : Nat
  index : Nat
  leaf : Leaf

/-- The name that is asked for: the first leaf of a section gets that of the section, the others
have their number behind it. -/
def Site.requestedName (x : Site) : String :=
  if x.index = 0 then x.base else x.base ++ "_" ++ Text.decimal x.index

/-- The leaves of one section, where `leaves` gives those of each entry. -/
def sectionSites (leaves : NodeId → List Leaf) (x : NodeId × String × Nat) : List Site :=
  (leaves x.1).zipIdx.map fun l => ⟨x.1, x.2.1, x.2.2, l.2, l.1⟩

/-- The leaves of all sections of some jobs, in order. -/
def Scope.jobSites (s : Scope) (leaves : NodeId → List Leaf) (jobs : List Job) : List Site :=
  (jobs.flatMap s.jobEntries).flatMap (sectionSites leaves)

/-- The entries of the mapping at the root of a document; none if it is no mapping. -/
def Scope.HasRootEntries (s : Scope) (entries : List NodeId) : Prop :=
  s.IsMapping s.root entries ∨ entries = [] ∧ ∀ others, ¬ s.IsMapping s.root others

/-! ### From drafts to sites -/

/-- A draft holds the fragments of a section. -/
structure Draft.IsOf (s : Scope) (x : NodeId × String × Nat) (d : Draft) : Prop where
  entry : d.entry = x.1
  base : d.base = x.2.1
  index : d.index = x.2.2
  fragments : entryFragments s x.1 = .ok d.fragments

theorem forall₂_sectionDrafts {s : Scope} {entries : List NodeId} {drafts : List Draft}
    (h : sectionDrafts s entries = .ok drafts) :
    List.Forall₂ (Draft.IsOf s) (entries.flatMap (sectionsOf s)) drafts := by
  obtain ⟨parts, hparts, rfl⟩ := concatResults_eq_ok.mp h
  generalize entries.flatMap (sectionsOf s) = xs at hparts
  clear h
  induction hparts with
  | nil => exact .nil
  | @cons x part _ _ hx _ ih =>
    obtain ⟨fragments, hfragments, rfl⟩ := map_eq_ok.mp hx
    exact .cons ⟨rfl, rfl, rfl, hfragments⟩ ih

theorem jobDrafts_eq_ok {f : File} {root : NodeId} {drafts : List Draft}
    (hroot : jobRoot? f = some root) (h : jobDrafts f = .ok drafts) :
    ∃ aliases, AliasMap.build f root = .ok aliases ∧
      let s : Scope := ⟨f, root, aliases⟩
      sectionDrafts s ((s.mappingEntries? root).getD []) = .ok drafts := by
  rw [jobDrafts_eq hroot] at h
  exact bind_eq_ok.mp h

theorem hasRootEntries (s : Scope) : s.HasRootEntries ((s.mappingEntries? s.root).getD []) := by
  cases h : s.mappingEntries? s.root with
  | none => exact .inr ⟨rfl, Scope.mappingEntries?_eq_none_iff.mp h⟩
  | some entries => exact .inl (Scope.mappingEntries?_eq_some_iff.mp h)

/-- A section is an entry with a value, and this is what is expanded. -/
theorem exists_value_of_isSection {s : Scope} {entry : NodeId} {fragments : List Fragment}
    (hsection : isSection s.file entry = true) (h : entryFragments s entry = .ok fragments) :
    ∃ key value comments, s.file.kind? entry = some (.entry key value comments) ∧
      s.expand value = .ok fragments := by
  obtain ⟨key, value, comments, hk, -⟩ := Scope.exists_entry_of_isSection hsection
  exact ⟨key, value, comments, hk, by simpa only [entryFragments, hk] using h⟩

/-- One choice of leaves serves all sections that were expanded. -/
theorem exists_leaves_of_sections (s : Scope) : ∃ leaves : NodeId → List Leaf,
    ∀ entry fragments, isSection s.file entry = true →
      entryFragments s entry = .ok fragments →
        s.EntryLeadsTo entry (leaves entry) ∧ s.MadeOfAll none (leaves entry) fragments := by
  have hsome : ∀ entry, ∃ leaves, ∀ fragments, isSection s.file entry = true →
      entryFragments s entry = .ok fragments →
        s.EntryLeadsTo entry leaves ∧ s.MadeOfAll none leaves fragments := by
    intro entry
    by_cases hok :
        isSection s.file entry = true ∧ ∃ fragments, entryFragments s entry = .ok fragments
    · obtain ⟨hsection, fragments, hfragments⟩ := hok
      obtain ⟨key, value, comments, hk, hexpand⟩ := exists_value_of_isSection hsection hfragments
      obtain ⟨leaves, hleads, hmade⟩ := Scope.exists_entryLeaves hk hexpand
      refine ⟨leaves, fun fragments' _ hfragments' => ?_⟩
      rw [hfragments] at hfragments'
      cases hfragments'
      exact ⟨hleads, hmade⟩
    · exact ⟨[], fun fragments hsection hfragments =>
        absurd ⟨hsection, fragments, hfragments⟩ hok⟩
  choose leaves hleaves using hsome
  exact ⟨leaves, hleaves⟩

theorem map_snd_zipIdx {α β : Type} (l : List α) (g : Nat → β) :
    l.zipIdx.map (fun x => g x.2) = (List.range l.length).map g := by
  refine List.ext_getElem (by simp) fun i hi hi' => ?_
  simp

/-- The blocks of one section stand at its sites, and ask for the names of these. -/
theorem sites_of_draft {s : Scope} {x : NodeId × String × Nat} {d : Draft}
    {leaves : NodeId → List Leaf} (hd : d.IsOf s x) (shell : String) (names : BlockNames)
    (hleads : s.EntryLeadsTo x.1 (leaves x.1))
    (hmade : s.MadeOfAll none (leaves x.1) d.fragments) :
    List.Forall₂ (fun site b => Block.MadeAt s.file shell site.entry site.leaf b)
        (sectionSites leaves x) (d.blocks s.file shell names).1 ∧
      d.requests = (sectionSites leaves x).map fun site => (site.requestedName, site.number) := by
  obtain ⟨entry, base, number⟩ := x
  obtain ⟨rfl, rfl, rfl, -⟩ := hd
  refine ⟨?_, ?_⟩
  · have hall := Draft.madeAt_blocks shell names hleads hmade
    rw [← List.zipIdx_map_fst 0 (leaves d.entry), List.forall₂_map_left_iff] at hall
    rw [sectionSites, List.forall₂_map_left_iff]
    exact hall
  · have hlength : (leaves d.entry).length = d.fragments.length := hmade.length_eq
    rw [Draft.requests, sectionSites, List.map_map]
    rw [map_snd_zipIdx d.fragments fun i => (fragmentName d.base i, d.index), ← hlength,
      ← map_snd_zipIdx (leaves d.entry)]
    rfl

theorem sites_of_drafts {s : Scope} {xs : List (NodeId × String × Nat)} {drafts : List Draft}
    {leaves : NodeId → List Leaf} (shell : String) (names : BlockNames)
    (hdrafts : List.Forall₂ (Draft.IsOf s) xs drafts)
    (hleaves : ∀ x ∈ xs, ∀ fragments, entryFragments s x.1 = .ok fragments →
      s.EntryLeadsTo x.1 (leaves x.1) ∧ s.MadeOfAll none (leaves x.1) fragments) :
    List.Forall₂ (fun site b => Block.MadeAt s.file shell site.entry site.leaf b)
        (xs.flatMap (sectionSites leaves)) (Draft.blocksOfAll s.file shell names drafts).1 ∧
      drafts.flatMap Draft.requests =
        (xs.flatMap (sectionSites leaves)).map fun site => (site.requestedName, site.number) := by
  induction hdrafts generalizing names with
  | nil => exact ⟨.nil, rfl⟩
  | @cons x d xs drafts hd _ ih =>
    obtain ⟨hleads, hmade⟩ := hleaves x (by simp) _ hd.fragments
    obtain ⟨hfirst, hrequests⟩ := sites_of_draft hd shell names hleads hmade
    obtain ⟨hothers, hmore⟩ := ih (d.blocks s.file shell names).2
      fun y hy => hleaves y (List.mem_cons_of_mem x hy)
    refine ⟨?_, ?_⟩
    · rw [List.flatMap_cons, Draft.blocksOfAll]
      exact List.rel_append hfirst hothers
    · rw [List.flatMap_cons, List.flatMap_cons, List.map_append, hrequests, hmore]

/-! ### Plain documents -/

theorem Scope.JobsAmong.exists_entry {s : Scope} {entries : List NodeId} {jobs : List Job}
    (h : s.JobsAmong entries jobs) {j : Job} (hj : j ∈ jobs) :
    ∃ entry ∈ entries, s.IsJob entry j := by
  induction h with
  | nil => simp at hj
  | @job entry _ _ _ hjob _ ih =>
    rcases List.mem_cons.mp hj with rfl | hj
    · exact ⟨entry, by simp, hjob⟩
    · obtain ⟨e, he, hjob⟩ := ih hj
      exact ⟨e, List.mem_cons_of_mem entry he, hjob⟩
  | @other entry _ _ _ _ ih =>
    obtain ⟨e, he, hjob⟩ := ih hj
    exact ⟨e, List.mem_cons_of_mem entry he, hjob⟩

/-- The entries of a job stand in the document. -/
theorem Scope.plainBelow_of_job {s : Scope} {entries : List NodeId} {jobs : List Job}
    (hplain : s.file.PlainBelow s.root) (hroot : s.HasRootEntries entries)
    (hjobs : s.JobsAmong entries jobs) {j : Job} (hj : j ∈ jobs) :
    ∀ e ∈ j.entries, s.file.PlainBelow e := by
  obtain ⟨entry, hentry, key, value, comments, hk, -, -, -, hmapping⟩ := hjobs.exists_entry hj
  rcases hroot with hroot | ⟨rfl, -⟩
  · have hentryPlain := hplain.child (below_of_isMapping hroot hplain.self hentry)
    have hvalue : s.file.Below entry value := by
      simp [File.Below, File.children_of_kind? hk, NodeKind.children]
    have hvaluePlain := hentryPlain.child hvalue
    exact fun e he => hvaluePlain.child (below_of_isMapping hmapping hvaluePlain.self he)
  · simp at hentry

/-! ### All blocks -/

/-- The blocks of the first pass are those of the jobs, each at a leaf of a section of a job, in the
order of jobs, sections and leaves, and nothing else is found. Without anchors, aliases, tags and
merge keys a job has its own sections only, and the leaves of a section are the scalars in its
value. -/
theorem job_blocks_are_section_leaves {f : File} {shell : String} {names rest : BlockNames}
    {blocks : List Block} (h : jobBlocks f shell names = .ok (blocks, rest)) :
    (jobRoot? f = none ∧ blocks = []) ∨
    ∃ (s : Scope) (entries : List NodeId) (jobs : List Job) (leaves : NodeId → List Leaf),
      s.file = f ∧ jobRoot? f = some s.root ∧ AliasMap.build f s.root = .ok s.aliases ∧
      s.HasRootEntries entries ∧ s.JobsAmong entries jobs ∧
      (∀ j ∈ jobs, ∀ entry ∈ s.sectionsInOrder j.entries, s.EntryLeadsTo entry (leaves entry)) ∧
      List.Forall₂ (fun site b => Block.MadeAt f shell site.entry site.leaf b)
        (s.jobSites leaves jobs) blocks ∧
      blocks.map (·.name) = (names.reserveAll
        ((s.jobSites leaves jobs).map fun site => (site.requestedName, site.number))).1 ∧
      (f.PlainBelow s.root → f.Acyclic → ∀ j ∈ jobs,
        s.sectionsInOrder j.entries = j.entries.filter (isSection f) ∧
        ∀ entry ∈ s.sectionsInOrder j.entries, ∀ key value comments,
          f.kind? entry = some (.entry key value comments) →
            (leaves entry).map (·.node) = f.sequenceScalars value ∧
            (f.OnlySequences value →
              (leaves entry).map (·.node) = (f.preorder value).filter f.isScalarAt)) := by
  obtain ⟨drafts, hdrafts, hblocks⟩ := map_eq_ok.mp h
  have hfirst : (Draft.blocksOfAll f shell names drafts).1 = blocks := by rw [hblocks]
  subst hfirst
  cases hroot : jobRoot? f with
  | none =>
    have hnil : drafts = [] := by simpa [jobDrafts, hroot] using hdrafts.symm
    exact .inl ⟨rfl, by rw [hnil]; rfl⟩
  | some root =>
    right
    obtain ⟨aliases, hbuild, hsections⟩ := jobDrafts_eq_ok hroot hdrafts
    let s : Scope := ⟨f, root, aliases⟩
    let entries := (s.mappingEntries? root).getD []
    have hroots : s.HasRootEntries entries := hasRootEntries s
    obtain ⟨jobs, hjobs, hflat⟩ := s.exists_jobsAmong entries
    obtain ⟨leaves, hleaves⟩ := exists_leaves_of_sections s
    have hof := forall₂_sectionDrafts hsections
    rw [hflat] at hof
    have hexpanded : ∀ x ∈ jobs.flatMap s.jobEntries, ∀ fragments,
        entryFragments s x.1 = .ok fragments →
          s.EntryLeadsTo x.1 (leaves x.1) ∧ s.MadeOfAll none (leaves x.1) fragments := by
      intro x hx fragments hfragments
      obtain ⟨j, -, hx⟩ := List.mem_flatMap.mp hx
      have hmem := Scope.mem_sectionsInOrder_of_mem_jobEntries hx
      exact hleaves x.1 fragments (Scope.isSection_of_mem_sectionsInOrder hmem) hfragments
    have hleads : ∀ j ∈ jobs, ∀ entry ∈ s.sectionsInOrder j.entries,
        s.EntryLeadsTo entry (leaves entry) := by
      intro j hj entry hentry
      obtain ⟨x, hx, rfl⟩ := Scope.exists_mem_jobEntries hentry
      have hxs : x ∈ jobs.flatMap s.jobEntries := List.mem_flatMap.mpr ⟨j, hj, hx⟩
      obtain ⟨d, -, hd⟩ := exists_right_of_mem hof hxs
      exact (hexpanded x hxs d.fragments hd.fragments).1
    obtain ⟨hblocks, hrequests⟩ := sites_of_drafts shell names hof hexpanded
    refine ⟨s, entries, jobs, leaves, rfl, rfl, hbuild, hroots, hjobs, hleads, hblocks, ?_, ?_⟩
    · rw [(Draft.names_blocksOfAll f shell names drafts).1, hrequests]
      rfl
    · intro hplain hacyclic j hj
      have hbelow := Scope.plainBelow_of_job hplain hroots hjobs hj
      have hown := Scope.sectionsInOrder_of_isPlain fun e he => (hbelow e he).self
      refine ⟨hown, fun entry hentry key value comments hk => ?_⟩
      obtain ⟨key', value', comments', hk', hvalue⟩ := hleads j hj entry hentry
      rw [show s.file.kind? entry = f.kind? entry from rfl, hk] at hk'
      cases hk'
      have hbelowValue : f.Below entry value := by
        simp [File.Below, File.children_of_kind? hk, NodeKind.children]
      rw [hown] at hentry
      have hplainValue := (hbelow entry (List.mem_filter.mp hentry).1).child hbelowValue
      have hnodes := hvalue.nodes_eq hacyclic hplainValue (f.height_le value)
      exact ⟨hnodes, fun honly => hnodes.trans (File.sequenceScalars_eq_filter honly)⟩

/-- A template, an entry that is no mapping, and a job with a folded scalar, a reference inside a
sequence and an inherited section. -/
def templatePipeline : String :=
  ".base: &base\n  before_script: [echo a]\n  script: echo b\nstages: [x]\n" ++
    "build:\n  <<: *base\n  script:\n    - >\n      make\n      all\n" ++
    "    - [ls, !reference [.base, script]]\n"

/-- Name, text and first line of the blocks of `templatePipeline`. -/
def templateScripts : List (String × String × Nat) :=
  [("build_script", "make \\\nall\n", 9), ("build_script_1", "ls", 11),
    ("build_script_2", "echo b", 3), ("build_before_script", "echo a", 2)]

theorem templatePipeline_sites :
    ∃ f blocks rest, File.parse "ci.yml" templatePipeline = .ok f ∧
      jobBlocks f "" {} = .ok (blocks, rest) ∧
      blocks.map (fun b => (b.name, b.script, b.startLine)) = templateScripts ∧
      ∃ (s : Scope) (jobs : List Job) (leaves : NodeId → List Leaf), s.file = f ∧
        List.Forall₂ (fun site b => Block.MadeAt f "" site.entry site.leaf b)
          (s.jobSites leaves jobs) blocks ∧
        (s.jobSites leaves jobs).length = 4 := by
  have hrun : ((File.parse "ci.yml" templatePipeline).toOption.bind fun f =>
      (jobBlocks f "" {}).toOption.map fun x =>
        x.1.map fun b => (b.name, b.script, b.startLine)) = some templateScripts := by
    decide +kernel
  obtain ⟨f, hf, hrun⟩ := Option.bind_eq_some_iff.mp hrun
  obtain ⟨⟨blocks, rest⟩, hblocks, hscripts⟩ := Option.map_eq_some_iff.mp hrun
  have hjobs := toOption_eq_some.mp hblocks
  have hlength : blocks.length = 4 := by
    rw [← List.length_map fun b : Block => (b.name, b.script, b.startLine), hscripts]
    rfl
  refine ⟨f, blocks, rest, toOption_eq_some.mp hf, hjobs, hscripts, ?_⟩
  rcases job_blocks_are_section_leaves hjobs with ⟨-, hnil⟩ | hfound
  · simp [hnil] at hlength
  · obtain ⟨s, -, jobs, leaves, hfile, -, -, -, -, -, hmade, -⟩ := hfound
    exact ⟨s, jobs, leaves, hfile, hmade, hmade.length_eq.trans hlength⟩

end PipelineScripts.Script
