import PipelineScripts.Check.Report
import PipelineScripts.Proofs.DisabledRules
import PipelineScripts.Proofs.JobScripts

/-!
# Findings that are kept

A finding is kept unless nothing is known about its file or its rule is disabled there. What is
disabled for a block is what the comments say that stand at its section or at a sequence item on the
way from the section's value to the block's leaf, whatever the block has for a header.
-/
namespace PipelineScripts.Script

open Yaml Directive

/-- A mapping entry that holds a script, in the scope it is read in, with its leaves. -/
structure HeldScript where
  scope : Scope
  entry : NodeId
  leaves : List Leaf

/-- The leaves of a script, each with the entry. -/
def HeldScript.sites (x : HeldScript) : List (NodeId × Leaf) := x.leaves.map (Prod.mk x.entry)

/-- A script of a document of a file. -/
structure HeldScript.InFile (f : File) (x : HeldScript) : Prop where
  scope : Scope.IsOf f x.scope
  leaves : x.scope.EntryLeadsTo x.entry x.leaves

namespace Draft

theorem IsExpanded.exists_leaves {s : Scope} {d : Draft} (h : d.IsExpanded s) :
    ∃ leaves, s.EntryLeadsTo d.entry leaves ∧ s.MadeOfAll none leaves d.fragments := by
  obtain ⟨key, value, comments, hk, hexpand⟩ := h
  exact Scope.exists_entryLeaves hk hexpand

theorem isExpanded_of_jobDrafts {f : File} {drafts : List Draft} (h : jobDrafts f = .ok drafts)
    {d : Draft} (hd : d ∈ drafts) : ∃ s, Scope.IsOf f s ∧ d.IsExpanded s := by
  cases hroot : jobRoot? f with
  | none =>
    have hnil : drafts = [] := by simpa [jobDrafts, hroot] using h.symm
    simp [hnil] at hd
  | some root =>
    obtain ⟨aliases, hbuild, hsections⟩ := jobDrafts_eq_ok hroot h
    let s : Scope := ⟨f, root, aliases⟩
    obtain ⟨x, hx, hof⟩ := exists_left_of_mem (forall₂_sectionDrafts hsections) hd
    refine ⟨s, ⟨rfl, mem_documents_of_jobRoot? hroot, hbuild⟩, ?_⟩
    obtain ⟨jobs, -, hflat⟩ := s.exists_jobsAmong ((s.mappingEntries? root).getD [])
    rw [hflat] at hx
    obtain ⟨j, -, hx⟩ := List.mem_flatMap.mp hx
    have hsection := Scope.isSection_of_mem_sectionsInOrder
      (Scope.mem_sectionsInOrder_of_mem_jobEntries hx)
    rw [Draft.IsExpanded, hof.entry]
    exact exists_value_of_isSection hsection hof.fragments

/-- The blocks of expanded drafts are made at the leaves of their entries. -/
theorem madeAt_blocksOfAll {f : File} {drafts : List Draft} (shell : String) (names : BlockNames)
    (h : ∀ d ∈ drafts, ∃ s, Scope.IsOf f s ∧ d.IsExpanded s) :
    ∃ held : List HeldScript, (∀ x ∈ held, x.InFile f) ∧
      List.Forall₂ (fun site b => Block.MadeAt f shell site.1 site.2 b)
        (held.flatMap HeldScript.sites) (blocksOfAll f shell names drafts).1 := by
  induction drafts generalizing names with
  | nil => exact ⟨[], by simp, .nil⟩
  | cons d rest ih =>
    obtain ⟨s, hscope, hd⟩ := h d (by simp)
    obtain ⟨leaves, hleads, hmade⟩ := hd.exists_leaves
    obtain ⟨held, hheld, hothers⟩ := ih (d.blocks f shell names).2
      fun x hx => h x (List.mem_cons_of_mem d hx)
    refine ⟨⟨s, d.entry, leaves⟩ :: held, ?_, ?_⟩
    · intro x hx
      rcases List.mem_cons.mp hx with rfl | hx
      · exact ⟨hscope, hleads⟩
      · exact hheld x hx
    · have hfirst := madeAt_blocks shell names hleads hmade
      rw [hscope.file] at hfirst
      rw [List.flatMap_cons, blocksOfAll]
      refine List.rel_append ?_ hothers
      rw [HeldScript.sites, List.forall₂_map_left_iff]
      exact hfirst

end Draft

/-- The blocks of a file are made at the leaves of mapping entries, one at each leaf and in their
order. -/
theorem exists_held_of_decode {f : File} {shell : String} {blocks : List Block}
    (h : decode f shell = .ok blocks) :
    ∃ held : List HeldScript, (∀ x ∈ held, x.InFile f) ∧
      List.Forall₂ (fun site b => Block.MadeAt f shell site.1 site.2 b)
        (held.flatMap HeldScript.sites) blocks := by
  obtain ⟨⟨jobs, names⟩, hjobs, h⟩ := bind_eq_ok.mp h
  obtain ⟨⟨annotated, names'⟩, hannotated, h⟩ := bind_eq_ok.mp h
  cases h
  obtain ⟨drafts, hdrafts, hjobs⟩ := map_eq_ok.mp hjobs
  obtain ⟨others, hothers, hannotated⟩ := map_eq_ok.mp hannotated
  obtain ⟨held, hheld, hfirst⟩ := Draft.madeAt_blocksOfAll shell {}
    fun d hd => Draft.isExpanded_of_jobDrafts hdrafts hd
  obtain ⟨more, hmore, hsecond⟩ := Draft.madeAt_blocksOfAll shell names
    fun d hd => isExpanded_of_annotatedDrafts hothers hd
  rw [hjobs] at hfirst
  rw [hannotated] at hsecond
  refine ⟨held ++ more, ?_, ?_⟩
  · intro x hx
    rcases List.mem_append.mp hx with hx | hx
    · exact hheld x hx
    · exact hmore x hx
  · rw [List.flatMap_append]
    exact List.rel_append hfirst hsecond

/-- What is disabled for a block is what the comments at its entry and on the way to its leaf
disable. -/
theorem Block.MadeAt.mem_disabledRules {f : File} {shell : String} {entry : NodeId} {l : Leaf}
    {b : Block} (h : b.MadeAt f shell entry l) (rule : String) :
    rule ∈ b.disabledRules ↔ rule ∈ commentRules (f.entryComments entry) ∨
      ∃ comments ∈ l.comments, rule ∈ commentRules comments := by
  obtain ⟨key, value, comments, hk, -, hdirective⟩ := h.value
  rw [Block.disabledRules_eq, hdirective, mem_rulesOf_combine, Leaf.mem_rulesOf_directive]
  simp [File.entryComments, hk, commentRules]

end PipelineScripts.Script

namespace PipelineScripts.Check

open Script Directive Yaml

/-- A finding is about a file of the map, and its rule is not disabled there. -/
def Finding.IsKept (map : BlockMap) (x : Finding) : Prop :=
  ∃ b, map.lookup x.file = some b ∧ x.reason ∉ b.disabledRules

instance (map : BlockMap) (x : Finding) : Decidable (x.IsKept map) :=
  match h : map.lookup x.file with
  | some b => decidable_of_iff (x.reason ∉ b.disabledRules) (by simp [Finding.IsKept, h])
  | none => isFalse (by simp [Finding.IsKept, h])

/-- A report tells what a finding says, at its place in the pipeline file. -/
structure Report.Tells (map : BlockMap) (x : Finding) (r : Report) : Prop where
  block : ∃ b, map.lookup x.file = some b ∧ r.file = b.file ∧ r.path = b.path ∧
    r.line = pipelineLine b x.line ∧ r.sourceLine = scriptLine? b x.line
  level : r.level = Level.parse x.level
  column : r.column = x.column
  endColumn : r.endColumn = x.endColumn
  reason : r.reason = x.reason
  message : r.message = x.message

theorem remapOne?_of_isKept {map : BlockMap} {x : Finding} (h : x.IsKept map) :
    ∃ r, remapOne? map x = some r ∧ Report.Tells map x r := by
  obtain ⟨b, hb, hreason⟩ := h
  have hcontains : b.disabledRules.contains x.reason = false := by simpa using hreason
  simp only [remapOne?, hb, hcontains, Option.bind_eq_bind, Option.bind_some]
  exact ⟨_, rfl, ⟨b, hb, rfl, rfl, rfl, rfl⟩, rfl, rfl, rfl, rfl, rfl⟩

theorem remapOne?_of_not_isKept {map : BlockMap} {x : Finding} (h : ¬ x.IsKept map) :
    remapOne? map x = none := by
  cases hb : map.lookup x.file with
  | none => simp [remapOne?, hb]
  | some b =>
    have hmem : x.reason ∈ b.disabledRules := by
      by_contra hreason
      exact h ⟨b, hb, hreason⟩
    simp [remapOne?, hb, hmem]

/-- One report for each finding that is kept, in their order. -/
theorem tells_remap (findings : List Finding) (map : BlockMap) :
    List.Forall₂ (Report.Tells map) (findings.filter (Finding.IsKept map))
      (remap findings map) := by
  induction findings with
  | nil => exact .nil
  | cons x rest ih =>
    rw [remap, List.filterMap_cons, List.filter_cons]
    by_cases hkept : x.IsKept map
    · obtain ⟨r, hr, htells⟩ := remapOne?_of_isKept hkept
      rw [hr, if_pos (by simpa using hkept)]
      exact .cons htells ih
    · rw [remapOne?_of_not_isKept hkept, if_neg (by simpa using hkept)]
      exact ih

/-- The reports are those of the findings that are kept, in order and one for each. And the blocks
of a file stand at leaves of sections, where a rule is disabled for a block if and only if comments
at its section or at a sequence item on the way to its leaf disable it. -/
theorem reports_are_findings_not_disabled {f : File} {shell : String} {blocks : List Block}
    (h : decode f shell = .ok blocks) :
    (∃ held : List HeldScript, (∀ x ∈ held, x.InFile f) ∧
      List.Forall₂ (fun site b => Block.MadeAt f shell site.1 site.2 b ∧
          ∀ rule, rule ∈ b.disabledRules ↔ rule ∈ commentRules (f.entryComments site.1) ∨
            ∃ comments ∈ site.2.comments, rule ∈ commentRules comments)
        (held.flatMap HeldScript.sites) blocks) ∧
    ∀ (map : BlockMap) (findings : List Finding),
      List.Forall₂ (Report.Tells map) (findings.filter (Finding.IsKept map))
        (remap findings map) := by
  obtain ⟨held, hheld, hblocks⟩ := exists_held_of_decode h
  refine ⟨⟨held, hheld, hblocks.imp fun site b hmade => ?_⟩, fun map findings => ?_⟩
  · exact ⟨hmade, hmade.mem_disabledRules⟩
  · exact tells_remap findings map

/-- A script with a shebang, used by an alias and, in a nested sequence, by a reference. -/
def sharedPipeline : String :=
  ".shared: &shared\n  # scriptcheck disable=SC2034\n  - |\n    #!/bin/bash\n    x=1\n" ++
    "build:\n  # scriptcheck disable=SC2086\n  script:\n    - *shared\n" ++
    "    # scriptcheck disable=SC2046\n    - [!reference [.shared], echo $y]\n"

/-- Disabled rules and header of the blocks of `sharedPipeline`. -/
def sharedRules : List (List String × Option String) :=
  [(["SC2086", "SC2034"], none), (["SC2086", "SC2046", "SC2034"], none),
    (["SC2086", "SC2046"], some "# shellcheck disable=SC2086,SC2046\n")]

/-- Two findings in the first file, one in the second, two in the third, and one in a file that is
unknown. -/
def sharedFindings : List Finding :=
  [("a", 2034), ("a", 2046), ("b", 2046), ("c", 2086), ("c", 2034), ("d", 2046)].map
    fun x => ⟨x.1, 2, 2, 1, 1, "warning", x.2, ""⟩

theorem sharedPipeline_reports :
    ∃ f blocks, File.parse "ci.yml" sharedPipeline = .ok f ∧ decode f "" = .ok blocks ∧
      blocks.map (fun b => (b.disabledRules, b.header?)) = sharedRules ∧
      (∃ held : List HeldScript, (∀ x ∈ held, x.InFile f) ∧
        (held.flatMap HeldScript.sites).length = 3) ∧
      (remap sharedFindings (["a", "b", "c"].zip blocks)).map (fun r => (r.line, r.reason)) =
        [(5, "SC2046"), (11, "SC2034")] := by
  have hrun : ((File.parse "ci.yml" sharedPipeline).toOption.bind fun f =>
      (decode f "").toOption.map fun blocks =>
        (blocks.map fun b => (b.disabledRules, b.header?),
          (remap sharedFindings (["a", "b", "c"].zip blocks)).map fun r => (r.line, r.reason))) =
      some (sharedRules, [(5, "SC2046"), (11, "SC2034")]) := by
    decide +kernel
  obtain ⟨f, hf, hrun⟩ := Option.bind_eq_some_iff.mp hrun
  obtain ⟨blocks, hblocks, hrun⟩ := Option.map_eq_some_iff.mp hrun
  obtain ⟨hrules, hreports⟩ := Prod.mk.inj hrun
  have hdecode := toOption_eq_some.mp hblocks
  obtain ⟨⟨held, hheld, hmade⟩, -⟩ := reports_are_findings_not_disabled hdecode
  have hlength : blocks.length = 3 := by
    rw [← List.length_map fun b : Block => (b.disabledRules, b.header?), hrules]
    rfl
  exact ⟨f, blocks, toOption_eq_some.mp hf, hdecode, hrules,
    ⟨held, hheld, hmade.length_eq.trans hlength⟩, hreports⟩

end PipelineScripts.Check
