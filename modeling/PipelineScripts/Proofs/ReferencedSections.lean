import PipelineScripts.Proofs.Leaves
import PipelineScripts.Proofs.MergeKeys

/-!
# References to sections

A reference that names a job and a section goes down from the root by these two keys. It comes to
the section that the job runs if the section is the job's own, and expands to the same fragments.
Keys are looked up among the own entries of a mapping, behind anchors and aliases. So a section that
the job inherits is not found, and the reference holds nothing.
-/
namespace PipelineScripts.Script

open Yaml Relation

namespace Scope

/-- An entry whose key is a scalar and behind whose value a mapping stands: a job, whether it runs
or is a template. -/
def IsNamed (s : Scope) (entry : NodeId) (j : Job) : Prop :=
  ∃ key value comments, s.file.kind? entry = some (.entry key value comments) ∧
    s.file.scalarText? key = some j.name ∧ s.IsMapping value j.entries

variable {s : Scope} {id entry target value : NodeId} {entries : List NodeId} {key : String}
  {keys : List String} {d : Option Directive} {out : List Fragment}

/-! ### Keys that differ -/

/-- Where keys differ the last entry with a key is the only one. -/
theorem findSome?_valueOfKey?_of_mem {f : File} (hkeys : DistinctKeys f entries)
    (hentry : entry ∈ entries) (hkey : f.entryKey? entry = some key)
    (hvalue : valueOfKey? f key entry = some value) :
    entries.reverse.findSome? (valueOfKey? f key) = some value := by
  have hfilter : entries.filter (hasKey f key) = [entry] := by
    rw [hkeys.filter_hasKey]
    have hmem : entry ∈ entries.filter (hasKey f key) := by simp [hentry, hkey]
    rw [hkeys.filter_hasKey] at hmem
    rw [Option.toList_eq_singleton_iff]
    exact Option.mem_toList.mp hmem
  cases hfound : entries.reverse.findSome? (valueOfKey? f key) with
  | none =>
    have hnone := List.findSome?_eq_none_iff.mp hfound entry (List.mem_reverse.mpr hentry)
    rw [hvalue] at hnone
    cases hnone
  | some other =>
    obtain ⟨e, he, hother⟩ := List.exists_of_findSome?_eq_some hfound
    have hsame : f.entryKey? e = some key := by
      by_contra hne
      rw [valueOfKey?_eq_none hne] at hother
      cases hother
    have hmem : e ∈ entries.filter (hasKey f key) := by simp [List.mem_reverse.mp he, hsame]
    rw [hfilter, List.mem_singleton] at hmem
    rw [hmem, hvalue] at hother
    exact hother.symm

theorem lookup?_of_mem (hmapping : s.IsMapping id entries) (hkeys : DistinctKeys s.file entries)
    (hentry : entry ∈ entries) {k : NodeId} {comments : List Comment}
    (hk : s.file.kind? entry = some (.entry k value comments))
    (hkey : s.file.scalarText? k = some key) : s.lookup? id key = some value := by
  have hentryKey : s.file.entryKey? entry = some key := by simp [File.entryKey?, hk, hkey]
  have hvalue : valueOfKey? s.file key entry = some value := by simp [valueOfKey?, hk, hkey]
  rw [lookup?, mappingEntries?_eq_some_iff.mpr hmapping]
  exact findSome?_valueOfKey?_of_mem hkeys hentry hentryKey hvalue

theorem lookup?_eq_none (hmapping : s.IsMapping id entries)
    (hnone : ∀ e ∈ entries, s.file.entryKey? e ≠ some key) : s.lookup? id key = none := by
  rw [lookup?, mappingEntries?_eq_some_iff.mpr hmapping]
  refine List.findSome?_eq_none_iff.mpr fun e he => ?_
  exact valueOfKey?_eq_none (hnone e (List.mem_reverse.mp he))

/-- Two keys are followed into the mapping that the first of them names. -/
theorem resolvePath?_pair (hroot : s.IsMapping s.root entries) (hkeys : DistinctKeys s.file entries)
    (hentry : entry ∈ entries) {k : NodeId} {comments : List Comment}
    (hk : s.file.kind? entry = some (.entry k value comments)) {name : String}
    (hname : s.file.scalarText? k = some name) :
    s.resolvePath? s.root [name, key] = s.lookup? value key := by
  rw [resolvePath?_cons, lookup?_of_mem hroot hkeys hentry hk hname, Option.bind_some,
    resolvePath?_cons]
  exact Option.bind_fun_some _

/-- A section that a job yields and that is not its own has a key that none of its entries has. -/
theorem ne_of_inherited (hsection : entry ∈ jobSections s entries) (hother : entry ∉ entries)
    (hkey : s.file.entryKey? entry = some key) : ∀ e ∈ entries, s.file.entryKey? e ≠ some key := by
  intro e he hsame
  rw [jobSections_eq] at hsection
  obtain ⟨key', hmem, hkey'⟩ := exists_sectionKey (isSection_of_mem_sectionsInOrder hsection)
  obtain rfl : key = key' := Option.some.inj (hkey.symm.trans hkey')
  have hown : e ∈ entries.filter (isSection s.file) := by
    have his : isSection s.file e = true := by simp [isSection, hsame, hmem]
    exact List.mem_filter.mpr ⟨he, his⟩
  rcases List.mem_append.mp hsection with hentry | hentry
  · exact hother (List.mem_filter.mp hentry).1
  · have hnone : (inherited s.file (entries.filter (isSection s.file))
        (entries.flatMap (mergedSections s))).filter (hasKey s.file key) = [] :=
      filter_inherited_of_mem hown hsame
    have hfound := List.mem_filter.mpr ⟨hentry, hasKey_iff.mpr hkey⟩
    rw [hnone] at hfound
    cases hfound

/-! ### What a reference expands to -/

theorem expands_reference_iff (hpath : referencePath? s.file id = some keys)
    (htarget : s.resolvePath? s.root keys = some target) :
    s.Expands d id out ↔ s.Expands d target out := by
  obtain ⟨value, hid⟩ := kind?_of_referencePath? hpath
  refine ⟨fun h => ?_, .reference hid hpath htarget⟩
  cases h with
  | reference _ hpath' htarget' hvalue =>
    cases hpath.symm.trans hpath'
    cases htarget.symm.trans htarget'
    exact hvalue
  | malformed _ hnone => cases hpath.symm.trans hnone
  | notFound _ hpath' hnone =>
    cases hpath.symm.trans hpath'
    cases htarget.symm.trans hnone
  | tagged hk htag =>
    cases hid.symm.trans hk
    exact absurd rfl htag
  | scalar hk | literal hk | folded hk | sequence hk | anchor hk | aliasOf hk | mapping hk
  | entry hk | absent hk => cases hid.symm.trans hk

theorem expand_of_not_found (hpath : referencePath? s.file id = some keys)
    (htarget : s.resolvePath? s.root keys = none) : s.expand id = .ok [] := by
  obtain ⟨value, hid⟩ := kind?_of_referencePath? hpath
  simp [expand, expandWithin, expandTree, hid, followReference, hpath, htarget]

/-- What a reference expands to is what its target expands to. -/
theorem expand_target_of_ok (hf : s.file.Acyclic) (hpath : referencePath? s.file id = some keys)
    (htarget : s.resolvePath? s.root keys = some target) (h : s.expand id = .ok out) :
    s.expand target = .ok out := by
  have hstep := follows_of_referencePath? hpath htarget
  obtain ⟨hends, halike, hunbound⟩ := (expand_ok_iff hf).mp ⟨out, h⟩
  have hok : ∃ out', s.expand target = .ok out' := by
    refine (expand_ok_iff hf).mpr ⟨fun hendless => hends (hendless.head (.single hstep)), ?_, ?_⟩
    · rintro path ⟨x, keys, next, other, keys', next', hx, hmeets⟩
      exact halike path ⟨x, keys, next, other, keys', next', hx.head hstep, hmeets⟩
    · rintro name line ⟨x, hx, hmeets⟩
      exact hunbound name line ⟨x, hx.head hstep, hmeets⟩
  obtain ⟨out', h'⟩ := hok
  have hmeaning := (expands_reference_iff hpath htarget).mp (expands_of_expandWithin h)
  rw [h', (expands_of_expandWithin h').unique hmeaning]

/-- Unless references that are spelled alike are met, a reference expands wherever its target
does. -/
theorem expand_of_target_ok (hf : s.file.Acyclic) (hpath : referencePath? s.file id = some keys)
    (htarget : s.resolvePath? s.root keys = some target) (h : s.expand target = .ok out)
    (halike : ∀ path, ¬ s.MeetsAlike id path) : s.expand id = .ok out := by
  obtain ⟨value, hid⟩ := kind?_of_referencePath? hpath
  have hmeaning := (expands_reference_iff hpath htarget).mpr (expands_of_expandWithin h)
  have hunbound := ((expand_ok_iff hf).mp ⟨out, h⟩).2.2
  have hends : ¬ s.Endless id := fun hendless => endless_iff_not_acc.mp hendless hmeaning.acc
  have hok : ∃ out', s.expand id = .ok out' := by
    refine (expand_ok_iff hf).mpr ⟨hends, halike, ?_⟩
    rintro name line ⟨x, hx, hk, hmeets⟩
    obtain rfl | ⟨next, hnext, hx⟩ := hx.cases_head
    · cases hid.symm.trans hk
    · obtain rfl : next = target := by
        simpa [Follows, successors_reference hid hpath, htarget] using hnext
      exact hunbound name line ⟨x, hx, hk, hmeets⟩
  obtain ⟨out', h'⟩ := hok
  rw [h', (expands_of_expandWithin h').unique hmeaning]

/-- A reference to a job and to a section that the job runs finds the value of this very section if
it is the job's own. Then both have one meaning; what the reference expands to the section expands
to, and the other way round, as long as no references are met that are spelled alike. A section that
the job inherits is not found, and the reference holds nothing. -/
theorem reference_to_section {rootEntries : List NodeId} {job entry : NodeId} {j : Job}
    {key : String} (hroot : s.IsMapping s.root rootEntries)
    (hrootKeys : DistinctKeys s.file rootEntries) (hmem : job ∈ rootEntries)
    (hjob : s.IsNamed job j) (hkeys : DistinctKeys s.file j.entries)
    (hsection : entry ∈ jobSections s j.entries) (hkey : s.file.entryKey? entry = some key) :
    (entry ∈ j.entries → ∃ k value comments,
      s.file.kind? entry = some (.entry k value comments) ∧
      s.resolvePath? s.root [j.name, key] = some value ∧
      ∀ id, referencePath? s.file id = some [j.name, key] →
        (∀ d out, s.Expands d id out ↔ s.Expands d value out) ∧
        (s.file.Acyclic → ∀ out, (s.expand id = .ok out → s.expand value = .ok out) ∧
          (s.expand value = .ok out → (∀ path, ¬ s.MeetsAlike id path) →
            s.expand id = .ok out))) ∧
    (entry ∉ j.entries → s.resolvePath? s.root [j.name, key] = none ∧
      ∀ id, referencePath? s.file id = some [j.name, key] → s.expand id = .ok []) := by
  obtain ⟨k, jobValue, comments, hk, hname, hmapping⟩ := hjob
  have hpair : s.resolvePath? s.root [j.name, key] = s.lookup? jobValue key :=
    resolvePath?_pair hroot hrootKeys hmem hk hname
  refine ⟨fun hown => ?_, fun hother => ?_⟩
  · rw [jobSections_eq] at hsection
    obtain ⟨k', value, comments', hk', text, htext⟩ :=
      exists_entry_of_isSection (isSection_of_mem_sectionsInOrder hsection)
    obtain rfl : text = key := by simpa [File.entryKey?, hk', htext] using hkey
    have htarget : s.resolvePath? s.root [j.name, text] = some value :=
      hpair.trans (lookup?_of_mem hmapping hkeys hown hk' htext)
    refine ⟨k', value, comments', hk', htarget, fun id hpath => ⟨fun d out => ?_, fun hf out => ?_⟩⟩
    · exact expands_reference_iff hpath htarget
    · exact ⟨expand_target_of_ok hf hpath htarget, expand_of_target_ok hf hpath htarget⟩
  · have hnone : s.resolvePath? s.root [j.name, key] = none :=
      hpair.trans (lookup?_eq_none hmapping (ne_of_inherited hsection hother hkey))
    exact ⟨hnone, fun id hpath => expand_of_not_found hpath hnone⟩

/-- A template with an anchor around it, whose section is an alias, and a reference to it. -/
def ownSectionPipeline : String :=
  ".base:\n  script: &steps\n    - echo a\n    - echo b\n.job: &job\n  script: *steps\n" ++
    "check:\n  script: !reference [.job, script]\n"

/-- The reference comes to the alias in the template, and both expand to the anchored steps. -/
theorem ownSectionPipeline_referenced :
    ∃ s : Scope, File.parse "ci.yml" ownSectionPipeline = .ok s.file ∧
      jobRoot? s.file = some s.root ∧ AliasMap.build s.file s.root = .ok s.aliases ∧
      s.IsMapping s.root [8, 15, 24] ∧ DistinctKeys s.file [8, 15, 24] ∧
      s.IsNamed 15 ⟨".job", [12]⟩ ∧ DistinctKeys s.file [12] ∧ 12 ∈ jobSections s [12] ∧
      s.file.entryKey? 12 = some "script" ∧
      s.resolvePath? s.root [".job", "script"] = some 11 ∧
      referencePath? s.file 21 = some [".job", "script"] ∧
      s.expand 21 = .ok [⟨"echo a", 3, none, 0⟩, ⟨"echo b", 4, none, 0⟩] ∧
      s.expand 11 = s.expand 21 := by
  let out : List Fragment := [⟨"echo a", 3, none, 0⟩, ⟨"echo b", 4, none, 0⟩]
  have hrun : (File.parse "ci.yml" ownSectionPipeline).toOption.any (fun f =>
      let s : Scope := ⟨f, 25, ⟨[(11, 4)]⟩⟩
      jobRoot? f = some 25 ∧ AliasMap.build f 25 = .ok s.aliases ∧
      s.mappingEntries? 25 = some [8, 15, 24] ∧ ([8, 15, 24].filterMap f.entryKey?).Nodup ∧
      f.kind? 15 = some (.entry 9 14 []) ∧ f.scalarText? 9 = some ".job" ∧
      s.mappingEntries? 14 = some [12] ∧ ([12].filterMap f.entryKey?).Nodup ∧
      jobSections s [12] = [12] ∧ f.kind? 12 = some (.entry 10 11 []) ∧
      f.entryKey? 12 = some "script" ∧ referencePath? f 21 = some [".job", "script"] ∧
      s.expand 21 = .ok out) = true := by
    decide +kernel
  obtain ⟨f, hparse, hrun⟩ := (Option.any_eq_true _ _).mp hrun
  simp only [decide_eq_true_eq] at hrun
  obtain ⟨hroot, hbuild, hentries, hrootKeys, hk, hname, hjobEntries, hkeys, hsections,
    hsectionKind, hkey, hpath, hexpand⟩ := hrun
  let s : Scope := ⟨f, 25, ⟨[(11, 4)]⟩⟩
  have hread := toOption_eq_some.mp hparse
  have hmapping : s.IsMapping 25 [8, 15, 24] := mappingEntries?_eq_some_iff.mp hentries
  have hjob : s.IsNamed 15 ⟨".job", [12]⟩ :=
    ⟨9, 14, [], hk, hname, mappingEntries?_eq_some_iff.mp hjobEntries⟩
  have hsection : 12 ∈ jobSections s [12] := by rw [hsections]; exact List.mem_singleton_self 12
  obtain ⟨k, value, comments, hvalue, htarget, hreference⟩ :=
    (reference_to_section hmapping hrootKeys (by decide) hjob hkeys hsection hkey).1 (by decide)
  obtain rfl : value = 11 := by
    cases hvalue.symm.trans hsectionKind
    rfl
  have hsame := ((hreference 21 hpath).2 (File.shaped_of_read hread).acyclic out).1 hexpand
  exact ⟨s, hread, hroot, hbuild, hmapping, hrootKeys, hjob, hkeys, hsection, hkey, htarget, hpath,
    hexpand, hsame.trans hexpand.symm⟩

/-- A job that has its section from a template, and a reference to this section. -/
def inheritedSectionPipeline : String :=
  ".base: &base\n  script: echo a\njob:\n  <<: *base\ncheck:\n" ++
    "  script: !reference [job, script]\n"

/-- The job runs the section of the template, and the reference to it finds nothing, though no
mapping has two entries of one key. -/
theorem inheritedSectionPipeline_not_found :
    ∃ s : Scope, File.parse "ci.yml" inheritedSectionPipeline = .ok s.file ∧
      jobRoot? s.file = some s.root ∧ AliasMap.build s.file s.root = .ok s.aliases ∧
      (∀ id entries, s.file.kind? id = some (.mapping entries) → DistinctKeys s.file entries) ∧
      s.IsMapping s.root [6, 12, 21] ∧ s.IsNamed 12 ⟨"job", [10]⟩ ∧ jobSections s [10] = [3] ∧
      s.file.kind? 3 = some (.entry 1 2 []) ∧ s.file.entryKey? 3 = some "script" ∧
      s.resolvePath? s.root ["job", "script"] ≠ some 2 ∧
      referencePath? s.file 18 = some ["job", "script"] ∧
      s.expand 18 = .ok [] ∧ s.expand 2 = .ok [⟨"echo a", 2, none, 0⟩] := by
  have hrun : (File.parse "ci.yml" inheritedSectionPipeline).toOption.any (fun f =>
      let s : Scope := ⟨f, 22, ⟨[(9, 4)]⟩⟩
      jobRoot? f = some 22 ∧ AliasMap.build f 22 = .ok s.aliases ∧
      (∀ id < f.nodes.size, ((f.children id).filterMap f.entryKey?).Nodup) ∧
      s.mappingEntries? 22 = some [6, 12, 21] ∧ f.kind? 12 = some (.entry 7 11 []) ∧
      f.scalarText? 7 = some "job" ∧ s.mappingEntries? 11 = some [10] ∧
      jobSections s [10] = [3] ∧ f.kind? 3 = some (.entry 1 2 []) ∧
      f.entryKey? 3 = some "script" ∧ s.resolvePath? 22 ["job", "script"] ≠ some 2 ∧
      referencePath? f 18 = some ["job", "script"] ∧ s.expand 18 = .ok [] ∧
      s.expand 2 = .ok [⟨"echo a", 2, none, 0⟩]) = true := by
    decide +kernel
  obtain ⟨f, hparse, hrun⟩ := (Option.any_eq_true _ _).mp hrun
  simp only [decide_eq_true_eq] at hrun
  obtain ⟨hroot, hbuild, hdistinct, hentries, hk, hname, hjobEntries, hresults⟩ := hrun
  refine ⟨⟨f, 22, ⟨[(9, 4)]⟩⟩, toOption_eq_some.mp hparse, hroot, hbuild,
    fun id entries hkind => ?_, mappingEntries?_eq_some_iff.mp hentries,
    ⟨7, 11, [], hk, hname, mappingEntries?_eq_some_iff.mp hjobEntries⟩, hresults⟩
  have hkeys := hdistinct id (File.lt_size_of_kind? hkind)
  rwa [File.children_of_kind? hkind] at hkeys

end Scope

end PipelineScripts.Script
