import PipelineScripts.Proofs.BlockNodes
import PipelineScripts.Proofs.MergedTree

/-!
# Blocks of merged files

Files that do not need each other may be merged or not: both passes find the same scripts in the
same order. Each file is carried into the merged one with its aliases and references, and what is
found in it there is what was found before, but for the names of blocks, which are handed out
anew.
-/
namespace PipelineScripts.Script

open Yaml

/-- The keys that the references of a file start with. -/
def firstKeys (f : File) : List String :=
  (List.range f.nodes.size).filterMap fun id => (referencePath? f id).bind List.head?

/-- No reference of one of two files starts with a key at the root of the other. -/
def Independent (f g : File) : Prop :=
  (∀ key ∈ firstKeys f, key ∉ g.rootKeys) ∧ ∀ key ∈ firstKeys g, key ∉ f.rootKeys

instance : DecidableRel Independent := fun _ _ => inferInstanceAs (Decidable (_ ∧ _))

theorem mem_firstKeys {f : File} {id : NodeId} {key : String} {rest : List String}
    (h : referencePath? f id = some (key :: rest)) : key ∈ firstKeys f := by
  refine List.mem_filterMap.mpr ⟨id, List.mem_range.mpr (lt_size_of_referencePath? h), ?_⟩
  rw [h]
  rfl

/-- A draft that was found below the root of a file. -/
structure Draft.FoundIn (f : File) (d : Draft) : Prop where
  entry_lt : ∃ root : Nat, root ∈ f.roots ∧ d.entry < root
  fragments : ∀ x ∈ d.fragments, x.ExpandedIn f

/-- Files that were gone through one by one, and the walk through all of them merged. -/
structure FoundEach (files : List File) (walks : File → AliasWalk)
    (jobs annotated : File → List Draft) (W : AliasWalk) : Prop where
  each : File.OneMappingEach files
  independent : files.Pairwise Independent
  found : ∀ f ∈ files, FindsAtRoots f (walks f) (jobs f) (annotated f)
  walk : ownWalk (File.mergedFile files) = .ok W
  bound : ∀ p ∈ File.emptyMerge.places files, ∀ id < p.file.nodes.size,
    W.targets.lookup (id + p.offset) = ((walks p.file).targets.lookup id).map (· + p.offset)

/-- The walk through merged files binds what the walks through the files bind. -/
theorem exists_foundEach {files : List File} {walks : File → AliasWalk}
    {jobs annotated : File → List Draft} (heach : File.OneMappingEach files)
    (hindependent : files.Pairwise Independent)
    (hfound : ∀ f ∈ files, FindsAtRoots f (walks f) (jobs f) (annotated f)) :
    ∃ W, FoundEach files walks jobs annotated W := by
  have hkinds : ∀ p ∈ File.emptyMerge.places files, ∀ id ∈ p.file.belowRoots,
      (File.mergedFile files).kind? (id + p.offset) =
        (p.file.kind? id).map (NodeKind.mapChildren (· + p.offset)) := by
    intro p hp id hid
    obtain ⟨root, hroot, hlt⟩ := (heach.shaped_place hp).lt_root_of_mem_belowRoots hid
    exact (heach.copies hp hroot).kind? hlt
  obtain ⟨W, hW, -, hbound⟩ := exists_walk_places (W := {})
    (File.pairwise_places File.emptyMerge files) (fun p hp => heach.shaped_place hp) hkinds
    (fun p hp => (hfound p.file (File.file_mem_of_mem_places hp)).walk) (by simp)
  refine ⟨W, heach, hindependent, hfound, ?_, hbound⟩
  rw [ownWalk, heach.belowRoots_mergedFile]
  exact hW

namespace FoundEach

variable {files : List File} {walks : File → AliasWalk} {jobs annotated : File → List Draft}
  {W : AliasWalk} {p : File.Placed} {r root : NodeId}

/-! ### Each document in the merged one -/

theorem acyclic (h : FoundEach files walks jobs annotated W) : (File.mergedFile files).Acyclic :=
  h.each.acyclic_and_closed_mergedFile.1

/-- The entries of a file have no other keys at the common root than at its own. -/
theorem foreign_entryKey? (h : FoundEach files walks jobs annotated W) {q : File.Placed}
    (hq : q ∈ File.emptyMerge.places files) {key : String} (hkey : key ∉ q.file.rootKeys) :
    ∀ e ∈ q.rootEntries, (File.mergedFile files).entryKey? e ≠ some key := by
  intro e he hsame
  obtain ⟨r, hr, he⟩ := List.mem_flatMap.mp he
  obtain ⟨entry, hentry, rfl⟩ := List.mem_map.mp he
  have hlt := (h.each.shaped_place hq).lt_of_mem_rootEntries hentry
  rw [(h.each.copies hq hr).entryKey? hlt] at hsame
  refine hkey (List.mem_filterMap.mpr ⟨entry, ?_, hsame⟩)
  exact List.mem_flatMap.mpr ⟨r, hr, hentry⟩

/-- The entries of a file stand at the common root, and no reference of the file names any other
entry there. -/
theorem entries_at_root (h : FoundEach files walks jobs annotated W)
    (hp : p ∈ File.emptyMerge.places files) (hroot : root ∈ (File.mergedFile files).roots) :
    ∃ before after, (File.mergedFile files).kind? root =
        some (.mapping (before ++ p.rootEntries ++ after)) ∧
      ∀ key ∈ firstKeys p.file, ∀ e ∈ before ++ after,
        (File.mergedFile files).entryKey? e ≠ some key := by
  have hmerged := h.each.kind?_mergedFile_root hroot
  have hpairs : (File.emptyMerge.places files).Pairwise fun p q => Independent p.file q.file := by
    rw [← List.pairwise_map, File.map_file_places]
    exact h.independent
  obtain ⟨before, after, hplaces⟩ := List.append_of_mem hp
  have hmem : ∀ q ∈ before ++ after, q ∈ File.emptyMerge.places files := by
    intro q hq
    rw [hplaces]
    rcases List.mem_append.mp hq with hq | hq
    · exact List.mem_append_left _ hq
    · exact List.mem_append_right _ (List.mem_cons_of_mem p hq)
  rw [hplaces, List.flatMap_append, List.flatMap_cons, ← List.append_assoc] at hmerged
  rw [hplaces, List.pairwise_append, List.pairwise_cons] at hpairs
  obtain ⟨-, ⟨hafter, -⟩, hbefore⟩ := hpairs
  refine ⟨_, _, hmerged, fun key hkey e he => ?_⟩
  rw [← List.flatMap_append] at he
  obtain ⟨q, hq, he⟩ := List.mem_flatMap.mp he
  refine h.foreign_entryKey? (hmem q hq) ?_ e he
  rcases List.mem_append.mp hq with hq | hq
  · exact (hbefore q hq p (by simp)).2 key hkey
  · exact (hafter q hq).1 key hkey

/-- The walk through a file binds aliases to nodes in front of its root. -/
theorem target_bare (h : FoundEach files walks jobs annotated W)
    (hp : p ∈ File.emptyMerge.places files) (hr : r ∈ p.file.roots) {id t : Nat}
    (htarget : (walks p.file).targets.lookup id = some t) :
    t < r ∧ ∃ k, p.file.kind? t = some k ∧ k.isBare = true := by
  have hf := h.each.shaped_place hp
  have hbelow : ∀ id : Nat, id ∈ p.file.belowRoots → id < r := by
    intro id hid
    obtain ⟨r', hr', hlt⟩ := hf.lt_root_of_mem_belowRoots hid
    rw [(h.each.one_place hp).roots_eq hr, List.mem_singleton] at hr'
    exact hr' ▸ hlt
  have hwalk := (h.found p.file (File.file_mem_of_mem_places hp)).walk
  exact (targets_of_walk hf hbelow hwalk (id, t) (mem_of_lookup htarget)).2

/-- Each document is carried into the merged one. -/
theorem carriedTo (h : FoundEach files walks jobs annotated W)
    (hp : p ∈ File.emptyMerge.places files) (hr : r ∈ p.file.roots)
    (hroot : root ∈ (File.mergedFile files).roots) :
    Scope.CarriedTo ⟨p.file, r, ⟨(walks p.file).targets⟩⟩
      ⟨File.mergedFile files, root, ⟨W.targets⟩⟩ p.offset p.source := by
  have hone := h.each.one_place hp
  have hlt := (h.each.shaped_place hp).root_lt r hr
  obtain ⟨before, after, hmerged, hforeign⟩ := h.entries_at_root hp hroot
  have hself : p.rootEntries = (p.file.rootEntries r).map (· + p.offset) := by
    rw [File.Placed.rootEntries, hone.roots_eq hr, List.flatMap_singleton]
  rw [hself] at hmerged
  refine ⟨h.each.carriesTree hp hr, fun id hid => h.bound p hp id (Nat.lt_trans hid hlt),
    fun htarget => h.target_bare hp hr htarget, ?_⟩
  refine ⟨p.file.rootEntries r, before, after, hone.kind? hr, hmerged, ?_⟩
  intro id key rest hpath
  exact hforeign key (mem_firstKeys hpath)

/-- What is found in a file, where the file was placed. -/
def placedDrafts (drafts : File → List Draft) (p : File.Placed) : List Draft :=
  (drafts p.file).map (Draft.moved p.offset p.source)

theorem exists_root (hp : p ∈ File.emptyMerge.places files) (hr : r ∈ p.file.roots) :
    ∃ root, root ∈ (File.mergedFile files).roots := by
  have hmem : r + p.offset ∈ (File.gathered files).roots :=
    File.mem_roots_gathered.mpr ⟨p, hp, r, hr, rfl⟩
  cases hroots : (File.gathered files).roots with
  | nil => simp [hroots] at hmem
  | cons root others => exact ⟨root, File.mem_roots_mergedFile.mpr ⟨others, hroots⟩⟩

/-- The jobs at one root. -/
theorem sectionDrafts_root (h : FoundEach files walks jobs annotated W)
    (hp : p ∈ File.emptyMerge.places files) (hr : r ∈ p.file.roots)
    (hroot : root ∈ (File.mergedFile files).roots) {part : List Draft}
    (hpart : sectionDrafts ⟨p.file, r, ⟨(walks p.file).targets⟩⟩ (p.file.rootEntries r) =
      .ok part) :
    sectionDrafts ⟨File.mergedFile files, root, ⟨W.targets⟩⟩
        ((p.file.rootEntries r).map (· + p.offset)) =
        .ok (part.map (Draft.moved p.offset p.source)) ∧
      ∀ d ∈ part, d.entry < r :=
  (h.carriedTo hp hr hroot).sectionDrafts h.acyclic
    (fun _ hentry => (h.each.shaped_place hp).lt_of_mem_rootEntries hentry) hpart

theorem foundIn_of_job (h : FoundEach files walks jobs annotated W)
    (hp : p ∈ File.emptyMerge.places files) {d : Draft} (hd : d ∈ jobs p.file) :
    d.FoundIn p.file := by
  have hjobs := (h.found p.file (File.file_mem_of_mem_places hp)).jobs_eq
  obtain ⟨r, hr, part, hpart, hd⟩ := exists_of_mem_concatResults hjobs hd
  obtain ⟨root, hroot⟩ := exists_root hp hr
  exact ⟨⟨r, hr, (h.sectionDrafts_root hp hr hroot hpart).2 d hd⟩,
    expandedIn_of_sectionDrafts hpart hd⟩

/-! ### Both passes over the merged file -/

theorem sectionDrafts_flatMap {α : Type} (s : Scope) (g : α → List NodeId) (l : List α) :
    sectionDrafts s (l.flatMap g) = concatResults (fun a => sectionDrafts s (g a)) l := by
  unfold sectionDrafts
  rw [List.flatMap_assoc, concatResults_flatMap]

/-- The jobs of a file are found where it was placed. -/
theorem sectionDrafts_place (h : FoundEach files walks jobs annotated W)
    (hp : p ∈ File.emptyMerge.places files) (hroot : root ∈ (File.mergedFile files).roots) :
    sectionDrafts ⟨File.mergedFile files, root, ⟨W.targets⟩⟩ p.rootEntries =
      .ok (placedDrafts jobs p) := by
  rw [File.Placed.rootEntries, sectionDrafts_flatMap]
  refine concatResults_map_right (fun r hr part hpart => ?_)
    (h.found p.file (File.file_mem_of_mem_places hp)).jobs_eq
  exact (h.sectionDrafts_root hp hr hroot hpart).1

theorem lt_size_of_mem_entries (h : FoundEach files walks jobs annotated W)
    (hp : p ∈ File.emptyMerge.places files) {x : Nat}
    (hx : x ∈ (jobs p.file).flatMap Draft.entries) : x < p.file.nodes.size := by
  obtain ⟨d, hd, hx⟩ := List.mem_flatMap.mp hx
  obtain ⟨fragment, -, rfl⟩ := List.mem_map.mp hx
  obtain ⟨r, hr, hlt⟩ := (h.foundIn_of_job hp hd).entry_lt
  exact Nat.lt_trans hlt ((h.each.shaped_place hp).root_lt r hr)

/-- The entries of jobs are the same in a file and in the merged one. -/
theorem carriesCovered (h : FoundEach files walks jobs annotated W)
    (hp : p ∈ File.emptyMerge.places files) (hr : r ∈ p.file.roots) (aliases : AliasMap) :
    Scope.CarriedTo.CarriesCovered ⟨p.file, r, aliases⟩ p.offset
      ((jobs p.file).flatMap Draft.entries)
      (((File.emptyMerge.places files).flatMap (placedDrafts jobs)).flatMap Draft.entries) := by
  have hplaced : ∀ q, (placedDrafts jobs q).flatMap Draft.entries =
      ((jobs q.file).flatMap Draft.entries).map (· + q.offset) := by
    intro q
    rw [placedDrafts, List.flatMap_map, List.map_flatMap]
    exact List.flatMap_congr fun d _ => Draft.entries_moved q.offset q.source d
  intro x hx
  rw [List.flatMap_assoc]
  simp only [hplaced]
  constructor
  · intro hmem
    obtain ⟨q, hq, hmem⟩ := List.mem_flatMap.mp hmem
    obtain ⟨y, hy, heq⟩ := List.mem_map.mp hmem
    have hxsize := Nat.lt_trans hx ((h.each.shaped_place hp).root_lt r hr)
    cases File.eq_of_mem_places hp hq hxsize (h.lt_size_of_mem_entries hq hy) heq.symm
    exact Nat.add_right_cancel heq ▸ hy
  · intro hmem
    exact List.mem_flatMap.mpr ⟨p, hp, List.mem_map.mpr ⟨x, hmem, rfl⟩⟩

/-- The annotated entries below one root. -/
theorem annotatedWithin_root (h : FoundEach files walks jobs annotated W)
    (hp : p ∈ File.emptyMerge.places files) (hr : r ∈ p.file.roots)
    (hroot : root ∈ (File.mergedFile files).roots) {part : List Draft}
    (hpart : concatResults (annotatedWithin ⟨p.file, r, ⟨(walks p.file).targets⟩⟩
      ((jobs p.file).flatMap Draft.entries) (p.file.nodes.size - 1)) (p.file.rootEntries r) =
      .ok part) :
    concatResults (annotatedWithin ⟨File.mergedFile files, root, ⟨W.targets⟩⟩
        (((File.emptyMerge.places files).flatMap (placedDrafts jobs)).flatMap Draft.entries)
        ((File.mergedFile files).nodes.size - 1)) ((p.file.rootEntries r).map (· + p.offset)) =
        .ok (part.map (Draft.moved p.offset p.source)) ∧
      ∀ d ∈ part, d.entry < r := by
  have hcarried := h.carriedTo hp hr hroot
  have hcovered := h.carriesCovered hp hr ⟨(walks p.file).targets⟩
  have hdepth := Nat.sub_le_sub_right hcarried.size_le 1
  have hlt : ∀ entry ∈ p.file.rootEntries r, entry < r := fun _ hentry =>
    (h.each.shaped_place hp).lt_of_mem_rootEntries hentry
  refine ⟨concatResults_map (fun entry hentry out hout => ?_) hpart, fun d hd => ?_⟩
  · exact (hcarried.annotatedWithin h.acyclic hcovered hdepth (hlt entry hentry) hout).1
  · obtain ⟨entry, hentry, out, hout, hd⟩ := exists_of_mem_concatResults hpart hd
    exact (hcarried.annotatedWithin h.acyclic hcovered hdepth (hlt entry hentry) hout).2 d hd

theorem foundIn_of_annotated (h : FoundEach files walks jobs annotated W)
    (hp : p ∈ File.emptyMerge.places files) {d : Draft} (hd : d ∈ annotated p.file) :
    d.FoundIn p.file := by
  have hannotated := (h.found p.file (File.file_mem_of_mem_places hp)).annotated_eq
  obtain ⟨r, hr, part, hpart, hd⟩ := exists_of_mem_concatResults hannotated hd
  obtain ⟨root, hroot⟩ := exists_root hp hr
  refine ⟨⟨r, hr, (h.annotatedWithin_root hp hr hroot hpart).2 d hd⟩, ?_⟩
  obtain ⟨entry, -, out, hout, hd⟩ := exists_of_mem_concatResults hpart hd
  exact (isExpanded_of_annotatedWithin hout d hd).expandedIn

/-- The annotated entries of a file are found where it was placed. -/
theorem annotatedWithin_place (h : FoundEach files walks jobs annotated W)
    (hp : p ∈ File.emptyMerge.places files) (hroot : root ∈ (File.mergedFile files).roots) :
    concatResults (annotatedWithin ⟨File.mergedFile files, root, ⟨W.targets⟩⟩
        (((File.emptyMerge.places files).flatMap (placedDrafts jobs)).flatMap Draft.entries)
        ((File.mergedFile files).nodes.size - 1)) p.rootEntries =
      .ok (placedDrafts annotated p) := by
  rw [File.Placed.rootEntries, concatResults_flatMap]
  refine concatResults_map_right (fun r hr part hpart => ?_)
    (h.found p.file (File.file_mem_of_mem_places hp)).annotated_eq
  exact (h.annotatedWithin_root hp hr hroot hpart).1

/-- In the merged file each pass finds what it finds in the files, in their order. -/
theorem findsAtRoots_mergedFile (h : FoundEach files walks jobs annotated W) :
    FindsAtRoots (File.mergedFile files) W
      ((File.emptyMerge.places files).flatMap (placedDrafts jobs))
      ((File.emptyMerge.places files).flatMap (placedDrafts annotated)) := by
  have hone := h.each.oneMapping_mergedFile
  cases hroots : (File.mergedFile files).roots with
  | nil =>
    -- Without a root nothing was found in any of the files.
    have hnothing : ∀ drafts : File → List Draft,
        (∀ p ∈ File.emptyMerge.places files, ∀ d ∈ drafts p.file, d.FoundIn p.file) →
        (File.emptyMerge.places files).flatMap (placedDrafts drafts) = [] := by
      intro drafts hfound
      refine List.eq_nil_iff_forall_not_mem.mpr fun moved hmoved => ?_
      obtain ⟨p, hp, hmoved⟩ := List.mem_flatMap.mp hmoved
      obtain ⟨d, hd, -⟩ := List.mem_map.mp hmoved
      obtain ⟨r, hr, -⟩ := (hfound p hp d hd).entry_lt
      obtain ⟨root, hroot⟩ := exists_root hp hr
      simp [hroots] at hroot
    rw [hnothing jobs fun p hp d hd => h.foundIn_of_job hp hd,
      hnothing annotated fun p hp d hd => h.foundIn_of_annotated hp hd]
    exact ⟨h.walk, by rw [hroots]; rfl, by rw [hroots]; rfl⟩
  | cons root others =>
    have hroot : root ∈ (File.mergedFile files).roots := by simp [hroots]
    have hentries := File.rootEntries_of_mapping (h.each.kind?_mergedFile_root hroot)
    have hsingle := hone.roots_eq hroot
    refine ⟨h.walk, ?_, ?_⟩
    · rw [hsingle, concatResults_singleton, hentries, sectionDrafts_flatMap]
      exact concatResults_eq_flatMap fun p hp => h.sectionDrafts_place hp hroot
    · rw [hsingle, concatResults_singleton, hentries, concatResults_flatMap]
      exact concatResults_eq_flatMap fun p hp => h.annotatedWithin_place hp hroot

/-! ### Blocks -/

/-- The blocks of the files' drafts are those of the files. -/
theorem contents_places (h : FoundEach files walks jobs annotated W) {drafts : File → List Draft}
    (hdrafts : ∀ p ∈ File.emptyMerge.places files, ∀ d ∈ drafts p.file, d.FoundIn p.file)
    (shell : String) :
    ((File.emptyMerge.places files).flatMap (placedDrafts drafts)).flatMap
        (Draft.contents (File.mergedFile files) shell) =
      files.flatMap fun f => (drafts f).flatMap (Draft.contents f shell) := by
  conv_rhs => rw [← File.map_file_places File.emptyMerge files, List.flatMap_map]
  rw [List.flatMap_assoc]
  refine List.flatMap_congr fun p hp => ?_
  rw [placedDrafts, List.flatMap_map]
  refine List.flatMap_congr fun d hd => ?_
  obtain ⟨⟨r, hr, hlt⟩, hfragments⟩ := hdrafts p hp d hd
  obtain ⟨root, hroot⟩ := exists_root hp hr
  refine (h.carriedTo hp hr hroot).contents_moved h.acyclic hlt (fun x hx => ?_) shell
  exact File.sourceName_mergedFile hp
    ((hfragments x hx).source_lt (h.each.shaped_place hp).source_lt)

/-- Both passes over the merged file make the blocks that they make of the files one by one. -/
theorem exists_passes (h : FoundEach files walks jobs annotated W) (shell : String) :
    ∃ p, passes (File.mergedFile files) shell = .ok p ∧
      p.jobs.map Block.content =
        (files.flatMap fun f => (jobs f).flatMap (Draft.contents f shell)) ∧
      p.annotated.map Block.content =
        files.flatMap fun f => (annotated f).flatMap (Draft.contents f shell) := by
  obtain ⟨hacyclic, hclosed⟩ := h.each.acyclic_and_closed_mergedFile
  have hfinds := (findsDrafts_iff h.each.oneMapping_mergedFile hacyclic hclosed).mpr
    ⟨W, h.findsAtRoots_mergedFile⟩
  obtain ⟨p, hp, hjobs, hannotated⟩ := hfinds.exists_passes shell
  refine ⟨p, hp, ?_, ?_⟩
  · rw [hjobs, h.contents_places fun p hp d hd => h.foundIn_of_job hp hd]
  · rw [hannotated, h.contents_places fun p hp d hd => h.foundIn_of_annotated hp hd]

end FoundEach

/-! ### Files on their own -/

section Reading

-- The reader of events is looked at as a whole: opened up, it is too large to compute with.
attribute [local irreducible] Event.read

theorem readEvents_keep {fuel : Nat} {source : List Char} {aliases : List (Nat × String)}
    {r : EventSource} (h : readEvents false (fuel + 1) source aliases = .ok r) :
    readEvents true (fuel + 1) source aliases = .ok r := by
  rw [readEvents_succ] at h ⊢
  cases hevents : Event.read source with
  | ok events =>
    rw [hevents] at h
    exact h
  | error e =>
    rw [hevents] at h
    cases e with
    | malformed => simp at h
    | unknownAnchor mark => cases halias : aliasAt? source mark.index <;> simp [halias] at h

/-- A file that can be read on its own is read in the same way as one of several. -/
theorem parseFragment_of_parse {name content : String} {f : File}
    (h : File.parse name content = .ok f) : File.parseFragment name content = .ok f := by
  unfold File.parse File.read at h
  unfold File.parseFragment File.read
  obtain ⟨r, hr, h⟩ := bind_eq_ok.mp h
  exact bind_eq_ok.mpr ⟨r, readEvents_keep hr, h⟩

end Reading

/-- What both passes find in a file that can be decoded. -/
theorem exists_found {f : File} {shell : String} (hf : f.Shaped) (hone : f.OneMapping)
    (h : ∃ blocks, decode f shell = .ok blocks) :
    ∃ w jobs annotated, FindsAtRoots f w jobs annotated := by
  obtain ⟨blocks, hblocks⟩ := h
  rw [decode_eq_passes] at hblocks
  obtain ⟨p, hp, -⟩ := map_eq_ok.mp hblocks
  obtain ⟨jobs, annotated, hfinds⟩ := exists_findsDrafts hp
  obtain ⟨w, hw⟩ := (findsDrafts_iff hone hf.acyclic hf.closed).mp hfinds
  exact ⟨w, jobs, annotated, hw⟩

/-- Files with one mapping each that do not refer to each other may be merged or not, even if they
have keys in common: in the merged file each pass finds the scripts that it finds in the files one
by one, in their order. -/
theorem merged_blocks_eq_separate_blocks {inputs : List (String × String)} {files : List File}
    {shell : String} (hinputs : inputs.mapM (fun i => File.parse i.1 i.2) = .ok files)
    (hone : ∀ f ∈ files, f.OneMapping) (hindependent : files.Pairwise Independent)
    (hdecode : ∀ f ∈ files, ∃ blocks, decode f shell = .ok blocks) :
    inputs.mapM (fun i => File.parseFragment i.1 i.2) = .ok files ∧
      ∃ merged p parts, File.merge files = .ok merged ∧
        passes merged shell = .ok p ∧ decode merged shell = .ok (p.jobs ++ p.annotated) ∧
        files.mapM (fun f => passes f shell) = .ok parts ∧
        p.jobs.map Block.content = parts.flatMap (fun q => q.jobs.map Block.content) ∧
        p.annotated.map Block.content =
          parts.flatMap fun q => q.annotated.map Block.content := by
  have hshaped : ∀ f ∈ files, f.Shaped := by
    intro f hf
    obtain ⟨input, -, hinput⟩ := exists_of_mem_mapM hinputs hf
    exact File.shaped_of_read hinput
  have heach : File.OneMappingEach files := ⟨hshaped, hone⟩
  have hnonempty : Nonempty AliasWalk := ⟨{}⟩
  choose! walks jobs annotated hfound using fun f (hf : f ∈ files) =>
    exists_found (hshaped f hf) (hone f hf) (hdecode f hf)
  obtain ⟨W, hW⟩ := exists_foundEach heach hindependent hfound
  obtain ⟨p, hp, hjobs, hannotated⟩ := hW.exists_passes shell
  have hnonempty : Nonempty Passes := ⟨p⟩
  choose! part hpart using fun f (hf : f ∈ files) =>
    ((findsDrafts_iff (hone f hf) (hshaped f hf).acyclic (hshaped f hf).closed).mpr
      ⟨walks f, hfound f hf⟩).exists_passes shell
  refine ⟨?_, File.mergedFile files, p, files.map part, heach.merge_eq, hp, ?_, ?_, ?_, ?_⟩
  · refine mapM_eq_ok.mpr ((mapM_eq_ok.mp hinputs).imp fun input f hf => ?_)
    exact parseFragment_of_parse hf
  · rw [decode_eq_passes]
    exact map_eq_ok.mpr ⟨p, hp, rfl⟩
  · rw [mapM_eq_ok, List.forall₂_map_right_iff, List.forall₂_same]
    exact fun f hf => (hpart f hf).1
  · rw [hjobs, List.flatMap_map]
    exact List.flatMap_congr fun f hf => (hpart f hf).2.1.symm
  · rw [hannotated, List.flatMap_map]
    exact List.flatMap_congr fun f hf => (hpart f hf).2.2.symm

/-- Two pipelines that do not need each other: one with an alias and a reference, one with an
annotated entry. -/
def separateInputs : List (String × String) :=
  [("a.yml", "x: &s echo a\njob:\n  script:\n    - *s\n    - !reference [x]\n"),
    ("b.yml", "job2:\n  script: echo b\nnote:\n  # scriptcheck shell=bash\n  run: echo c\n")]

/-- The scripts of the jobs of `separateInputs`. -/
def separateJobs : List Content :=
  [⟨"a.yml", "echo a", "sh", "$.job.script", 1, none⟩,
    ⟨"a.yml", "echo a", "sh", "$.job.script", 1, none⟩,
    ⟨"b.yml", "echo b", "sh", "$.job2.script", 2, none⟩]

/-- The scripts of the annotated entries of `separateInputs`. -/
def separateAnnotated : List Content :=
  [⟨"b.yml", "echo c", "bash", "$.note.run", 5, some (Directive.empty.set "shell" "bash")⟩]

/-- Merged or not, the two pipelines have the same scripts. -/
theorem separateInputs_merged :
    ∃ files merged p, separateInputs.mapM (fun i => File.parseFragment i.1 i.2) = .ok files ∧
      File.merge files = .ok merged ∧ passes merged "sh" = .ok p ∧
      p.jobs.map Block.content = separateJobs ∧
      p.annotated.map Block.content = separateAnnotated := by
  have hrun : ((separateInputs.mapM fun i => File.parse i.1 i.2).toOption.bind fun files =>
      (files.mapM fun f => passes f "sh").toOption.map fun parts =>
        (decide (∀ f ∈ files, f.OneMapping), decide (files.Pairwise Independent),
          decide (∀ f ∈ files, (decode f "sh").toOption.isSome = true),
          parts.flatMap (fun q => q.jobs.map Block.content),
          parts.flatMap fun q => q.annotated.map Block.content)) =
      some (true, true, true, separateJobs, separateAnnotated) := by decide +kernel
  obtain ⟨files, hfiles, hrun⟩ := Option.bind_eq_some_iff.mp hrun
  obtain ⟨parts, hparts, hrun⟩ := Option.map_eq_some_iff.mp hrun
  simp only [Prod.mk.injEq, decide_eq_true_eq] at hrun
  obtain ⟨hone, hindependent, hsome, hjobs, hannotated⟩ := hrun
  have hdecode : ∀ f ∈ files, ∃ blocks, decode f "sh" = .ok blocks := by
    intro f hf
    obtain ⟨blocks, hblocks⟩ := Option.isSome_iff_exists.mp (hsome f hf)
    exact ⟨blocks, toOption_eq_some.mp hblocks⟩
  obtain ⟨hfragments, merged, p, parts', hmerge, hp, -, hparts', hjobs', hannotated'⟩ :=
    merged_blocks_eq_separate_blocks (toOption_eq_some.mp hfiles) hone hindependent hdecode
  cases (toOption_eq_some.mp hparts).symm.trans hparts'
  exact ⟨files, merged, p, hfragments, hmerge, hp, hjobs'.trans hjobs,
    hannotated'.trans hannotated⟩

end PipelineScripts.Script
