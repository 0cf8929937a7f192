import PipelineScripts.Proofs.CopiedScope

/-!
# Jobs of copies

A document that stands in another file under other numbers has the same jobs there, with the same
sections in the same order, and each section has the same scripts.
-/
namespace PipelineScripts.Script

open Yaml

/-- A draft of a file whose nodes got other numbers, and whose sources were put behind `source`
others. -/
def Draft.renamed (φ : NodeId → NodeId) (source : Nat) (d : Draft) : Draft :=
  { d with entry := φ d.entry, fragments := d.fragments.map (Fragment.moved source) }

/-- A block of a file whose nodes got other numbers. -/
def Block.renamed (φ : NodeId → NodeId) (b : Block) : Block :=
  { b with entry := b.entry.map φ }

/-- The drafts of the jobs at some entries of the root mapping. -/
def sectionDrafts (s : Scope) (entries : List NodeId) : Except ExtractError (List Draft) :=
  concatResults
    (fun x => (entryFragments s x.1).map fun fragments => [⟨x.1, x.2.1, x.2.2, fragments⟩])
    (entries.flatMap (sectionsOf s))

/-- The jobs of a file are looked for in one of its documents. -/
theorem jobDrafts_eq {f : File} {root : NodeId} (h : jobRoot? f = some root) :
    jobDrafts f = AliasMap.build f root >>= fun m =>
      sectionDrafts ⟨f, root, m⟩ ((Scope.mappingEntries? ⟨f, root, m⟩ root).getD []) := by
  unfold jobDrafts
  rw [h]
  rfl

theorem mem_documents_of_jobRoot? {f : File} {root : NodeId} (h : jobRoot? f = some root) :
    some root ∈ f.documents := by
  obtain ⟨i, -, h⟩ := Option.bind_eq_some_iff.mp h
  obtain ⟨document, hdocument, rfl⟩ := Option.bind_eq_some_iff.mp h
  exact List.mem_of_getElem? hdocument

namespace Scope

namespace Copies

variable {s S : Scope} {φ : NodeId → NodeId} {source : Nat} {T : Set NodeId} {id : NodeId}

/-! ### Sections of jobs -/

theorem isSection (h : s.Copies S φ source T) (hid : id ∈ T) :
    isSection S.file (φ id) = isSection s.file id := by
  rw [Script.isSection, Script.isSection, h.entryKey? hid]

theorem filter_isSection (h : s.Copies S φ source T) {ids : List NodeId} (hids : ∀ x ∈ ids, x ∈ T) :
    (ids.map φ).filter (Script.isSection S.file) =
      (ids.filter (Script.isSection s.file)).map φ := by
  rw [List.filter_map]
  congr 1
  exact List.filter_congr fun x hx => h.isSection (hids x hx)

theorem mergeSources (h : s.Copies S φ source T) (hid : id ∈ T) :
    mergeSources S (φ id) = (mergeSources s id).map φ := by
  unfold Script.mergeSources
  dsimp only
  rw [h.unwrap hid, h.kind? (h.unwrap_mem hid)]
  cases s.file.kind? (s.unwrap id) with
  | none => rfl
  | some k => cases k <;> rfl

theorem mergedSections (h : s.Copies S φ source T) (hid : id ∈ T) :
    mergedSections S (φ id) = (mergedSections s id).map φ := by
  unfold Script.mergedSections
  rw [h.kind? hid, h.entryKey? hid]
  cases hk : s.file.kind? id with
  | none => rfl
  | some k =>
    cases k with
    | entry key value comments =>
      have hvalue : value ∈ T := h.child_mem_of_kind? hid hk (by simp [NodeKind.children])
      simp only [Option.map_some, NodeKind.mapChildren]
      split_ifs
      · rw [h.mergeSources hvalue, List.flatMap_map, List.map_flatMap]
        refine List.flatMap_congr fun x hx => ?_
        have hmem := h.encloses.mem hvalue (steps_of_mem_mergeSources hx)
        rw [h.getD_mappingEntries? hmem]
        exact h.filter_isSection fun y hy =>
          h.encloses.mem hmem (steps_of_mem_getD_mappingEntries? hy)
      · rfl
    | scalar _ _ | block _ _ _ | sequence _ _ | mapping _ | tagged _ _ | anchor _ _ | aliasOf _ =>
      rfl

theorem addMissing (h : s.Copies S φ source T) {ids : List NodeId} (hids : ∀ x ∈ ids, x ∈ T)
    (hid : id ∈ T) :
    addMissing S.file (ids.map φ) (φ id) = (addMissing s.file ids id).map φ := by
  have hall : ((ids.map φ).all fun e => S.file.entryKey? e != S.file.entryKey? (φ id)) =
      ids.all fun e => s.file.entryKey? e != s.file.entryKey? id := by
    rw [List.all_map, h.entryKey? hid, Bool.eq_iff_iff, List.all_eq_true, List.all_eq_true]
    refine forall₂_congr fun x hx => ?_
    simp only [Function.comp_apply, h.entryKey? (hids x hx)]
  unfold Script.addMissing
  rw [hall]
  split_ifs
  · rw [List.map_append, List.map_singleton]
  · rfl

theorem foldl_addMissing (h : s.Copies S φ source T) {ids more : List NodeId}
    (hids : ∀ x ∈ ids, x ∈ T) (hmore : ∀ x ∈ more, x ∈ T) :
    (more.map φ).foldl (Script.addMissing S.file) (ids.map φ) =
      (more.foldl (Script.addMissing s.file) ids).map φ := by
  induction more generalizing ids with
  | nil => rfl
  | cons x rest ih =>
    rw [List.map_cons, List.foldl_cons, List.foldl_cons,
      h.addMissing hids (hmore x List.mem_cons_self)]
    refine ih (fun y hy => ?_) fun y hy => hmore y (List.mem_cons_of_mem x hy)
    rcases mem_addMissing hy with hy | rfl
    · exact hids y hy
    · exact hmore y List.mem_cons_self

/-- A job has the same sections. -/
theorem jobSections (h : s.Copies S φ source T) {ids : List NodeId} (hids : ∀ x ∈ ids, x ∈ T) :
    jobSections S (ids.map φ) = (jobSections s ids).map φ := by
  have hmore : (ids.map φ).flatMap (Script.mergedSections S) =
      (ids.flatMap (Script.mergedSections s)).map φ := by
    rw [List.flatMap_map, List.map_flatMap]
    exact List.flatMap_congr fun x hx => h.mergedSections (hids x hx)
  rw [Script.jobSections, Script.jobSections, hmore, h.filter_isSection hids]
  refine h.foldl_addMissing (fun x hx => hids x (List.mem_filter.mp hx).1) fun x hx => ?_
  obtain ⟨entry, hentry, hx⟩ := List.mem_flatMap.mp hx
  exact h.encloses.mem (hids entry hentry) (steps_of_mem_mergedSections hx)

theorem sectionsOf (h : s.Copies S φ source T) (hid : id ∈ T) :
    sectionsOf S (φ id) = (sectionsOf s id).map fun x => (φ x.1, x.2) := by
  unfold Script.sectionsOf
  rw [h.kind? hid, h.entryKey? hid]
  cases hk : s.file.kind? id with
  | none => rfl
  | some k =>
    cases k with
    | entry key value comments =>
      have hvalue : value ∈ T := h.child_mem_of_kind? hid hk (by simp [NodeKind.children])
      cases s.file.entryKey? id with
      | none => rfl
      | some job =>
        simp only [Option.map_some, NodeKind.mapChildren, h.mappingEntries? hvalue]
        split_ifs
        · cases hentries : s.mappingEntries? value with
          | none => rfl
          | some entries =>
            have hmem : ∀ x ∈ entries, x ∈ T := fun x hx =>
              h.mem_of_mem_mappingEntries? hvalue hentries hx
            simp only [Option.map_some, h.jobSections hmem]
            rw [List.zipIdx_map, List.filterMap_map, List.map_filterMap]
            refine List.filterMap_congr fun x hx => ?_
            obtain ⟨entry, hentry, hsteps⟩ :=
              steps_of_mem_jobSections (List.fst_mem_of_mem_zipIdx hx)
            have hx := h.encloses.mem (hmem entry hentry) hsteps
            simp only [Function.comp_apply, Prod.map_fst, Prod.map_snd, h.entryKey? hx]
            cases s.file.entryKey? x.1 <;> rfl
        · rfl
    | scalar _ _ | block _ _ _ | sequence _ _ | mapping _ | tagged _ _ | anchor _ _ | aliasOf _ =>
      cases s.file.entryKey? id <;> rfl

theorem mem_of_mem_sectionDrafts (h : s.Copies S φ source T) {entries : List NodeId}
    (hentries : ∀ entry ∈ entries, entry ∈ T) {drafts : List Draft}
    (hdrafts : sectionDrafts s entries = .ok drafts) {d : Draft} (hd : d ∈ drafts) :
    d.entry ∈ T := by
  obtain ⟨x, hx, part, hpart, hd⟩ := exists_of_mem_concatResults hdrafts hd
  obtain ⟨fragments, -, rfl⟩ := map_eq_ok.mp hpart
  obtain ⟨entry, hentry, hx⟩ := List.mem_flatMap.mp hx
  rw [List.mem_singleton.mp hd]
  exact h.encloses.mem (hentries entry hentry) (steps_of_mem_sectionsOf hx)

/-! ### Blocks -/

/-- A fragment makes the same block. -/
theorem block (h : s.Copies S φ source T) {d : Draft} (hentry : d.entry ∈ T) {x : Fragment}
    (hx : S.file.sourceName (x.source + source) = s.file.sourceName x.source)
    (shell name : String) :
    (d.renamed φ source).block S.file shell (x.moved source) name =
      (d.block s.file shell x name).renamed φ := by
  have hdirective : (d.renamed φ source).directive? S.file = d.directive? s.file := by
    rw [Draft.directive?, Draft.renamed, h.entryComments hentry, Draft.directive?]
  have hpath : (d.renamed φ source).path S.file = d.path s.file := by
    unfold Draft.path Draft.renamed
    dsimp only
    rw [h.kind? hentry]
    cases hk : s.file.kind? d.entry with
    | none => rfl
    | some k =>
      cases k with
      | entry key value comments =>
        exact h.path (h.child_mem_of_kind? hentry hk (by simp [NodeKind.children]))
      | scalar _ _ | block _ _ _ | sequence _ _ | mapping _ | tagged _ _ | anchor _ _
      | aliasOf _ => rfl
  unfold Draft.block
  rw [hdirective, hpath, Fragment.moved, hx]
  rfl

/-- A draft makes the same blocks, with the same names. -/
theorem blocks (h : s.Copies S φ source T)
    (hsources : ∀ i, S.file.sourceName (i + source) = s.file.sourceName i) (shell : String)
    (names : BlockNames) {d : Draft} (hentry : d.entry ∈ T) :
    (d.renamed φ source).blocks S.file shell names =
      ((d.blocks s.file shell names).1.map (Block.renamed φ), (d.blocks s.file shell names).2) := by
  have hrequests : (d.renamed φ source).requests = d.requests := by
    simp [Draft.requests, Draft.renamed, List.zipIdx_map]
  have hfragments : (d.renamed φ source).fragments =
    d.fragments.map (Fragment.moved source) := rfl
  unfold Draft.blocks
  rw [hrequests, hfragments]
  simp only [List.zipWith_map_left, List.map_zipWith, h.block hentry (hsources _)]

theorem blocksOfAll (h : s.Copies S φ source T)
    (hsources : ∀ i, S.file.sourceName (i + source) = s.file.sourceName i) (shell : String)
    (names : BlockNames) {drafts : List Draft} (hdrafts : ∀ d ∈ drafts, d.entry ∈ T) :
    Draft.blocksOfAll S.file shell names (drafts.map (Draft.renamed φ source)) =
      ((Draft.blocksOfAll s.file shell names drafts).1.map (Block.renamed φ),
        (Draft.blocksOfAll s.file shell names drafts).2) := by
  induction drafts generalizing names with
  | nil => rfl
  | cons d rest ih =>
    rw [List.map_cons, Draft.blocksOfAll, h.blocks hsources shell names (hdrafts d (by simp))]
    dsimp only
    rw [ih _ fun x hx => hdrafts x (List.mem_cons_of_mem d hx), Draft.blocksOfAll]
    simp only [List.map_append]

end Copies

namespace Mirrors

variable {s S : Scope} {φ : NodeId → NodeId} {source : Nat} {T : Set NodeId} {id : NodeId}

/-! ### Drafts -/

theorem entryFragments (h : s.Mirrors S φ source T) (hid : id ∈ T) :
    entryFragments S (φ id) = (entryFragments s id).map (List.map (Fragment.moved source)) := by
  unfold Script.entryFragments
  rw [h.kind? hid]
  cases hk : s.file.kind? id with
  | none => rfl
  | some k =>
    cases k with
    | entry key value comments =>
      exact h.expand (h.child_mem_of_kind? hid hk (by simp [NodeKind.children]))
    | scalar _ _ | block _ _ _ | sequence _ _ | mapping _ | tagged _ _ | anchor _ _ | aliasOf _ =>
      rfl

/-- The jobs at some entries have the same drafts. -/
theorem sectionDrafts (h : s.Mirrors S φ source T) {entries : List NodeId}
    (hentries : ∀ entry ∈ entries, entry ∈ T) :
    sectionDrafts S (entries.map φ) =
      (sectionDrafts s entries).map (List.map (Draft.renamed φ source)) := by
  have hsections : (entries.map φ).flatMap (Script.sectionsOf S) =
      (entries.flatMap (Script.sectionsOf s)).map fun x => (φ x.1, x.2) := by
    rw [List.flatMap_map, List.map_flatMap]
    exact List.flatMap_congr fun x hx => h.sectionsOf (hentries x hx)
  unfold Script.sectionDrafts
  rw [hsections]
  refine concatResults_map_of_map fun x hx => ?_
  obtain ⟨entry, hentry, hx⟩ := List.mem_flatMap.mp hx
  rw [h.entryFragments (h.encloses.mem (hentries entry hentry) (steps_of_mem_sectionsOf hx))]
  cases Script.entryFragments s x.1 <;> rfl

end Mirrors

end Scope

end PipelineScripts.Script
