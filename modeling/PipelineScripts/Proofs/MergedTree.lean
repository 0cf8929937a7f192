import Mathlib.Data.List.Pairwise
import PipelineScripts.Proofs.Passes

/-!
# The tree of a merged file

Files with one mapping each are merged into a file with one mapping. Its entries are those of all
files, and the nodes below them stand where their file was placed.
-/
namespace PipelineScripts.Yaml.File

/-- A node of a merged file comes from one file only. -/
theorem eq_of_mem_places {f : File} {files : List File} {p q : Placed} (hp : p ∈ f.places files)
    (hq : q ∈ f.places files) {x y : Nat} (hx : x < p.file.nodes.size)
    (hy : y < q.file.nodes.size) (h : x + p.offset = y + q.offset) : p = q := by
  by_contra hne
  let apart (p q : Placed) : Prop :=
    p.offset + p.file.nodes.size ≤ q.offset ∨ q.offset + q.file.nodes.size ≤ p.offset
  have hsymm : Std.Symm apart := ⟨fun _ _ hpq => hpq.symm⟩
  have hall := (pairwise_places f files).imp (S := apart) .inl
  rcases hall.forall hp hq hne with hle | hle
  · omega
  · omega

/-- The nodes of merged files are from their sources. -/
theorem isSourced_mergedFile {files : List File} (hfiles : ∀ g ∈ files, Script.IsSourced g) :
    Script.IsSourced (mergedFile files) := by
  have hempty : Script.IsSourced emptyMerge := shaped_emptyMerge.source_lt
  have hgathered : Script.IsSourced (gathered files) :=
    appendAll_induct (fun f g (hf : Script.IsSourced f) (hg : Script.IsSourced g) =>
      source_lt_append hf hg) hempty hfiles
  intro id n hn
  obtain ⟨m, hm, hsource⟩ := exists_source_of_joinRoots hn
  rw [hsource, mergedFile, sources_joinRoots]
  exact hgathered hm

section Merged

variable {files : List File}

theorem mem_roots_mergedFile {root : NodeId} : root ∈ (mergedFile files).roots ↔
    ∃ others, (gathered files).roots = root :: others := by
  rw [← List.head?_eq_some_iff, roots, mergedFile]
  simp [eq_comm]

theorem size_mergedFile : (mergedFile files).nodes.size = (gathered files).nodes.size :=
  size_joinRoots (gathered files) (gathered files).roots

theorem sourceName_mergedFile {p : Placed} (hp : p ∈ emptyMerge.places files) {i : Nat}
    (hi : i < p.file.sources.length) :
    (mergedFile files).sourceName (i + p.source) = p.file.sourceName i := by
  have hsources : (mergedFile files).sources = (gathered files).sources := by
    rw [mergedFile, sources_joinRoots]
  obtain ⟨name, hname⟩ : ∃ name, p.file.sources[i]? = some name :=
    ⟨_, List.getElem?_eq_getElem hi⟩
  rw [sourceName, hsources, gathered, sources_of_mem_places hp hi, sourceName, hname]
  rfl

end Merged

/-- The entries at the root of a file, where it was placed. -/
def Placed.rootEntries (p : Placed) : List NodeId :=
  p.file.roots.flatMap fun r => (p.file.rootEntries r).map (· + p.offset)

/-- Something made of the entries at each root is made file by file. -/
theorem flatMap_roots_gathered {files : List File} (hfiles : ∀ g ∈ files, g.Separated) {α : Type}
    (g : NodeId → List α) :
    ((gathered files).roots.flatMap fun root => ((gathered files).rootEntries root).flatMap g) =
      (emptyMerge.places files).flatMap fun p => p.file.roots.flatMap fun r =>
        (p.file.rootEntries r).flatMap fun entry => g (entry + p.offset) := by
  rw [roots_gathered, List.flatMap_assoc]
  refine List.flatMap_congr fun p hp => ?_
  rw [List.flatMap_map]
  refine List.flatMap_congr fun r hr => ?_
  have hf := hfiles p.file (file_mem_of_mem_places hp)
  rw [gathered, (embedsAt_of_mem_places hp).rootEntries (separated_gathered hfiles) hf
    (hf.root_lt r hr), List.flatMap_map]

/-- The entries of all roots. -/
theorem entries_gathered {files : List File} (hfiles : ∀ g ∈ files, g.Separated) :
    (gathered files).roots.flatMap (gathered files).rootEntries =
      (emptyMerge.places files).flatMap Placed.rootEntries := by
  have hentries := flatMap_roots_gathered hfiles fun entry => [entry]
  simp only [List.flatMap_singleton', ← List.map_eq_flatMap] at hentries
  exact hentries

/-- Files that were read, each with one mapping. -/
structure OneMappingEach (files : List File) : Prop where
  shaped : ∀ f ∈ files, f.Shaped
  one : ∀ f ∈ files, f.OneMapping

namespace OneMappingEach

variable {files : List File} {p : Placed}

theorem separated (h : OneMappingEach files) : ∀ f ∈ files, f.Separated :=
  fun f hf => (h.shaped f hf).separated

theorem shaped_place (h : OneMappingEach files) (hp : p ∈ emptyMerge.places files) :
    p.file.Shaped := h.shaped p.file (file_mem_of_mem_places hp)

theorem one_place (h : OneMappingEach files) (hp : p ∈ emptyMerge.places files) :
    p.file.OneMapping := h.one p.file (file_mem_of_mem_places hp)

/-! ### The files one behind the other -/

theorem kind?_gathered_root (h : OneMappingEach files) {root : NodeId}
    (hroot : root ∈ (gathered files).roots) :
    (gathered files).kind? root = some (.mapping ((gathered files).rootEntries root)) := by
  obtain ⟨p, hp, r, hr, rfl⟩ := mem_roots_gathered.mp hroot
  have hk := (embedsAt_of_mem_places hp).kind? ((h.shaped_place hp).root_lt r hr)
  rw [(h.one_place hp).kind? hr] at hk
  rw [gathered, rootEntries_of_mapping hk]
  exact hk

theorem belowRoots_gathered (h : OneMappingEach files) :
    (gathered files).belowRoots =
      (emptyMerge.places files).flatMap fun p => p.file.belowRoots.map (· + p.offset) := by
  unfold belowRoots
  rw [flatMap_roots_gathered h.separated]
  refine List.flatMap_congr fun p hp => ?_
  have hf := h.shaped_place hp
  rw [List.map_flatMap]
  refine List.flatMap_congr fun r _ => ?_
  rw [List.map_flatMap]
  refine List.flatMap_congr fun entry hentry => ?_
  exact (embedsAt_of_mem_places hp).preorder (separated_gathered h.separated) hf.separated
    (hf.closed (below_of_mem_rootEntries hentry))

/-! ### The merged file -/

theorem merge_eq (h : OneMappingEach files) : merge files = .ok (mergedFile files) := by
  refine (merge_eq_ok h.shaped).mpr ⟨(joinable_gathered_iff h.separated).mpr (.inr ?_), rfl⟩
  intro f hf root hroot
  obtain ⟨entries, hk⟩ := (h.one f hf).mapping root hroot
  exact ⟨entries, by rw [behindAnchors_of_mapping hk, hk]⟩

theorem extendedBy_mergedFile (h : OneMappingEach files) {first : NodeId} {others : List NodeId}
    (hroots : (gathered files).roots = first :: others) :
    (gathered files).ExtendedBy (mergedFile files) first ((gathered files).rootEntries first)
      (others.flatMap (gathered files).rootEntries) := by
  have hk := h.kind?_gathered_root (hroots ▸ List.mem_cons_self)
  have hbehind := behindAnchors_of_mapping hk
  have hext := extendedBy_joinRoots (g := mergedFile files) (separated_gathered h.separated) hroots
    (hbehind.symm ▸ hk) rfl
  rwa [hbehind] at hext

/-- Only the first root was written anew. -/
theorem node?_mergedFile (h : OneMappingEach files) {id : Nat}
    (hid : id ∉ (mergedFile files).roots) :
    (mergedFile files).node? id = (gathered files).node? id := by
  refine node?_joinRoots_of_ne fun first hfirst => ?_
  obtain ⟨others, hroots⟩ := List.head?_eq_some_iff.mp hfirst
  have hk := h.kind?_gathered_root (hroots ▸ List.mem_cons_self)
  rw [behindAnchors_of_mapping hk]
  rintro rfl
  exact hid (mem_roots_mergedFile.mpr ⟨others, hroots⟩)

/-- The root of a merged file has the entries of all files, in their order. -/
theorem kind?_mergedFile_root (h : OneMappingEach files) {root : NodeId}
    (hroot : root ∈ (mergedFile files).roots) : (mergedFile files).kind? root =
      some (.mapping ((emptyMerge.places files).flatMap Placed.rootEntries)) := by
  obtain ⟨others, hroots⟩ := mem_roots_mergedFile.mp hroot
  rw [(h.extendedBy_mergedFile hroots).after, ← entries_gathered h.separated, hroots,
    List.flatMap_cons]

theorem oneMapping_mergedFile (h : OneMappingEach files) : (mergedFile files).OneMapping where
  single := le_refl 1
  mapping := fun _ hroot => ⟨_, h.kind?_mergedFile_root hroot⟩

/-- The merged file is a tree, as the files are. -/
theorem acyclic_and_closed_mergedFile (h : OneMappingEach files) :
    (mergedFile files).Acyclic ∧ (mergedFile files).Closed := by
  have hjoin := ((merge_eq_ok h.shaped).mp h.merge_eq).1
  exact acyclic_and_closed_joinRoots (separated_gathered h.separated) hjoin rfl

/-- The nodes below the root are those below the roots of all files, in their order. -/
theorem belowRoots_mergedFile (h : OneMappingEach files) : (mergedFile files).belowRoots =
    (emptyMerge.places files).flatMap fun p => p.file.belowRoots.map (· + p.offset) := by
  have hA := separated_gathered h.separated
  rw [← h.belowRoots_gathered]
  cases hroots : (gathered files).roots with
  | nil =>
    have hnone : (mergedFile files).roots = [] := by
      show [(gathered files).roots.head?].filterMap id = []
      rw [hroots]
      rfl
    rw [belowRoots, belowRoots, hnone, hroots]
    rfl
  | cons first others =>
    obtain ⟨hacyclic, hclosed⟩ := h.acyclic_and_closed_mergedFile
    have hroot := mem_roots_mergedFile.mpr ⟨others, hroots⟩
    have hk := h.kind?_gathered_root (hroots ▸ List.mem_cons_self)
    have hself := (h.extendedBy_mergedFile hroots).preorder_self hA.acyclic hA.closed
    rw [h.oneMapping_mergedFile.preorder_root hacyclic hclosed hroot,
      preorder_eq hA.acyclic hA.closed (lt_size_of_kind? hk), children_of_kind? hk] at hself
    rw [(List.cons.inj hself).2, belowRoots, hroots, List.flatMap_cons, List.flatMap_assoc]
    rfl

/-! ### Each file in the merged one -/

/-- The nodes below the root of a file are found where the file was placed. -/
theorem carriesTree (h : OneMappingEach files) (hp : p ∈ emptyMerge.places files) {r : NodeId}
    (hr : r ∈ p.file.roots) : p.file.CarriesTree (mergedFile files) r p.offset p.source := by
  have hf := h.shaped_place hp
  have hlt := hf.root_lt r hr
  have hembeds := embedsAt_of_mem_places hp
  refine ⟨hf, hlt, ?_, fun id hid => ?_⟩
  · have hlast : p.file.nodes.size - 1 < p.file.nodes.size := by omega
    have hsize := hembeds.lt_size hlast
    rw [size_mergedFile, gathered]
    omega
  · rw [← hembeds id (Nat.lt_trans hid hlt)]
    refine h.node?_mergedFile fun hroot => ?_
    obtain ⟨others, hroots⟩ := mem_roots_mergedFile.mp hroot
    obtain ⟨q, hq, r', hr', heq⟩ := mem_roots_gathered.mp (hroots ▸ List.mem_cons_self)
    -- The root of the merged file would be that of this file.
    cases eq_of_mem_places hp hq (Nat.lt_trans hid hlt) ((h.shaped_place hq).root_lt r' hr') heq
    rw [(h.one_place hp).roots_eq hr, List.mem_singleton] at hr'
    exact Nat.ne_of_lt hid ((Nat.add_right_cancel heq).trans hr')

theorem copies (h : OneMappingEach files) (hp : p ∈ emptyMerge.places files) {r : NodeId}
    (hr : r ∈ p.file.roots) :
    p.file.CopiesNodes (mergedFile files) (· + p.offset) p.source {id : Nat | id < r} :=
  (h.carriesTree hp hr).copies h.acyclic_and_closed_mergedFile.1

end OneMappingEach

end PipelineScripts.Yaml.File
