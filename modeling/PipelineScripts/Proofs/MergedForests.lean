import PipelineScripts.Proofs.Forests

/-!
# What merging keeps

Files whose documents are trees are merged into a file of the same kind. It has all their nodes, and
the trees of the entries at all roots are found in it under other numbers, each node with its kind,
its position, its path and the name of its source.
-/
namespace PipelineScripts.Yaml.File

open Relation

/-- No number stands for a node that is missing, no node stands below itself, none is met twice on
the way through all documents, and each is from one of the sources. -/
structure WellFormed (f : File) : Prop where
  acyclic : f.Acyclic
  closed : f.Closed
  root_lt : ∀ root : Nat, root ∈ f.roots → root < f.nodes.size
  sourced : Script.IsSourced f
  nodup : (f.roots.flatMap f.preorder).Nodup

theorem WellFormed.separated {f : File} (hf : f.WellFormed) : f.Separated :=
  separated_of_nodup hf.acyclic hf.closed hf.root_lt hf.nodup

/-! ### Roots -/

theorem rootEntries_joinRoots {f : File} {first : NodeId} {others : List NodeId}
    (hjoin : f.Joinable (first :: others)) :
    (f.joinRoots (first :: others)).rootEntries first =
      (first :: others).flatMap f.rootEntries := by
  cases others with
  | nil => simp [joinRoots]
  | cons second rest =>
    obtain ⟨entries, hentries⟩ := (hjoin first rfl second List.mem_cons_self).1
    have hfirst : f.rootEntries first = entries := by rw [rootEntries, hentries]
    conv_rhs => rw [List.flatMap_cons, hfirst]
    rw [joinRoots, rootEntries, behindAnchors_extendMapping, kind?_extendMapping_self, hentries]
    rfl

/-- Below the entries at a root there is nothing that joining writes anew. -/
theorem Separated.ne_behindAnchors {f : File} (hf : f.Separated) {first root entry x : NodeId}
    (hfirst : first ∈ f.roots.head?) (hroot : root ∈ f.roots) (hentry : entry ∈ f.rootEntries root)
    (hx : ReflTransGen f.Below entry x) : x ≠ f.behindAnchors first := by
  rintro rfl
  obtain ⟨others, hroots⟩ := List.head?_eq_some_iff.mp hfirst
  have hapart := hf.apart
  rw [hroots] at hroot hapart
  -- The mapping would stand below itself, or in the trees of two roots.
  rcases List.mem_cons.mp hroot with rfl | hroot
  · exact hf.acyclic _ (.head' (below_of_mem_rootEntries hentry) hx)
  · exact (List.pairwise_cons.mp hapart).1 root hroot _ (f.below_behindAnchors first)
      ((reach_of_mem_rootEntries hentry).trans hx)

/-! ### Merged files -/

section Merged

variable {files : List File}

theorem rootEntries_mergedFile (hfiles : ∀ g ∈ files, g.Separated)
    (hjoin : (gathered files).Joinable (gathered files).roots) {root : NodeId}
    (hroot : root ∈ (mergedFile files).roots) :
    (mergedFile files).rootEntries root =
      (emptyMerge.places files).flatMap Placed.rootEntries := by
  obtain ⟨others, hroots⟩ := mem_roots_mergedFile.mp hroot
  have hsame : (mergedFile files).withoutDocuments =
      ((gathered files).joinRoots (gathered files).roots).withoutDocuments := rfl
  rw [← entries_gathered hfiles, ← rootEntries_withoutDocuments, hsame,
    rootEntries_withoutDocuments, hroots, rootEntries_joinRoots (hroots ▸ hjoin)]

/-- The trees below the entries at all roots are found where their file was placed. -/
theorem copies_mergedFile (hfiles : ∀ g ∈ files, g.Separated)
    (hjoin : (gathered files).Joinable (gathered files).roots) {p : Placed}
    (hp : p ∈ emptyMerge.places files) {root entry : NodeId} (hroot : root ∈ p.file.roots)
    (hentry : entry ∈ p.file.rootEntries root) :
    p.file.CopiesNodes (mergedFile files) (· + p.offset) p.source
      {x | ReflTransGen p.file.Below entry x} where
  acyclic := (hfiles p.file (file_mem_of_mem_places hp)).acyclic
  acyclic_copy := (acyclic_and_closed_joinRoots (separated_gathered hfiles) hjoin rfl).1
  child_mem := fun hx hbelow => ReflTransGen.tail hx hbelow
  node := by
    intro x hx
    have hA := separated_gathered hfiles
    have hg := hfiles p.file (file_mem_of_mem_places hp)
    have hembeds : p.file.EmbedsAt (gathered files) p.offset p.source := embedsAt_of_mem_places hp
    have hlt : x < p.file.nodes.size :=
      lt_size_of_reach hg.closed (hg.closed (below_of_mem_rootEntries hentry)) hx
    have hroot' : root + p.offset ∈ (gathered files).roots :=
      mem_roots_gathered.mpr ⟨p, hp, root, hroot, rfl⟩
    have hentry' : entry + p.offset ∈ (gathered files).rootEntries (root + p.offset) := by
      rw [hembeds.rootEntries hA hg (hg.root_lt root hroot)]
      exact List.mem_map_of_mem hentry
    have hsame : (mergedFile files).node? (x + p.offset) = (gathered files).node? (x + p.offset) :=
      node?_joinRoots_of_ne fun first hfirst =>
        hA.ne_behindAnchors hfirst hroot' hentry' (hembeds.reach hx)
    exact hsame.trans (hembeds x hlt)

theorem wellFormed_mergedFile (hfiles : ∀ g ∈ files, g.WellFormed)
    (hjoin : (gathered files).Joinable (gathered files).roots) : (mergedFile files).WellFormed := by
  have hseparated : ∀ g ∈ files, g.Separated := fun g hg => (hfiles g hg).separated
  obtain ⟨hacyclic, hclosed⟩ :=
    acyclic_and_closed_joinRoots (g := mergedFile files) (separated_gathered hseparated) hjoin rfl
  exact ⟨hacyclic, hclosed, root_lt_mergedFile hseparated,
    isSourced_mergedFile fun g hg => (hfiles g hg).sourced,
    nodup_mergedFile hseparated (fun g hg => (hfiles g hg).nodup) hjoin⟩

end Merged

/-- Every file from the reader is well-formed. -/
theorem FromReader.wellFormed {f : File} (h : f.FromReader) : f.WellFormed := by
  refine h.of_read_of_merge (fun h => ?_) fun hfiles h => ?_
  · have hf := shaped_of_read h
    exact ⟨hf.acyclic, hf.closed, hf.root_lt, hf.source_lt, nodup_of_read h⟩
  · obtain ⟨hjoin, rfl⟩ :=
      (merge_eq_ok_of_separated fun g hg => (hfiles g hg).separated).mp h
    exact wellFormed_mergedFile hfiles hjoin

/-! ### The same trees -/

/-- The tree below a node stands in another file under numbers that are greater by `offset`, with
the same shape, and with the same kind, position, path and source name at each node. -/
structure KeepsTree (g f : File) (offset : Nat) (id : NodeId) : Prop where
  preorder : f.preorder (id + offset) = (g.preorder id).map (· + offset)
  node : ∀ x ∈ g.preorder id, ∃ n m, g.node? x = some n ∧ f.node? (x + offset) = some m ∧
    m.kind = n.kind.mapChildren (· + offset) ∧ m.position = n.position ∧ m.path = n.path ∧
    f.sourceName m.source = g.sourceName n.source

/-- The files can be merged just if they have one root at most or all their roots are those of
mappings. The merged file is well-formed, too. It has all nodes, and a single document, whose root
is the first of all. The entries there are those of all roots, in their order, and the trees below
them are the same as before. -/
theorem merge_keeps_trees {files : List File} (hfiles : ∀ g ∈ files, g.WellFormed) :
    ((∃ f, merge files = .ok f) ↔ (files.flatMap (·.roots)).length ≤ 1 ∨
      ∀ g ∈ files, ∀ root ∈ g.roots, g.HasMapping root) ∧
    ∀ f, merge files = .ok f →
      f.WellFormed ∧ f.nodes.size = totalSize files ∧
      f.documents = [((emptyMerge.places files).flatMap fun p =>
        p.file.roots.map (· + p.offset)).head?] ∧
      (∀ root ∈ f.roots,
        f.rootEntries root = (emptyMerge.places files).flatMap Placed.rootEntries) ∧
      ∀ p ∈ emptyMerge.places files, ∀ root ∈ p.file.roots, ∀ entry ∈ p.file.rootEntries root,
        p.file.KeepsTree f p.offset entry := by
  have hseparated : ∀ g ∈ files, g.Separated := fun g hg => (hfiles g hg).separated
  refine ⟨?_, fun f hf => ?_⟩
  · simp only [merge_eq_ok_of_separated hseparated, exists_and_left, exists_eq, and_true]
    exact joinable_gathered_iff hseparated
  obtain ⟨hjoin, rfl⟩ := (merge_eq_ok_of_separated hseparated).mp hf
  have hwell := wellFormed_mergedFile hfiles hjoin
  refine ⟨hwell, ?_, ?_, fun root hroot => rootEntries_mergedFile hseparated hjoin hroot, ?_⟩
  · rw [size_mergedFile, gathered, size_appendAll]
    simp [emptyMerge]
  · rw [← roots_gathered]
    rfl
  · intro p hp root hroot entry hentry
    have hg := hfiles p.file (file_mem_of_mem_places hp)
    have hsize := hg.closed (below_of_mem_rootEntries hentry)
    have hcopies := copies_mergedFile hseparated hjoin hp hroot hentry
    refine ⟨hcopies.preorder hg.closed hwell.closed .refl hsize, fun x hx => ?_⟩
    have hreach := (mem_preorder_iff hg.acyclic hg.closed hsize).mp hx
    obtain ⟨n, hn⟩ : ∃ n, p.file.node? x = some n :=
      ⟨_, Array.getElem?_eq_getElem (lt_size_of_reach hg.closed hsize hreach)⟩
    refine ⟨n, n.moved p.offset p.source, hn, ?_, rfl, rfl, rfl, ?_⟩
    · rw [hcopies.node x hreach, hn]
      rfl
    · exact sourceName_mergedFile hp (hg.sourced hn)

/-- A pipeline with two documents, the first of them behind an anchor, and one with a single
document. -/
def splitPipeline : List (String × String) :=
  [("a.yml", "&root\n.base: &x\n  - one\n---\nbuild:\n  script: *x\n"),
    ("b.yml", "test: [two]\n")]

theorem splitPipeline_kept :
    ∃ files f, splitPipeline.mapM (fun i => File.parseFragment i.1 i.2) = .ok files ∧
      merge files = .ok f ∧ f.documents = [some 5] ∧ f.rootEntries 5 = [4, 11, 16] ∧
      f.WellFormed ∧ ∀ p ∈ emptyMerge.places files, ∀ root ∈ p.file.roots,
        ∀ entry ∈ p.file.rootEntries root, p.file.KeepsTree f p.offset entry := by
  have hrun : ((splitPipeline.mapM fun i => File.parseFragment i.1 i.2).toOption.bind fun files =>
      (merge files).toOption.map fun f => (f.documents, f.rootEntries 5)) =
      some ([some 5], [4, 11, 16]) := by
    decide +kernel
  obtain ⟨files, hfiles, hrun⟩ := Option.bind_eq_some_iff.mp hrun
  obtain ⟨f, hmerge, hentries⟩ := Option.map_eq_some_iff.mp hrun
  have hinputs := toOption_eq_some.mp hfiles
  have hwell : ∀ g ∈ files, g.WellFormed := fun g hg =>
    (FromReader.of_fragments hinputs g hg).wellFormed
  obtain ⟨hmerged, -, -, -, hkept⟩ :=
    (merge_keeps_trees hwell).2 f (toOption_eq_some.mp hmerge)
  exact ⟨files, f, hinputs, toOption_eq_some.mp hmerge, (Prod.mk.inj hentries).1,
    (Prod.mk.inj hentries).2, hmerged, hkept⟩

end PipelineScripts.Yaml.File
