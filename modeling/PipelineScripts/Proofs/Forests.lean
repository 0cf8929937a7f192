import Mathlib.Algebra.Group.Nat.Defs
import Mathlib.Data.List.Nodup
import PipelineScripts.Proofs.DistinctNodes
import PipelineScripts.Proofs.MergedTree
import PipelineScripts.Proofs.ReadFiles

/-!
# Forests

Whatever file comes from the reader, each of its documents is a tree: no node is met twice on a walk
through it. Files that are merged keep their nodes apart, and the entries of all roots but the first
stand below the first instead of their own root.
-/
namespace PipelineScripts.Yaml.File

/-- What holds of every file from the reader. -/
structure Forest (f : File) : Prop where
  acyclic : f.Acyclic
  closed : f.Closed
  anchored : f.BareAnchors
  root_lt : ∀ root : Nat, root ∈ f.roots → root < f.nodes.size
  nodup : (f.roots.flatMap f.preorder).Nodup

theorem Shaped.forest {f : File} (hf : f.Shaped) (hnodup : (f.roots.flatMap f.preorder).Nodup) :
    f.Forest where
  acyclic := hf.acyclic
  closed := hf.closed
  anchored := hf.anchored
  root_lt := hf.root_lt
  nodup := hnodup

/-- Trees that have their nodes once have no node in common. -/
theorem eq_of_mem_trees {f : File} {ids : List NodeId} (h : (ids.flatMap f.preorder).Nodup)
    {a b x : NodeId} (ha : a ∈ ids) (hb : b ∈ ids) (hxa : x ∈ f.preorder a)
    (hxb : x ∈ f.preorder b) : a = b := by
  by_contra hne
  let apart (a b : NodeId) : Prop := List.Disjoint (f.preorder a) (f.preorder b)
  have hsymm : Std.Symm apart := ⟨fun _ _ hab => hab.symm⟩
  have hall : ids.Pairwise apart := (List.nodup_flatMap.mp h).2
  exact hall.forall ha hb hne hxa hxb

/-- Trees that have their nodes once are apart. -/
theorem separated_of_nodup {f : File} (hacyclic : f.Acyclic) (hclosed : f.Closed)
    (hroots : ∀ root : Nat, root ∈ f.roots → root < f.nodes.size)
    (hnodup : (f.roots.flatMap f.preorder).Nodup) : f.Separated where
  acyclic := hacyclic
  closed := hclosed
  root_lt := hroots
  apart := by
    refine List.Pairwise.imp_of_mem (fun {a b} ha hb hab x hax hbx => ?_)
      (List.nodup_flatMap.mp hnodup).2
    exact hab ((mem_preorder_iff hacyclic hclosed (hroots a ha)).mpr hax)
      ((mem_preorder_iff hacyclic hclosed (hroots b hb)).mpr hbx)

namespace Forest

variable {f : File} {root id : NodeId}

theorem separated (hf : f.Forest) : f.Separated :=
  separated_of_nodup hf.acyclic hf.closed hf.root_lt hf.nodup

/-- The numbers of the nodes that are reached from a root. -/
theorem lt_size (hf : f.Forest) (hroot : root ∈ f.roots)
    (h : Relation.ReflTransGen f.Below root id) :
    id < f.nodes.size := lt_size_of_reach hf.closed (hf.root_lt root hroot) h

theorem nodup_preorder (hf : f.Forest) (hroot : root ∈ f.roots)
    (h : Relation.ReflTransGen f.Below root id) : (f.preorder id).Nodup :=
  ((List.nodup_flatMap.mp hf.nodup).1 root hroot).sublist (preorder_sublist hf.acyclic hf.closed h)

/-- The trees of a node's children have no node in common. -/
theorem child_unique (hf : f.Forest) (hnodup : (f.preorder root).Nodup) {a b x : NodeId}
    (ha : f.Below root a) (hb : f.Below root b) (hax : Relation.ReflTransGen f.Below a x)
    (hbx : Relation.ReflTransGen f.Below b x) : a = b := by
  rw [preorder_eq hf.acyclic hf.closed (lt_size_of_below ha)] at hnodup
  refine eq_of_mem_trees (x := x) (List.nodup_cons.mp hnodup).2 ha hb ?_ ?_
  · exact (mem_preorder_iff hf.acyclic hf.closed (hf.closed ha)).mpr hax
  · exact (mem_preorder_iff hf.acyclic hf.closed (hf.closed hb)).mpr hbx

/-- Trees of different roots have no node in common. -/
theorem root_unique (hf : f.Forest) {other x : NodeId} (hroot : root ∈ f.roots)
    (hother : other ∈ f.roots) (h : Relation.ReflTransGen f.Below root x)
    (h' : Relation.ReflTransGen f.Below other x) : root = other := by
  refine eq_of_mem_trees (x := x) hf.nodup hroot hother ?_ ?_
  · exact (mem_preorder_iff hf.acyclic hf.closed (hf.root_lt root hroot)).mpr h
  · exact (mem_preorder_iff hf.acyclic hf.closed (hf.root_lt other hother)).mpr h'

/-- No node of a tree stands directly below two others. -/
theorem parent_unique (hf : f.Forest) {a b x : NodeId} (hroot : root ∈ f.roots)
    (ha : Relation.ReflTransGen f.Below root a) (hb : Relation.ReflTransGen f.Below root b)
    (hax : f.Below a x) (hbx : f.Below b x) : a = b := by
  have hnodup := hf.nodup_preorder hroot .refl
  clear hroot
  induction ha using Relation.ReflTransGen.head_induction_on generalizing b with
  | refl =>
    rcases Relation.ReflTransGen.cases_head hb with rfl | ⟨child, hchild, hb⟩
    · rfl
    · -- The node would stand below itself.
      have hsame := hf.child_unique hnodup hax hchild .refl (hb.tail hbx)
      exact absurd (Relation.TransGen.tail' (hsame ▸ hb) hbx) (hf.acyclic x)
  | @head root child hchild ha ih =>
    rcases Relation.ReflTransGen.cases_head hb with rfl | ⟨child', hchild', hb⟩
    · have hsame := hf.child_unique hnodup hbx hchild .refl (ha.tail hax)
      exact absurd (Relation.TransGen.tail' (hsame ▸ ha) hax) (hf.acyclic x)
    · have hsame := hf.child_unique hnodup hchild hchild' (ha.tail hax) (hb.tail hbx)
      refine ih (hsame ▸ hb) hbx ?_
      exact hnodup.sublist (preorder_sublist hf.acyclic hf.closed (.single hchild))

end Forest

/-! ### Files one behind the other -/

theorem Separated.lt_size_of_mem {f : File} (hf : f.Separated) {x : Nat}
    (hx : x ∈ f.roots.flatMap f.preorder) : x < f.nodes.size := by
  obtain ⟨root, hroot, hx⟩ := List.mem_flatMap.mp hx
  have hlt := hf.root_lt root hroot
  exact lt_size_of_reach hf.closed hlt ((mem_preorder_iff hf.acyclic hf.closed hlt).mp hx)

/-- The nodes of a file have numbers of their own wherever they are placed. -/
theorem nodup_gathered {files : List File} (hfiles : ∀ g ∈ files, g.Separated)
    (hnodup : ∀ g ∈ files, (g.roots.flatMap g.preorder).Nodup) :
    ((gathered files).roots.flatMap (gathered files).preorder).Nodup := by
  have hnodes : (gathered files).roots.flatMap (gathered files).preorder =
      (emptyMerge.places files).flatMap fun p =>
        (p.file.roots.flatMap p.file.preorder).map (· + p.offset) := by
    rw [roots_gathered, List.flatMap_assoc]
    refine List.flatMap_congr fun p hp => ?_
    have hg := hfiles p.file (file_mem_of_mem_places hp)
    rw [List.flatMap_map, List.map_flatMap]
    refine List.flatMap_congr fun root hroot => ?_
    exact (embedsAt_of_mem_places hp).preorder (separated_gathered hfiles) hg
      (hg.root_lt root hroot)
  rw [hnodes, List.nodup_flatMap]
  constructor
  · intro p hp
    exact (hnodup p.file (file_mem_of_mem_places hp)).map (add_left_injective p.offset)
  · refine (pairwise_places emptyMerge files).imp_of_mem fun {p q} hp hq hpq x hx hx' => ?_
    obtain ⟨y, hy, rfl⟩ := List.mem_map.mp hx
    obtain ⟨z, hz, heq⟩ := List.mem_map.mp hx'
    have hlt := (hfiles p.file (file_mem_of_mem_places hp)).lt_size_of_mem hy
    have heq' : (z : Nat) + q.offset = y + p.offset := heq
    omega

/-! ### Joined roots -/

/-- The entries of a root stand below it. -/
theorem Separated.entries_sublist {f : File} (hf : f.Separated) {root : NodeId}
    (hroot : root ∈ f.roots) :
    ((f.rootEntries root).flatMap f.preorder).Sublist (f.preorder root) := by
  have hlt := behindAnchors_lt hf.closed (hf.root_lt root hroot)
  refine List.Sublist.trans ?_
    (preorder_sublist hf.acyclic hf.closed (f.below_behindAnchors root))
  rw [preorder_eq hf.acyclic hf.closed hlt, rootEntries]
  split
  next entries hk =>
    rw [children_of_kind? hk]
    exact List.sublist_cons_self _ _
  next => exact List.nil_sublist _

theorem nodup_mergedFile {files : List File} (hfiles : ∀ g ∈ files, g.Separated)
    (hnodup : ∀ g ∈ files, (g.roots.flatMap g.preorder).Nodup)
    (hjoin : (gathered files).Joinable (gathered files).roots) :
    ((mergedFile files).roots.flatMap (mergedFile files).preorder).Nodup := by
  have hf := separated_gathered hfiles
  have hroots : (mergedFile files).roots = (gathered files).roots.head?.toList := by
    rw [roots, mergedFile]
    cases (gathered files).roots.head? <;> rfl
  rw [hroots]
  cases hgathered : (gathered files).roots with
  | nil => exact List.nodup_nil
  | cons first others =>
    have hall := nodup_gathered hfiles hnodup
    rw [hgathered, List.flatMap_cons] at hall
    rw [List.head?_cons, Option.toList_some, List.flatMap_singleton,
      preorder_joinRoots (g := mergedFile files) hf hgathered hjoin rfl]
    refine hall.sublist ((List.Sublist.refl _).append ?_)
    refine List.Sublist.flatMap_right others fun root hroot => hf.entries_sublist ?_
    rw [hgathered]
    exact List.mem_cons_of_mem first hroot

theorem root_lt_mergedFile {files : List File} (hfiles : ∀ g ∈ files, g.Separated) (root : Nat)
    (hroot : root ∈ (mergedFile files).roots) : root < (mergedFile files).nodes.size := by
  obtain ⟨others, hroots⟩ := mem_roots_mergedFile.mp hroot
  rw [size_mergedFile]
  exact (separated_gathered hfiles).root_lt root (hroots ▸ List.mem_cons_self)

/-- Joining leaves anchors and what stands behind them alone. -/
theorem BareAnchors.of_joinRoots {f g : File} (hf : f.BareAnchors)
    (hg : g.nodes = (f.joinRoots f.roots).nodes) : g.BareAnchors := by
  intro id name value hk
  have hkind : ∀ x, g.kind? x = (f.joinRoots f.roots).kind? x := by
    intro x
    rw [kind?, kind?, node?, node?, hg]
  rw [hkind] at hk ⊢
  generalize f.roots = roots at hk ⊢
  cases roots with
  | nil => exact hf hk
  | cons first others =>
    rw [joinRoots, kind?_extendMapping_eq_anchor] at hk
    obtain ⟨k, hvalue, hbare⟩ := hf hk
    rw [joinRoots]
    by_cases hsame : value = f.behindAnchors first
    · rw [hsame] at hvalue ⊢
      rw [kind?_extendMapping_self, hvalue]
      exact ⟨_, rfl, by cases k <;> exact hbare⟩
    · rw [kind?_extendMapping_of_ne _ _ _ hsame]
      exact ⟨k, hvalue, hbare⟩

theorem bareAnchors_gathered {files : List File} (hfiles : ∀ g ∈ files, g.BareAnchors) :
    (gathered files).BareAnchors :=
  appendAll_induct (P := BareAnchors) (fun _ _ hf hg => hf.append hg) shaped_emptyMerge.anchored
    hfiles

/-- Merging keeps the documents trees. -/
theorem Forest.merge {files : List File} {f : File} (hfiles : ∀ g ∈ files, g.Forest)
    (h : File.merge files = .ok f) : f.Forest := by
  have hseparated : ∀ g ∈ files, g.Separated := fun g hg => (hfiles g hg).separated
  obtain ⟨hjoin, rfl⟩ := (merge_eq_ok_of_separated hseparated).mp h
  obtain ⟨hacyclic, hclosed⟩ :=
    acyclic_and_closed_joinRoots (separated_gathered hseparated) hjoin rfl
  have hanchors := bareAnchors_gathered fun g hg => (hfiles g hg).anchored
  exact ⟨hacyclic, hclosed, hanchors.of_joinRoots rfl, root_lt_mergedFile hseparated,
    nodup_mergedFile hseparated (fun g hg => (hfiles g hg).nodup) hjoin⟩

/-- The documents of every file from the reader are trees. -/
theorem FromReader.forest {f : File} (h : f.FromReader) : f.Forest :=
  h.of_read_of_merge (fun h => (shaped_of_read h).forest (nodup_of_read h)) Forest.merge

end PipelineScripts.Yaml.File
