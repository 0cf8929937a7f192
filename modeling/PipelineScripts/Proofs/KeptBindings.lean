import PipelineScripts.Proofs.AliasBinding
import PipelineScripts.Proofs.MergedForests

/-!
# Bindings that merging keeps

The nodes of each document follow one another in a merged file, too, all but its root if another one
comes first. So the last anchor of a name in front of an alias stays the last one, whatever anchors
of that name the other files have.
-/
namespace PipelineScripts.Yaml.File

open Relation

/-- A node is the value of an anchor at a root, or of one right behind that. -/
def RootAnchored (f : File) (root target : NodeId) : Prop := TransGen f.AnchorBefore root target

/-- An anchor is never set on another one by the reader, so it is the root that is meant. -/
theorem BareAnchors.rootAnchored_iff {f : File} (hf : f.BareAnchors) {root target : NodeId} :
    f.RootAnchored root target ↔ f.AnchorBefore root target := by
  refine ⟨fun h => ?_, .single⟩
  rcases TransGen.head'_iff.mp h with ⟨v, ⟨name, hv⟩, hrest⟩
  rcases ReflTransGen.cases_head hrest with rfl | ⟨w, ⟨other, hw⟩, -⟩
  · exact ⟨name, hv⟩
  · obtain ⟨k, hk, hbare⟩ := hf hv
    cases hk.symm.trans hw
    simp [NodeKind.isBare] at hbare

/-! ### Kinds -/

/-- Joining changes no node but a mapping. -/
theorem kind?_joinRoots_eq_iff {f : File} {roots : List NodeId} {x : NodeId} {k : NodeKind}
    (hk : ∀ entries, k ≠ .mapping entries) :
    (f.joinRoots roots).kind? x = some k ↔ f.kind? x = some k := by
  cases roots with
  | nil => exact Iff.rfl
  | cons first others =>
    rw [joinRoots]
    by_cases hx : x = f.behindAnchors first
    · rw [hx, kind?_extendMapping_self]
      cases f.kind? (f.behindAnchors first) with
      | none => simp
      | some k' =>
        cases k' with
        | mapping entries => simp [NodeKind.addEntries, Ne.symm (hk _)]
        | _ => simp [NodeKind.addEntries]
    · rw [kind?_extendMapping_of_ne _ _ _ hx]

/-! ### Walks -/

/-- A walk meets the anchors at a root and its mapping, and then what is below the entries. -/
theorem exists_wrappers {f : File} (hacyclic : f.Acyclic) (hclosed : f.Closed) {root : NodeId}
    (hroot : f.HasMapping root) : ∃ wrappers,
      f.preorder root = wrappers ++ (f.rootEntries root).flatMap f.preorder ∧
      ∀ x ∈ wrappers, ReflTransGen f.AnchorBefore root x ∧
        ∀ name, f.kind? x ≠ some (.aliasOf name) := by
  obtain ⟨entries, hentries⟩ := hroot
  rw [rootEntries, hentries]
  dsimp only
  have hchain := ((behindAnchors_eq_iff hacyclic).mp (rfl : f.behindAnchors root = _)).1
  generalize f.behindAnchors root = m at hchain hentries
  induction hchain using ReflTransGen.head_induction_on with
  | refl =>
    refine ⟨[m], ?_, fun x hx => ?_⟩
    · rw [preorder_eq hacyclic hclosed (lt_size_of_kind? hentries), children_of_kind? hentries]
      rfl
    · rw [List.mem_singleton.mp hx, hentries]
      exact ⟨.refl, by simp⟩
  | @head a b hstep _ ih =>
    obtain ⟨wrappers, hwrappers, hall⟩ := ih
    obtain ⟨name, hk⟩ := hstep
    refine ⟨a :: wrappers, ?_, fun x hx => ?_⟩
    · rw [preorder_eq hacyclic hclosed (lt_size_of_kind? hk), children_of_kind? hk]
      simp [NodeKind.children, hwrappers]
    · rcases List.mem_cons.mp hx with rfl | hx
      · rw [hk]
        exact ⟨.refl, by simp⟩
      · exact ⟨(hall x hx).1.head ⟨name, hk⟩, (hall x hx).2⟩

/-- The nodes of a document follow one another in a merged file. Those that are missing stand at its
root. -/
theorem exists_stretch {files : List File} (hfiles : ∀ g ∈ files, g.Separated)
    (hjoin : (gathered files).Joinable (gathered files).roots) {root : NodeId}
    (hroot : root ∈ (mergedFile files).roots) {p : Placed} (hp : p ∈ emptyMerge.places files)
    {r : NodeId} (hr : r ∈ p.file.roots) : ∃ front wrappers inner back,
      p.file.preorder r = wrappers ++ inner ∧
      (mergedFile files).preorder root = front ++ inner.map (· + p.offset) ++ back ∧
      ∀ x ∈ wrappers, ReflTransGen p.file.AnchorBefore r x ∧
        ∀ name, p.file.kind? x ≠ some (.aliasOf name) := by
  have hA := separated_gathered hfiles
  have hg := hfiles p.file (file_mem_of_mem_places hp)
  have hembeds : p.file.EmbedsAt (gathered files) p.offset p.source := embedsAt_of_mem_places hp
  have hlt := hg.root_lt r hr
  obtain ⟨others, hroots⟩ := mem_roots_mergedFile.mp hroot
  have hwalk := preorder_joinRoots (g := mergedFile files) hA hroots hjoin rfl
  have hplace : r + p.offset ∈ (gathered files).roots := mem_roots_gathered.mpr ⟨p, hp, r, hr, rfl⟩
  rw [hroots] at hplace
  rcases List.mem_cons.mp hplace with hfirst | hother
  · have hown : (gathered files).preorder root = (p.file.preorder r).map (· + p.offset) := by
      rw [← hfirst]
      exact hembeds.preorder hA hg hlt
    refine ⟨[], [], p.file.preorder r,
      others.flatMap fun x => ((gathered files).rootEntries x).flatMap (gathered files).preorder,
      rfl, ?_, by simp⟩
    rw [hwalk, hown, List.nil_append]
  · obtain ⟨before, after, hothers⟩ := List.append_of_mem hother
    have hmapping : p.file.HasMapping r := by
      rw [← hembeds.hasMapping_iff hA hg hlt]
      exact (hjoin root (by simp [hroots]) _ (by simp [hroots, hother])).2
    obtain ⟨wrappers, hwrappers, hall⟩ := exists_wrappers hg.acyclic hg.closed hmapping
    set rest : NodeId → List NodeId := fun x =>
      ((gathered files).rootEntries x).flatMap (gathered files).preorder
    refine ⟨(gathered files).preorder root ++ before.flatMap rest, wrappers, _,
      after.flatMap rest, hwrappers, ?_, hall⟩
    have hinner : rest (r + p.offset) =
        ((p.file.rootEntries r).flatMap p.file.preorder).map (· + p.offset) := by
      dsimp only [rest]
      rw [hembeds.rootEntries hA hg hlt, List.flatMap_map, List.map_flatMap]
      refine List.flatMap_congr fun entry hentry => hembeds.preorder hA hg ?_
      exact hg.closed (below_of_mem_rootEntries hentry)
    rw [hwalk, hothers, List.flatMap_append, List.flatMap_cons, hinner, ← List.append_assoc,
      ← List.append_assoc]

end PipelineScripts.Yaml.File

namespace PipelineScripts.Script

open Yaml Relation

/-- What stands further in front does not count where there is an anchor of the name. -/
theorem LastAnchor.append {f : File} {met : List NodeId} {name : String} {target : NodeId}
    (h : LastAnchor f met name target) (front : List NodeId) :
    LastAnchor f (front ++ met) name target := by
  obtain ⟨id, ⟨before, after, rfl, hid, hafter⟩, hk⟩ := h
  exact ⟨id, ⟨front ++ before, after, by simp, hid, hafter⟩, hk⟩

/-- The last anchor is found behind nodes that have none for its value. -/
theorem LastAnchor.of_append {f : File} {front met : List NodeId} {name : String} {target : NodeId}
    (h : LastAnchor f (front ++ met) name target)
    (hfront : ∀ x ∈ front, f.kind? x ≠ some (.anchor name target)) :
    LastAnchor f met name target := by
  obtain ⟨id, ⟨before, after, heq, hid, hafter⟩, hk⟩ := h
  rcases List.append_eq_append_iff.mp heq with ⟨c, rfl, rfl⟩ | ⟨c, rfl, hc⟩
  · exact ⟨id, ⟨c, after, rfl, hid, hafter⟩, hk⟩
  · cases c with
    | nil => exact ⟨id, ⟨[], after, by simpa using hc.symm, hid, hafter⟩, hk⟩
    | cons x c =>
      obtain ⟨rfl, -⟩ := List.cons.inj hc
      exact absurd hk (hfront id (by simp))

/-- The last anchor is carried with nodes that keep their anchors. -/
theorem LastAnchor.map {f g : File} {φ : NodeId → NodeId} {met : List NodeId} {name : String}
    {target : NodeId} (hkind : ∀ x ∈ met, ∀ value, g.kind? (φ x) = some (.anchor name value) ↔
      ∃ v, f.kind? x = some (.anchor name v) ∧ φ v = value)
    (h : LastAnchor f met name target) : LastAnchor g (met.map φ) name (φ target) := by
  obtain ⟨id, hlast, hk⟩ := h
  refine ⟨φ id, lastWith_map.mpr ⟨id, rfl, hlast.congr fun x hx => ?_⟩,
    (hkind id hlast.mem _).mpr ⟨target, hk, rfl⟩⟩
  simp only [hkind x hx]
  exact ⟨fun ⟨v, hv⟩ => ⟨_, v, hv, rfl⟩, fun ⟨_, v, hv, _⟩ => ⟨v, hv⟩⟩

/-- An alias of a tree with the value of the last anchor of its name in front of it. -/
def BoundAlone (f : File) (root id target : NodeId) : Prop :=
  ∃ before after name, f.preorder root = before ++ id :: after ∧
    f.kind? id = some (.aliasOf name) ∧ LastAnchor f before name target

/-- What the walk through a tree binds is bound in this way. -/
theorem boundAlone_of_build {f : File} {root : NodeId} (hids : (f.preorder root).Nodup)
    {m : AliasMap} (hbuild : AliasMap.build f root = .ok m) {id target : NodeId}
    (htarget : m.target? id = some target) : BoundAlone f root id target := by
  rcases build_cases hids with ⟨w, hw, hok⟩ | ⟨before, x, name, -, herror⟩
  · cases hbuild.symm.trans hok
    exact hw.bound id target htarget
  · cases hbuild.symm.trans herror

theorem target?_of_boundAlone {f : File} {root : NodeId} (hids : (f.preorder root).Nodup)
    {m : AliasMap} (hbuild : AliasMap.build f root = .ok m) {id target : NodeId}
    (h : BoundAlone f root id target) : m.target? id = some target := by
  obtain ⟨before, after, name, heq, hk, hlast⟩ := h
  rcases build_cases hids with ⟨w, hw, hok⟩ | ⟨_, _, _, -, herror⟩
  · cases hbuild.symm.trans hok
    exact (hw.lookup_iff hids heq hk).mpr hlast
  · cases hbuild.symm.trans herror

/-- An alias of a document is bound in the merged file as it is alone, if its anchor is not at the
root. -/
theorem BoundAlone.merged {files : List File} (hfiles : ∀ g ∈ files, g.Separated)
    (hjoin : (File.gathered files).Joinable (File.gathered files).roots) {root : NodeId}
    (hroot : root ∈ (File.mergedFile files).roots) {p : File.Placed}
    (hp : p ∈ File.emptyMerge.places files) {r : NodeId} (hr : r ∈ p.file.roots)
    {id target : NodeId} (hanchor : ¬ p.file.RootAnchored r target)
    (h : BoundAlone p.file r id target) :
    BoundAlone (File.mergedFile files) root (id + p.offset) (target + p.offset) := by
  obtain ⟨before, after, name, hown, hk, hlast⟩ := h
  obtain ⟨front, wrappers, inner, back, hsplit, hmerged, hwrappers⟩ :=
    File.exists_stretch hfiles hjoin hroot hp hr
  have hkind : ∀ {x : Nat} {k : NodeKind}, (∀ entries, k ≠ .mapping entries) →
      x < p.file.nodes.size → ((File.mergedFile files).kind? (x + p.offset) = some k ↔
        (p.file.kind? x).map (NodeKind.mapChildren (· + p.offset)) = some k) := by
    intro x k hne hx
    rw [← (File.embedsAt_of_mem_places hp).kind? hx]
    exact File.kind?_joinRoots_eq_iff hne
  -- The alias does not stand at the root, so what is in front of it goes on behind the root.
  obtain ⟨between, rfl, hinner⟩ : ∃ between, before = wrappers ++ between ∧
      inner = between ++ id :: after := by
    rcases List.append_eq_append_iff.mp (hsplit.symm.trans hown) with
      ⟨c, hbefore, hc⟩ | ⟨c, hc, hinner⟩
    · exact ⟨c, hbefore, hc⟩
    · cases c with
      | nil => exact ⟨[], by simpa using hc.symm, by simpa using hinner.symm⟩
      | cons x c =>
        obtain ⟨rfl, -⟩ := List.cons.inj hinner
        exact absurd hk ((hwrappers id (by simp [hc])).2 name)
  have hg := hfiles p.file (File.file_mem_of_mem_places hp)
  have hsize : ∀ x ∈ p.file.preorder r, x < p.file.nodes.size :=
    File.forall_mem_preorder (fun _ _ _ hbelow => hg.closed hbelow) (hg.root_lt r hr)
  have hown_last : LastAnchor p.file between name target :=
    hlast.of_append fun x hx hanchored =>
      hanchor (TransGen.tail' (hwrappers x hx).1 ⟨name, hanchored⟩)
  have hmoved : LastAnchor (File.mergedFile files) (between.map (· + p.offset)) name
      (target + p.offset) := by
    refine hown_last.map fun x hx value => ?_
    rw [hkind (by simp) (hsize x (by simp [hown, hx])), Option.map_eq_some_iff]
    constructor
    · rintro ⟨k, hx, hmap⟩
      obtain ⟨v, rfl, rfl⟩ := NodeKind.anchor_of_mapChildren hmap
      exact ⟨v, hx, rfl⟩
    · rintro ⟨v, hx, rfl⟩
      exact ⟨_, hx, rfl⟩
  refine ⟨front ++ between.map (· + p.offset), after.map (· + p.offset) ++ back, name, ?_, ?_,
    hmoved.append front⟩
  · rw [hmerged, hinner]
    simp
  · rw [hkind (by simp) (hsize id (by simp [hown])), hk]
    rfl

/-- An alias that its document binds, to the value of an anchor that is not at its root, is bound to
this value in the merged file. This also holds of documents with further aliases that have no anchor
of their own. -/
theorem merged_bindings_kept {files : List File} (hfiles : ∀ g ∈ files, g.WellFormed)
    {merged : File} {root : NodeId} {m : AliasMap} (hmerge : File.merge files = .ok merged)
    (hroot : merged.documents = [some root]) (hbuild : AliasMap.build merged root = .ok m) :
    ∀ p ∈ File.emptyMerge.places files, ∀ r ∈ p.file.roots, ∀ id target,
      ¬ p.file.RootAnchored r target →
        (∀ own, AliasMap.build p.file r = .ok own → own.target? id = some target →
          m.target? (id + p.offset) = some (target + p.offset)) ∧
        (BoundAlone p.file r id target →
          m.target? (id + p.offset) = some (target + p.offset)) := by
  have hseparated : ∀ g ∈ files, g.Separated := fun g hg => (hfiles g hg).separated
  obtain ⟨hjoin, rfl⟩ := (File.merge_eq_ok_of_separated hseparated).mp hmerge
  have hroots : (File.mergedFile files).roots = [root] := by
    rw [File.roots, hroot]
    rfl
  have hids : ((File.mergedFile files).preorder root).Nodup := by
    have hnodup := (File.wellFormed_mergedFile hfiles hjoin).nodup
    rwa [hroots, List.flatMap_singleton] at hnodup
  intro p hp r hr id target hanchor
  have hkept : BoundAlone p.file r id target →
      m.target? (id + p.offset) = some (target + p.offset) := fun h =>
    target?_of_boundAlone hids hbuild (h.merged hseparated hjoin (by simp [hroots]) hp hr hanchor)
  refine ⟨fun own hown htarget => hkept (boundAlone_of_build ?_ hown htarget), hkept⟩
  exact (List.nodup_flatMap.mp (hfiles p.file (File.file_mem_of_mem_places hp)).nodup).1 r hr

/-- Two files that use one name for an anchor of their own. -/
def sharedName : List (String × String) :=
  [("a.yml", "build: &x [one]\nall: *x\n"), ("b.yml", "test: &x [two]\nrun: *x\n")]

theorem sharedName_kept :
    ∃ files merged m, sharedName.mapM (fun i => File.parseFragment i.1 i.2) = .ok files ∧
      File.merge files = .ok merged ∧ AliasMap.build merged 8 = .ok m ∧
      (File.emptyMerge.places files).map (fun p => p.offset) = [0, 9] ∧
      ∀ p ∈ File.emptyMerge.places files, m.target? (6 + p.offset) = some (2 + p.offset) := by
  have hrun : ((sharedName.mapM fun i => File.parseFragment i.1 i.2).toOption.bind fun files =>
      (File.merge files).toOption.bind fun merged =>
        (AliasMap.build merged 8).toOption.map fun _ =>
          (merged.documents, (File.emptyMerge.places files).map fun p => p.offset,
            (File.emptyMerge.places files).all fun p =>
              p.file.roots = [8] ∧ p.file.kind? 8 = some (.mapping [4, 7]) ∧
                ((AliasMap.build p.file 8).toOption.bind fun own => own.target? 6) = some 2)) =
      some ([some 8], [0, 9], true) := by
    decide +kernel
  obtain ⟨files, hfiles, hrun⟩ := Option.bind_eq_some_iff.mp hrun
  obtain ⟨merged, hmerge, hrun⟩ := Option.bind_eq_some_iff.mp hrun
  obtain ⟨m, hbuild, hread⟩ := Option.map_eq_some_iff.mp hrun
  obtain ⟨hroot, hread⟩ := Prod.mk.inj hread
  obtain ⟨hoffsets, hplaces⟩ := Prod.mk.inj hread
  have hinputs := toOption_eq_some.mp hfiles
  have hfiles := File.FromReader.of_fragments hinputs
  have hwell : ∀ g ∈ files, g.WellFormed := fun g hg => (hfiles g hg).wellFormed
  refine ⟨files, merged, m, hinputs, toOption_eq_some.mp hmerge, toOption_eq_some.mp hbuild,
    hoffsets, fun p hp => ?_⟩
  obtain ⟨hr, hk, hown⟩ := of_decide_eq_true (List.all_eq_true.mp hplaces p hp)
  obtain ⟨own, hown, htarget⟩ := Option.bind_eq_some_iff.mp hown
  have hanchors := (hfiles p.file (File.file_mem_of_mem_places hp)).forest.anchored
  have hanchor : ¬ p.file.RootAnchored 8 2 := by
    rw [hanchors.rootAnchored_iff]
    rintro ⟨name, hv⟩
    simp [hk] at hv
  exact (merged_bindings_kept hwell (toOption_eq_some.mp hmerge) hroot
    (toOption_eq_some.mp hbuild) p hp 8 (by simp [hr]) 6 2 hanchor).1 own
    (toOption_eq_some.mp hown) htarget

end PipelineScripts.Script
