import PipelineScripts.Proofs.JoinedTrees
import PipelineScripts.Script.AliasMap

/-!
# Aliases in merged files

An alias is bound if an anchor of its name was met before it. The nodes of a merged file are met
document by document, in the order the files are given in. So an alias may name an anchor of an
earlier file, but none of a later one.
-/
namespace PipelineScripts.Yaml

/-- An anchor that is set or named. -/
inductive Mention
  | anchor (name : String)
  | aliasOf (name : String)
deriving DecidableEq, Repr

def NodeKind.mention? : NodeKind → Option Mention
  | anchor name _ => some (.anchor name)
  | aliasOf name => some (.aliasOf name)
  | _ => none

@[simp] theorem NodeKind.mention?_mapChildren (f : NodeId → NodeId) (k : NodeKind) :
    (k.mapChildren f).mention? = k.mention? := by
  cases k <;> rfl

/-- Every alias comes after an anchor of its name. -/
def Bound (mentions : List Mention) : Prop :=
  ∀ before name after, mentions = before ++ .aliasOf name :: after → .anchor name ∈ before

/-- Every alias comes after an anchor of its name or has a name that is known from before. -/
def BoundAfter (known : String → Prop) (mentions : List Mention) : Prop :=
  ∀ before name after, mentions = before ++ .aliasOf name :: after →
    .anchor name ∈ before ∨ known name

section BoundAfter

variable {known : String → Prop} {name : String} {mentions : List Mention}

theorem bound_iff_boundAfter : Bound mentions ↔ BoundAfter (fun _ => False) mentions := by
  simp [Bound, BoundAfter]

theorem boundAfter_nil : BoundAfter known [] := by
  intro before name after h
  simp at h

theorem boundAfter_anchor : BoundAfter known (.anchor name :: mentions) ↔
    BoundAfter (fun x => x = name ∨ known x) mentions := by
  constructor
  · intro h before x after heq
    rcases h (.anchor name :: before) x after (by rw [heq]; rfl) with hmem | hknown
    · rcases List.mem_cons.mp hmem with hsame | hmem
      · exact .inr (.inl (Mention.anchor.inj hsame))
      · exact .inl hmem
    · exact .inr (.inr hknown)
  · intro h before x after heq
    cases before with
    | nil => cases heq
    | cons m before =>
      obtain ⟨rfl, htail⟩ := List.cons.inj heq
      rcases h before x after htail with hmem | rfl | hknown
      · exact .inl (List.mem_cons_of_mem _ hmem)
      · exact .inl (by simp)
      · exact .inr hknown

theorem boundAfter_aliasOf : BoundAfter known (.aliasOf name :: mentions) ↔
    known name ∧ BoundAfter known mentions := by
  constructor
  · intro h
    refine ⟨?_, fun before x after heq => ?_⟩
    · simpa using h [] name mentions rfl
    · simpa using h (.aliasOf name :: before) x after (by rw [heq]; rfl)
  · rintro ⟨hname, h⟩ before x after heq
    cases before with
    | nil =>
      cases heq
      exact .inr hname
    | cons m before =>
      obtain ⟨rfl, htail⟩ := List.cons.inj heq
      exact (h before x after htail).imp_left (List.mem_cons_of_mem _)

end BoundAfter

namespace File

/-- What a node alone mentions. -/
def mention? (f : File) (id : NodeId) : Option Mention := (f.kind? id).bind NodeKind.mention?

/-- The anchors and aliases of the tree below a node, in document order. -/
def mentions (f : File) (id : NodeId) : List Mention := (f.preorder id).filterMap f.mention?

/-- A file mentions the same wherever it is placed. -/
theorem EmbedsAt.mentions {g f : File} {offset source : Nat} (h : g.EmbedsAt f offset source)
    (hf : f.Separated) (hg : g.Separated) {id : Nat} (hid : id < g.nodes.size) :
    f.mentions (id + offset) = g.mentions id := by
  have hin : ∀ x ∈ g.preorder id, x < g.nodes.size :=
    forall_mem_preorder (fun _ _ _ hbelow => hg.closed hbelow) hid
  rw [File.mentions, h.preorder hf hg hid, List.filterMap_map]
  refine List.filterMap_congr fun x hx => ?_
  simp only [Function.comp_apply, mention?, h.kind? (hin x hx)]
  cases g.kind? x <;> simp

/-- More entries of a mapping mention nothing at the mapping itself. -/
theorem mention?_joinRoots (f : File) (roots : List NodeId) (x : NodeId) :
    ((f.joinRoots roots).kind? x).bind NodeKind.mention? = f.mention? x := by
  cases roots with
  | nil => rfl
  | cons first others =>
    rw [joinRoots, mention?]
    by_cases hx : x = f.behindAnchors first
    · rw [hx, kind?_extendMapping_self]
      cases f.kind? (f.behindAnchors first) with
      | none => rfl
      | some k => cases k <;> rfl
    · rw [kind?_extendMapping_of_ne _ _ _ hx]

/-! ### Mentions of joined roots -/

/-- What the entries of a root mention. -/
def entryMentions (f : File) (root : NodeId) : List Mention :=
  (f.rootEntries root).flatMap f.mentions

/-- A root that others were joined to mentions what it did, and then what their entries do. -/
theorem mentions_joinRoots {f g : File} (hf : f.Separated) {first : NodeId} {others : List NodeId}
    (hroots : f.roots = first :: others) (hjoin : f.Joinable f.roots)
    (hg : g.nodes = (f.joinRoots f.roots).nodes) :
    g.mentions first = f.mentions first ++ others.flatMap f.entryMentions := by
  have hmention : g.mention? = f.mention? := by
    funext x
    unfold mention?
    rw [kind?, node?, hg]
    exact mention?_joinRoots f f.roots x
  rw [mentions, hmention, preorder_joinRoots hf hroots hjoin hg, List.filterMap_append,
    List.filterMap_flatMap]
  congr 1
  refine List.flatMap_congr fun root _ => ?_
  rw [List.filterMap_flatMap]
  rfl

/-- Puts together what documents mention: all of the first, and the entries of the others. -/
def joinMentions : List (List Mention × List Mention) → List Mention
  | [] => []
  | first :: others => first.1 ++ others.flatMap (·.2)

/-- What files mention once they are merged. An anchor at a root other than the first is lost with
that root. -/
def mergedMentions (files : List File) : List Mention :=
  joinMentions (files.flatMap fun f =>
    f.roots.map fun root => (f.mentions root, f.entryMentions root))

/-- What files mention one by one. -/
def allMentions (files : List File) : List Mention :=
  files.flatMap fun f => f.roots.flatMap f.mentions

theorem mentions_gathered {files : List File} (hfiles : ∀ g ∈ files, g.Separated) :
    ((gathered files).roots.map fun root =>
        ((gathered files).mentions root, (gathered files).entryMentions root)) =
      files.flatMap fun f => f.roots.map fun root => (f.mentions root, f.entryMentions root) := by
  have hA := separated_gathered hfiles
  rw [roots_gathered, List.map_flatMap]
  conv_rhs => rw [← map_file_places emptyMerge files, List.flatMap_map]
  refine List.flatMap_congr fun p hp => ?_
  have hg := hfiles p.file (file_mem_of_mem_places hp)
  have hembeds := embedsAt_of_mem_places hp
  rw [List.map_map]
  refine List.map_congr_left fun root hroot => ?_
  have hlt := hg.root_lt root hroot
  have hwhole := hembeds.mentions hA hg hlt
  have hentries : (gathered files).entryMentions (root + p.offset) =
      p.file.entryMentions root := by
    unfold entryMentions
    rw [gathered, hembeds.rootEntries hA hg hlt, List.flatMap_map]
    refine List.flatMap_congr fun entry hentry => hembeds.mentions hA hg ?_
    exact hg.closed (below_of_mem_rootEntries hentry)
  simp only [Function.comp_apply, hentries]
  rw [← hwhole]
  rfl

theorem mentions_mergedFile {files : List File} (hfiles : ∀ g ∈ files, g.Shaped)
    (hjoin : (gathered files).Joinable (gathered files).roots) {root : NodeId}
    (hroot : (mergedFile files).documents = [some root]) :
    (mergedFile files).mentions root = mergedMentions files := by
  obtain ⟨others, hroots⟩ : ∃ others, (gathered files).roots = root :: others := by
    refine List.head?_eq_some_iff.mp ?_
    simpa [mergedFile] using hroot
  have hseparated : ∀ g ∈ files, g.Separated := fun g hg => (hfiles g hg).separated
  rw [mergedMentions, ← mentions_gathered hseparated, hroots, List.map_cons, joinMentions,
    List.flatMap_map]
  exact mentions_joinRoots (separated_gathered hseparated) hroots hjoin rfl

end File

end PipelineScripts.Yaml

namespace PipelineScripts.Script

open Yaml

/-- A walk goes on as long as every alias has an anchor, of the walk or from before. -/
theorem walk_ok_iff {f : File} {ids : List NodeId} {w : AliasWalk} :
    (∃ w', ids.foldlM (AliasWalk.visit f) w = .ok w') ↔
      BoundAfter (fun name => (w.anchors.lookup name).isSome = true)
        (ids.filterMap f.mention?) := by
  induction ids generalizing w with
  | nil => exact ⟨fun _ => boundAfter_nil, fun _ => ⟨w, rfl⟩⟩
  | cons id rest ih =>
    have hcons : (∃ w', (id :: rest).foldlM (AliasWalk.visit f) w = .ok w') ↔
        ∃ w₁, AliasWalk.visit f w id = .ok w₁ ∧
          BoundAfter (fun name => (w₁.anchors.lookup name).isSome = true)
            (rest.filterMap f.mention?) := by
      simp only [List.foldlM_cons, bind_eq_ok, ← ih]
      constructor
      · rintro ⟨w', w₁, hw₁, hw'⟩
        exact ⟨w₁, hw₁, w', hw'⟩
      · rintro ⟨w₁, hw₁, w', hw'⟩
        exact ⟨w', w₁, hw₁, hw'⟩
    rw [hcons, List.filterMap_cons, File.mention?, AliasWalk.visit]
    cases hk : f.kind? id with
    | none => simp
    | some k =>
      cases k with
      | anchor name value =>
        simp only [Option.bind_some, NodeKind.mention?, boundAfter_anchor, Except.ok.injEq,
          exists_eq_left']
        have hknown : (fun x => (((name, value) :: w.anchors).lookup x).isSome = true) =
            fun x => x = name ∨ (w.anchors.lookup x).isSome = true := by
          funext x
          rw [List.lookup_cons]
          by_cases hx : x = name
          · simp [hx]
          · have hne : (x == name) = false := by simp [hx]
            simp only [hne, hx, false_or]
        rw [hknown]
      | aliasOf name =>
        simp only [Option.bind_some, NodeKind.mention?, boundAfter_aliasOf]
        cases hlookup : w.anchors.lookup name with
        | none => simp
        | some target =>
          -- Whether the alias was met before or not, the anchors stay.
          by_cases hmet : (w.targets.lookup id).isSome = true <;> simp [hmet]
      | scalar _ _ | block _ _ _ | sequence _ _ | mapping _ | entry _ _ _ | tagged _ _ =>
        simp [NodeKind.mention?]

/-- The aliases below a node can be bound if each comes after an anchor of its name. -/
theorem build_ok_iff (f : File) (root : NodeId) :
    (∃ m, AliasMap.build f root = .ok m) ↔ Bound (f.mentions root) := by
  have hwalk := @walk_ok_iff f (f.preorder root) {}
  simp only [List.lookup_nil, Option.isSome_none, Bool.false_eq_true] at hwalk
  rw [bound_iff_boundAfter, File.mentions, ← hwalk]
  constructor
  · rintro ⟨m, hm⟩
    obtain ⟨w, hw, -⟩ := bind_eq_ok.mp hm
    exact ⟨w, hw⟩
  · rintro ⟨w, hw⟩
    exact ⟨⟨w.targets⟩, bind_eq_ok.mpr ⟨w, hw, rfl⟩⟩

/-- The aliases of merged files are bound in exactly one case: each comes after an anchor of its
name, in an earlier file or further up in its own. -/
theorem merged_aliases_bound_iff {inputs : List (String × String)} {files : List File}
    {merged : File} {root : NodeId}
    (hinputs : inputs.mapM (fun i => File.parseFragment i.1 i.2) = .ok files)
    (hmerge : File.merge files = .ok merged) (hroot : merged.documents = [some root]) :
    (∃ m, AliasMap.build merged root = .ok m) ↔ Bound (File.mergedMentions files) := by
  have hfiles : ∀ g ∈ files, g.Shaped := by
    intro g hg
    obtain ⟨input, -, hinput⟩ := exists_of_mem_mapM hinputs hg
    exact File.shaped_of_read hinput
  obtain ⟨hjoin, rfl⟩ := (File.merge_eq_ok hfiles).mp hmerge
  rw [build_ok_iff, File.mentions_mergedFile hfiles hjoin hroot]

/-- A file that sets an anchor. -/
def anchorInput : String × String := ("a.yml", "a: &x echo\n")

/-- A file that names the anchor of `anchorInput`. -/
def aliasInput : String × String := ("b.yml", "job:\n  script: *x\n")

/-- The alias is bound if the file with the anchor comes first. -/
theorem anchorInput_aliasInput_bound :
    ∃ files merged root,
      [anchorInput, aliasInput].mapM (fun i => File.parseFragment i.1 i.2) = .ok files ∧
        File.merge files = .ok merged ∧ merged.documents = [some root] ∧
        File.mergedMentions files = [.anchor "x", .aliasOf "x"] ∧
        ∃ m, AliasMap.build merged root = .ok m := by
  have hrun : (([anchorInput, aliasInput].mapM fun i => File.parseFragment i.1 i.2).toOption.bind
      fun files => (File.merge files).toOption.map fun merged =>
        (merged.documents, File.mergedMentions files)) =
      some ([some 4], [.anchor "x", .aliasOf "x"]) := by decide +kernel
  obtain ⟨files, hfiles, hrun⟩ := Option.bind_eq_some_iff.mp hrun
  obtain ⟨merged, hmerged, hrun⟩ := Option.map_eq_some_iff.mp hrun
  obtain ⟨hroot, hmentions⟩ := Prod.mk.inj hrun
  have hinputs := toOption_eq_some.mp hfiles
  have hmerge := toOption_eq_some.mp hmerged
  refine ⟨files, merged, 4, hinputs, hmerge, hroot, hmentions, ?_⟩
  rw [merged_aliases_bound_iff hinputs hmerge hroot, hmentions, bound_iff_boundAfter,
    boundAfter_anchor, boundAfter_aliasOf]
  exact ⟨.inl rfl, boundAfter_nil⟩

/-- If the file with the anchor comes second the alias is not bound, though its anchor is set in
one of the files. -/
theorem aliasInput_anchorInput_unbound :
    ∃ files merged root,
      [aliasInput, anchorInput].mapM (fun i => File.parseFragment i.1 i.2) = .ok files ∧
        File.merge files = .ok merged ∧ merged.documents = [some root] ∧
        (∀ name, .aliasOf name ∈ File.allMentions files → .anchor name ∈ File.allMentions files) ∧
        AliasMap.build merged root = .error (.unresolvedAlias "x" 2) := by
  have hrun : (([aliasInput, anchorInput].mapM fun i => File.parseFragment i.1 i.2).toOption.bind
      fun files => (File.merge files).toOption.map fun merged =>
        (merged.documents, File.allMentions files, AliasMap.build merged 6)) =
      some ([some 6], [.aliasOf "x", .anchor "x"], .error (.unresolvedAlias "x" 2)) := by
    decide +kernel
  obtain ⟨files, hfiles, hrun⟩ := Option.bind_eq_some_iff.mp hrun
  obtain ⟨merged, hmerged, hrun⟩ := Option.map_eq_some_iff.mp hrun
  simp only [Prod.mk.injEq] at hrun
  obtain ⟨hroot, hmentions, hbuild⟩ := hrun
  refine ⟨files, merged, 6, toOption_eq_some.mp hfiles, toOption_eq_some.mp hmerged, hroot, ?_,
    hbuild⟩
  simp [hmentions]

end PipelineScripts.Script
