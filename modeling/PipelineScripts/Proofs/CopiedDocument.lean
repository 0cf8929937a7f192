import PipelineScripts.Proofs.AliasBinding
import PipelineScripts.Proofs.CopiedJobs

/-!
# Copies of documents

The walk that binds the aliases of a tree meets nothing else, and what it binds stays in the tree.
So the jobs of a document, with all their blocks, are the same in every file that holds the
document, whatever the other documents are.
-/
namespace PipelineScripts.Script

open Yaml Relation

/-! ### Trees whose aliases are bound -/

/-- A tree of a file, with the aliases that are bound in it. -/
structure BoundTree (f : File) (root : NodeId) (m : AliasMap) : Prop where
  forest : f.Forest
  lt_size : root < f.nodes.size
  nodup : (f.preorder root).Nodup
  build : AliasMap.build f root = .ok m

namespace BoundTree

variable {f : File} {root id : NodeId} {m : AliasMap}

theorem of_forest (hf : f.Forest) (hroot : root ∈ f.roots) {r : NodeId}
    (hr : ReflTransGen f.Below root r) (hbuild : AliasMap.build f r = .ok m) : BoundTree f r m :=
  ⟨hf, hf.lt_size hroot hr, hf.nodup_preorder hroot hr, hbuild⟩

theorem root_mem (h : BoundTree f root m) : root ∈ f.preorder root :=
  File.self_mem_preorder h.forest.acyclic h.forest.closed h.lt_size

theorem child_mem (h : BoundTree f root m) {a b : NodeId} (ha : a ∈ f.preorder root)
    (hbelow : f.Below a b) : b ∈ f.preorder root :=
  File.mem_preorder_of_below h.forest.acyclic h.forest.closed h.lt_size ha hbelow

theorem exists_walked (h : BoundTree f root m) :
    ∃ w, Walked f (f.preorder root) w ∧ m = ⟨w.targets⟩ := by
  rcases build_cases h.nodup with ⟨w, hw, hbuild⟩ | ⟨before, id, name, -, hbuild⟩
  · exact ⟨w, hw, Except.ok.inj (h.build.symm.trans hbuild)⟩
  · cases h.build.symm.trans hbuild

theorem key_mem (h : BoundTree f root m) {e : NodeId × NodeId} (he : e ∈ m.targets) :
    e.1 ∈ f.preorder root := by
  obtain ⟨w, hw, rfl⟩ := h.exists_walked
  have hmem : e.1 ∈ w.targets.map Prod.fst := List.mem_map_of_mem he
  rw [hw.domain] at hmem
  exact (List.mem_filter.mp hmem).1

/-- An alias stands for the value of an anchor of the tree. -/
theorem target_bare (h : BoundTree f root m) {t : NodeId} (htarget : m.target? id = some t) :
    t ∈ f.preorder root ∧ ∃ k, f.kind? t = some k ∧ k.isBare = true := by
  obtain ⟨w, hw, rfl⟩ := h.exists_walked
  obtain ⟨before, after, name, heq, -, x, hlast, hx⟩ := hw.bound id t htarget
  have hmem : x ∈ f.preorder root := by
    rw [heq]
    exact List.mem_append_left _ hlast.mem
  refine ⟨h.child_mem hmem ?_, h.forest.anchored hx⟩
  simp [File.Below, File.children_of_kind? hx, NodeKind.children]

/-- Every alias of the tree has a target. -/
theorem exists_target (h : BoundTree f root m) {name : String} (hid : id ∈ f.preorder root)
    (hk : f.kind? id = some (.aliasOf name)) : ∃ t, m.target? id = some t := by
  obtain ⟨w, hw, rfl⟩ := h.exists_walked
  exact hw.exists_lookup h.nodup hid hk

theorem encloses (h : BoundTree f root m) :
    Scope.Encloses ⟨f, root, m⟩ {x | x ∈ f.preorder root} := by
  intro a b ha hstep
  cases hstep with
  | down hbelow => exact h.child_mem ha hbelow
  | aliasOf htarget => exact (h.target_bare htarget).1

end BoundTree

/-! ### The same tree elsewhere -/

/-- The node each alias stands for, under other numbers. -/
def AliasMap.renamed (φ : NodeId → NodeId) (m : AliasMap) : AliasMap :=
  ⟨m.targets.map fun e => (φ e.1, φ e.2)⟩

@[simp] theorem AliasMap.renamed_id (m : AliasMap) : m.renamed id = m := by
  simp [renamed]

/-- A tree is all that its scope needs. -/
theorem BoundTree.mirrors {f F : File} {root : NodeId} {m : AliasMap} {φ : NodeId → NodeId}
    {source : Nat} (h : BoundTree f root m) (hF : F.Acyclic)
    (hφ : Set.InjOn φ {x | x ∈ f.preorder root})
    (hnode : ∀ x ∈ f.preorder root, F.node? (φ x) = (f.node? x).map (Node.renamed φ source)) :
    Scope.Mirrors ⟨f, root, m⟩ ⟨F, φ root, m.renamed φ⟩ φ source {x | x ∈ f.preorder root} := by
  have hcopies : Scope.Copies ⟨f, root, m⟩ ⟨F, φ root, m.renamed φ⟩ φ source
      {x | x ∈ f.preorder root} :=
    { acyclic := h.forest.acyclic
      acyclic_copy := hF
      child_mem := h.child_mem
      node := hnode
      injective := hφ
      anchored := h.forest.anchored
      target := fun x hx => lookup_map_keys hφ (fun e he => h.key_mem he) hx
      target_bare := h.target_bare }
  exact hcopies.mirrors h.root_mem rfl

/-- The aliases of a tree are bound in the same way wherever it stands, and the same one has no
anchor if they cannot be bound. -/
theorem build_renamed {f F : File} {φ : NodeId → NodeId} {source : Nat} {T : Set NodeId}
    (h : f.CopiesNodes F φ source T) (hφ : Set.InjOn φ T) (hclosed : f.Closed)
    (hclosed' : F.Closed) {root : NodeId} (hroot : root ∈ T) (hsize : root < f.nodes.size) :
    AliasMap.build F (φ root) = (AliasMap.build f root).map (AliasMap.renamed φ) := by
  have hids : ∀ x ∈ f.preorder root, x ∈ T :=
    File.forall_mem_preorder (fun _ _ ha hbelow => h.child_mem ha hbelow) hroot
  have hkinds := fun x (hx : x ∈ f.preorder root) => h.kind? (hids x hx)
  unfold AliasMap.build
  rw [h.preorder hclosed hclosed' hroot hsize]
  cases hwalk : (f.preorder root).foldlM (AliasWalk.visit f) {} with
  | error e =>
    have hcopy := AliasWalk.foldlM_visit_renamed_error hφ (by simp) hids hkinds
      (fun x hx => h.line (hids x hx)) hwalk
    rw [AliasWalk.renamed_initial] at hcopy
    rw [hcopy]
    rfl
  | ok w =>
    have hcopy := AliasWalk.foldlM_visit_renamed {} hφ (by simp) hids hkinds (fun _ _ => rfl) hwalk
    rw [AliasWalk.renamed_initial, AliasWalk.after_initial, AliasWalk.after_initial] at hcopy
    rw [hcopy]
    rfl

/-! ### Blocks -/

/-- The document that holds the jobs of a file stands in another file, too, under other numbers.
Other documents of the two files may differ. -/
structure SameJobs (f F : File) (φ : NodeId → NodeId) (source : Nat) : Prop where
  root : jobRoot? F = (jobRoot? f).map φ
  injective : ∀ root, jobRoot? f = some root → Set.InjOn φ {x | x ∈ f.preorder root}
  node : ∀ root, jobRoot? f = some root → ∀ x ∈ f.preorder root,
    F.node? (φ x) = (f.node? x).map (Node.renamed φ source)
  sourceName : ∀ i, F.sourceName (i + source) = f.sourceName i

theorem mem_roots_of_jobRoot? {f : File} {root : NodeId} (h : jobRoot? f = some root) :
    root ∈ f.roots :=
  List.mem_filterMap.mpr ⟨_, mem_documents_of_jobRoot? h, rfl⟩

/-- The jobs have the same blocks in both files, or cannot be extracted for the same reason. -/
theorem SameJobs.jobBlocks {f F : File} {φ : NodeId → NodeId} {source : Nat}
    (h : SameJobs f F φ source) (hf : f.Forest) (hF : F.Forest) (shell : String)
    (names : BlockNames) : jobBlocks F shell names =
      (jobBlocks f shell names).map fun out => (out.1.map (Block.renamed φ), out.2) := by
  have hjob := h.root
  unfold Script.jobBlocks
  cases hroot : jobRoot? f with
  | none =>
    rw [hroot] at hjob
    simp [jobDrafts, hroot, hjob, Except.map, Draft.blocksOfAll]
  | some root =>
    rw [hroot, Option.map_some] at hjob
    have hmem := mem_roots_of_jobRoot? hroot
    have hsize := hf.root_lt root hmem
    have htree : f.CopiesNodes F φ source {x | x ∈ f.preorder root} :=
      { acyclic := hf.acyclic
        acyclic_copy := hF.acyclic
        child_mem := File.mem_preorder_of_below hf.acyclic hf.closed hsize
        node := h.node root hroot }
    have hself := File.self_mem_preorder hf.acyclic hf.closed hsize
    have hbuild := build_renamed htree (h.injective root hroot) hf.closed hF.closed hself hsize
    rw [jobDrafts_eq hroot, jobDrafts_eq hjob, hbuild]
    cases hm : AliasMap.build f root with
    | error e => rfl
    | ok m =>
      have hbound := BoundTree.of_forest hf hmem .refl hm
      have hmirrors := hbound.mirrors hF.acyclic (h.injective root hroot) (h.node root hroot)
      have hinside : ∀ e ∈ (Scope.mappingEntries? ⟨f, root, m⟩ root).getD [],
          e ∈ f.preorder root := fun e he =>
        hbound.encloses.mem hself (Scope.steps_of_mem_getD_mappingEntries? he)
      show (sectionDrafts _ _).map _ = ((sectionDrafts _ _).map _).map _
      rw [hmirrors.getD_mappingEntries? hself, hmirrors.sectionDrafts hinside]
      cases hdrafts : sectionDrafts ⟨f, root, m⟩
          ((Scope.mappingEntries? ⟨f, root, m⟩ root).getD []) with
      | error e => rfl
      | ok drafts =>
        simp only [Except.map]
        rw [hmirrors.blocksOfAll h.sourceName shell names fun d hd =>
          hmirrors.mem_of_mem_sectionDrafts hinside hdrafts hd]

end PipelineScripts.Script
