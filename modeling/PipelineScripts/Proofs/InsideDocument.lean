import PipelineScripts.Proofs.CopiedDocument

/-!
# Inside one document

An expansion goes down the tree, from aliases to what they stand for, and from references to the
root, from where their keys are followed. In a document whose aliases are bound none of this leaves
the document, and no alias without a target is met. So what is extracted from a document depends on
no other document of the file.
-/
namespace PipelineScripts.Script

open Yaml Relation

namespace Scope

/-- One node is visited right behind another: by a step of a look-up, or because the keys of a
reference are followed from the root. -/
inductive Visits (s : Scope) (a : NodeId) : NodeId → Prop
  | step {b} (h : s.Step a b) : Visits s a b
  | root {keys} (h : referencePath? s.file a = some keys) : Visits s a s.root

/-- What starts at a node stays among certain nodes: all that is visited, the calls of an expansion,
the entries of a mapping, the ways that keys lead, and the sections of a job. -/
structure StaysIn (s : Scope) (T : Set NodeId) (x : NodeId) : Prop where
  visits : ∀ y, ReflTransGen s.Visits x y → y ∈ T
  calls : ∀ p call, ReflTransGen s.Calls ⟨p, x⟩ call → call.node ∈ T
  entries : ∀ entries, s.mappingEntries? x = some entries → ∀ e ∈ entries, e ∈ T
  paths : ∀ keys target, s.resolvePath? x keys = some target → target ∈ T
  sections : ∀ y ∈ sectionsOf s x, y.1 ∈ T

/-- Two scopes do the same with a node. -/
structure AgreesAt (s S : Scope) (x : NodeId) : Prop where
  expand : S.expand x = s.expand x
  entries : S.mappingEntries? x = s.mappingEntries? x
  paths : ∀ keys, S.resolvePath? x keys = s.resolvePath? x keys
  sections : sectionsOf S x = sectionsOf s x

variable {s : Scope} {a b : NodeId}

theorem visits_of_steps (h : ReflTransGen s.Step a b) : ReflTransGen s.Visits a b :=
  h.lift id fun _ _ => .step

theorem Calls.visits {c c' : Call} (h : s.Calls c c') : ReflTransGen s.Visits c.node c'.node := by
  cases h with
  | down h => exact .single (.step (.down h.below))
  | jump h =>
    cases h with
    | aliasOf hk htarget => exact .single (.step (.aliasOf htarget))
    | reference hk hpath htarget =>
      exact (visits_of_steps (steps_of_resolvePath? htarget)).head (.root hpath)

theorem visits_of_calls {c c' : Call} (h : ReflTransGen s.Calls c c') :
    ReflTransGen s.Visits c.node c'.node := by
  induction h with
  | refl => exact .refl
  | tail _ hstep ih => exact ih.trans hstep.visits

/-- Nodes that no step leaves are not left at all if the root is one of them. -/
theorem Encloses.staysIn {T : Set NodeId} (h : s.Encloses T) (hroot : s.root ∈ T) (ha : a ∈ T) :
    s.StaysIn T a := by
  have hvisits : ∀ b, ReflTransGen s.Visits a b → b ∈ T := by
    intro b hb
    induction hb with
    | refl => exact ha
    | tail _ hstep ih =>
      cases hstep with
      | step hstep => exact h _ _ ih hstep
      | root => exact hroot
  exact {
    visits := hvisits
    calls := fun p call hcalls => hvisits _ (visits_of_calls hcalls)
    entries := fun entries hentries e he => h.mem ha (steps_of_mem_mappingEntries? hentries he)
    paths := fun keys target htarget => h.mem ha (steps_of_resolvePath? htarget)
    sections := fun y hy => h.mem ha (steps_of_mem_sectionsOf hy) }

end Scope

/-! ### Bound documents -/

namespace BoundTree

variable {f : File} {root x : NodeId} {m : AliasMap}

theorem staysIn (h : BoundTree f root m) (hx : x ∈ f.preorder root) :
    Scope.StaysIn ⟨f, root, m⟩ {y | y ∈ f.preorder root} x :=
  h.encloses.staysIn h.root_mem hx

/-- Where all aliases are bound, only a cycle is an error. -/
theorem exists_cycle_of_error (h : BoundTree f root m) (hx : x ∈ f.preorder root) {p : InProgress}
    {d : Option Directive} {e : ExtractError}
    (herror : Scope.expandFrom ⟨f, root, m⟩ p d x = .error e) :
    ∃ path, e = .referenceCycle path := by
  obtain ⟨call, hcalls, hrefuses⟩ := Scope.exists_refuses h.forest.acyclic herror
  cases hrefuses with
  | unbound hk htarget =>
    obtain ⟨t, ht⟩ := h.exists_target ((h.staysIn hx).calls p call hcalls) hk
    cases ht.symm.trans htarget
  | aliasOf => exact ⟨_, rfl⟩
  | reference => exact ⟨_, rfl⟩

/-- Nothing is read of a file but the nodes of the tree. -/
theorem agreesAt (h : BoundTree f root m) (hx : x ∈ f.preorder root) {F : File} (hF : F.Acyclic)
    (hsame : ∀ y ∈ f.preorder root, F.node? y = f.node? y) :
    Scope.AgreesAt ⟨f, root, m⟩ ⟨F, root, m⟩ x := by
  have hnode : ∀ y ∈ f.preorder root,
      F.node? (id y) = (f.node? y).map (Node.renamed id 0) := by
    intro y hy
    rw [id, hsame y hy, Node.renamed_id, Option.map_id_fun, id]
  have hmirrors := h.mirrors hF Function.injective_id.injOn hnode
  rw [AliasMap.renamed_id, id] at hmirrors
  constructor
  · simpa [Except.map_id] using hmirrors.expand hx
  · simpa using hmirrors.mappingEntries? hx
  · intro keys
    simpa using hmirrors.resolvePath? keys hx
  · simpa using hmirrors.sectionsOf hx

/-- The same for the sections of jobs. -/
theorem exists_cycle_of_sectionDrafts_error (h : BoundTree f root m) {entries : List NodeId}
    (hentries : ∀ entry ∈ entries, entry ∈ f.preorder root) {e : ExtractError}
    (herror : sectionDrafts ⟨f, root, m⟩ entries = .error e) :
    ∃ path, e = .referenceCycle path := by
  obtain ⟨y, hy, hfragments⟩ := exists_of_concatResults_eq_error herror
  obtain ⟨entry, hentry, hy⟩ := List.mem_flatMap.mp hy
  have hmem := (h.staysIn (hentries entry hentry)).sections y hy
  have hexpand := map_eq_error.mp hfragments
  unfold entryFragments at hexpand
  split at hexpand
  next key value comments hk =>
    refine h.exists_cycle_of_error (h.child_mem hmem ?_) hexpand
    simp [File.Below, File.children_of_kind? hk, NodeKind.children]
  next => cases hexpand

end BoundTree

/-! ### Jobs -/

/-- An alias stops the extraction of jobs only where it stops the walk that binds aliases. -/
theorem jobBlocks_eq_unresolvedAlias {f : File} (hf : f.Forest) {shell : String}
    {names : BlockNames}
    {name : String} {line : Nat} : jobBlocks f shell names = .error (.unresolvedAlias name line) ↔
      ∃ root, jobRoot? f = some root ∧
        AliasMap.build f root = .error (.unresolvedAlias name line) := by
  rw [jobBlocks, map_eq_error]
  constructor
  · intro h
    cases hroot : jobRoot? f with
    | none => simp [jobDrafts, hroot] at h
    | some root =>
      refine ⟨root, rfl, ?_⟩
      rw [jobDrafts_eq hroot] at h
      cases hbuild : AliasMap.build f root with
      | error e =>
        rw [hbuild] at h
        cases h
        rfl
      | ok m =>
        rw [hbuild] at h
        have hbound := BoundTree.of_forest hf (mem_roots_of_jobRoot? hroot) .refl hbuild
        obtain ⟨path, hpath⟩ := hbound.exists_cycle_of_sectionDrafts_error
          (fun entry hentry => hbound.encloses.mem hbound.root_mem
            (Scope.steps_of_mem_getD_mappingEntries? hentry)) h
        cases hpath
  · rintro ⟨root, hroot, hbuild⟩
    rw [jobDrafts_eq hroot, hbuild]
    rfl

/-- Extraction of a document stays inside the document. In a tree whose aliases are bound, nothing
that starts at a node of the tree visits any other node, no alias without a target is met, and the
same is done in every other file that has the nodes of the tree. An unbound alias is reported for
the jobs of a file exactly if the walk through their document reports it. And wherever that document
stands, whatever the other documents of the file are, the jobs have the same blocks, or cannot be
extracted for the same reason. -/
theorem extraction_stays_inside {f : File} (hf : f.FromReader) :
    (∀ root ∈ f.roots, ∀ r, ReflTransGen f.Below root r → ∀ m, AliasMap.build f r = .ok m →
      ∀ x ∈ f.preorder r,
        Scope.StaysIn ⟨f, r, m⟩ {y | y ∈ f.preorder r} x ∧
        (∀ p d e, Scope.expandFrom ⟨f, r, m⟩ p d x = .error e → ∃ path, e = .referenceCycle path) ∧
        ∀ F : File, F.Acyclic → (∀ y ∈ f.preorder r, F.node? y = f.node? y) →
          Scope.AgreesAt ⟨f, r, m⟩ ⟨F, r, m⟩ x) ∧
      (∀ shell names name line, jobBlocks f shell names = .error (.unresolvedAlias name line) ↔
        ∃ root, jobRoot? f = some root ∧
          AliasMap.build f root = .error (.unresolvedAlias name line)) ∧
      ∀ (F : File) (φ : NodeId → NodeId) (source : Nat), F.FromReader → SameJobs f F φ source →
        ∀ shell names, jobBlocks F shell names =
          (jobBlocks f shell names).map fun out => (out.1.map (Block.renamed φ), out.2) := by
  refine ⟨?_, fun _ _ _ _ => jobBlocks_eq_unresolvedAlias hf.forest, ?_⟩
  · intro root hroot r hr m hbuild x hx
    have hbound := BoundTree.of_forest hf.forest hroot hr hbuild
    exact ⟨hbound.staysIn hx, fun _ _ _ => hbound.exists_cycle_of_error hx,
      fun _ hF hsame => hbound.agreesAt hx hF hsame⟩
  · intro F φ source hF hsame shell names
    exact hsame.jobBlocks hf.forest hF.forest shell names

/-- A pipeline with a document in front of the one with its jobs. -/
def headedPipeline (header : String) : String :=
  header ++ "\n---\n.base: &base\n  script: echo\njob:\n  <<: *base\n"

/-- Behind a header with one more node the job has the same block. -/
theorem headedPipeline_stays_inside : ∃ f F m,
    File.parse "ci.yml" (headedPipeline "spec") = .ok f ∧
    File.parse "ci.yml" (headedPipeline "[spec]") = .ok F ∧
    14 ∈ f.roots ∧ AliasMap.build f 14 = .ok m ∧
    Scope.StaysIn ⟨f, 14, m⟩ {y | y ∈ f.preorder 14} 14 ∧ SameJobs f F (· + 1) 0 ∧
    (jobBlocks f "sh" {}).toOption.map (fun out => out.1.map fun b => (b.name, b.script)) =
      some [("job_script", "echo")] ∧
    jobBlocks F "sh" {} =
      (jobBlocks f "sh" {}).map fun out => (out.1.map (Block.renamed (· + 1)), out.2) := by
  have hrun : ((File.parse "ci.yml" (headedPipeline "spec")).toOption.bind fun f =>
      (File.parse "ci.yml" (headedPipeline "[spec]")).toOption.map fun F =>
        ((f.documents, f.name, f.sources), (F.documents, F.name, F.sources),
          decide (∀ x ∈ f.preorder 14,
            F.node? (x + 1) = (f.node? x).map (Node.renamed (· + 1) 0)))) =
      some (([some 0, some 14], "ci.yml", ["ci.yml"]), ([some 1, some 15], "ci.yml", ["ci.yml"]),
        true) := by decide +kernel
  have hblocks : (File.parse "ci.yml" (headedPipeline "spec")).toOption.map (fun f =>
      ((AliasMap.build f 14).toOption.isSome,
        (jobBlocks f "sh" {}).toOption.map fun out => out.1.map fun b => (b.name, b.script))) =
      some (true, some [("job_script", "echo")]) := by decide +kernel
  obtain ⟨f, hf, hrun⟩ := Option.bind_eq_some_iff.mp hrun
  obtain ⟨F, hF, hrun⟩ := Option.map_eq_some_iff.mp hrun
  rw [hf, Option.map_some, Option.some.injEq] at hblocks
  simp only [Prod.mk.injEq, decide_eq_true_eq] at hrun hblocks
  obtain ⟨⟨hdocuments, hname, hsources⟩, ⟨hdocuments', hname', hsources'⟩, hnodes⟩ := hrun
  obtain ⟨hbuild, hblocks⟩ := hblocks
  obtain ⟨m, hm⟩ := Option.isSome_iff_exists.mp hbuild
  have hread := toOption_eq_some.mp hf
  have hread' := toOption_eq_some.mp hF
  have hbuild := toOption_eq_some.mp hm
  have hroot : 14 ∈ f.roots := by simp [File.roots, hdocuments]
  have hforest := (File.FromReader.alone hread).forest
  have hself := File.self_mem_preorder hforest.acyclic hforest.closed (hforest.root_lt 14 hroot)
  have hjob : jobRoot? f = some 14 := by simp [jobRoot?, jobDocument?, hdocuments]
  have hjobs : SameJobs f F (· + 1) 0 := by
    refine ⟨?_, fun _ _ _ _ _ _ heq => Nat.add_right_cancel heq, ?_, fun i => ?_⟩
    · simp [jobRoot?, jobDocument?, hdocuments, hdocuments']
    · rintro root hroot
      cases hjob.symm.trans hroot
      exact hnodes
    · rw [File.sourceName, File.sourceName, hname, hname', hsources, hsources']
      rfl
  obtain ⟨hinside, -, hsame⟩ := extraction_stays_inside (.alone hread)
  refine ⟨f, F, m, hread, hread', hroot, hbuild, ?_, hjobs, hblocks, ?_⟩
  · exact (hinside 14 hroot 14 .refl m hbuild 14 hself).1
  · exact hsame F _ 0 (.alone hread') hjobs "sh" {}

end PipelineScripts.Script
