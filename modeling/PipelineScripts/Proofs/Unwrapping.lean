import PipelineScripts.Proofs.AliasWalks
import PipelineScripts.Proofs.Behind
import PipelineScripts.Proofs.Forests

/-!
# How far anchors and aliases lead

An anchor stands before a node that is neither an anchor nor an alias, and an alias stands for the
value of an anchor. So one step through anchors and aliases is all there is to take, and the bound
on these steps is never what ends them. Merging keeps this, whatever the files it merges were
merged from.
-/
namespace PipelineScripts.Script

open Yaml Relation

/-- Where the aliases of a tree are bound, each of them stands for the value of an anchor of the
tree. -/
theorem targets_of_build {f : File} (hf : f.Forest) {root : Nat} (hroot : root < f.nodes.size)
    {m : AliasMap} (hbuild : AliasMap.build f root = .ok m) :
    (∀ id, ReflTransGen f.Below root id → ∀ name, f.kind? id = some (.aliasOf name) →
      ∃ target, m.target? id = some target) ∧
    ∀ id target, m.target? id = some target → ReflTransGen f.Below root target ∧
      ∃ k, f.kind? target = some k ∧ k.isBare = true := by
  have hmem := fun x => File.mem_preorder_iff (x := x) hf.acyclic hf.closed hroot
  let P (x : NodeId) : Prop :=
    ReflTransGen f.Below root x ∧ ∃ k, f.kind? x = some k ∧ k.isBare = true
  have hP : ∀ id ∈ f.preorder root, ∀ name value,
      f.kind? id = some (.anchor name value) → P value := by
    intro id hid name value hk
    refine ⟨((hmem id).mp hid).tail ?_, hf.anchored hk⟩
    simp [File.Below, File.children_of_kind? hk, NodeKind.children]
  obtain ⟨w, hwalk, hm⟩ := bind_eq_ok.mp hbuild
  cases hm
  have hend := BoundTo.initial.foldlM hP hwalk
  refine ⟨fun id hid name hk => hend.bound id ((hmem id).mpr hid) name hk, ?_⟩
  intro id target htarget
  exact (hend.targets _ (mem_of_lookup htarget)).2

namespace Scope

variable {s : Scope} {id : NodeId}

/-- Looking through anchors and aliases ends well at a node: what is found is neither an anchor nor
an alias, nothing else is found from there, and it is found after one step at most, which leaves the
bound on the steps alone. -/
structure EndsWell (s : Scope) (id : NodeId) : Prop where
  bare : ∃ k, s.file.kind? (s.unwrap id) = some k ∧ k.isBare = true
  again : s.unwrap (s.unwrap id) = s.unwrap id
  early : ∃ n, n ≤ 1 ∧ n < s.file.nodes.size + 1 ∧ s.BehindIn n id (s.unwrap id)

/-- A node with nothing to look through, or with one step to such a node. -/
theorem endsWell_of_step {id : Nat} {k : NodeKind} (hid : id < s.file.nodes.size)
    (hbare : s.file.kind? ((s.unwrapStep id).getD id) = some k ∧ k.isBare = true) :
    s.EndsWell id := by
  have hend : s.unwrapStep ((s.unwrapStep id).getD id) = none :=
    unwrapStep_of_bare hbare.1 hbare.2
  have hsteps : ∃ n, n ≤ 1 ∧ s.BehindIn n id ((s.unwrapStep id).getD id) := by
    cases hstep : s.unwrapStep id with
    | none => exact ⟨0, Nat.zero_le 1, .here hstep⟩
    | some next =>
      rw [hstep, Option.getD_some] at hend
      exact ⟨1, le_rfl, .step hstep (.here hend)⟩
  obtain ⟨n, hn, hbehind⟩ := hsteps
  have hunwrap : s.unwrap id = (s.unwrapStep id).getD id :=
    unwrapWithin_of_behindIn hbehind (by omega)
  refine ⟨⟨k, hunwrap ▸ hbare⟩, ?_, n, hn, by omega, hunwrap ▸ hbehind⟩
  rw [hunwrap]
  exact unwrap_of_behind (.here hend)

/-- Following keys ends at a node where it cannot go on: behind it stands a node that is neither an
anchor nor an alias, and not a mapping with the next key. -/
def StopsAt (s : Scope) (start : NodeId) (keys : List String) : Prop :=
  ∃ before key after target k, keys = before ++ key :: after ∧
    s.resolvePath? start before = some target ∧ s.file.kind? (s.unwrap target) = some k ∧
    k.isBare = true ∧ ∀ entries, k = .mapping entries →
      ∀ entry ∈ entries, s.file.entryKey? entry ≠ some key

theorem valueOfKey?_eq_none_iff {f : File} {key : String} {entry : NodeId} :
    valueOfKey? f key entry = none ↔ f.entryKey? entry ≠ some key := by
  refine ⟨fun h hkey => ?_, valueOfKey?_eq_none⟩
  unfold File.entryKey? at hkey
  split at hkey
  next hk => simp [valueOfKey?, hk, hkey] at h
  next => cases hkey

/-- A key is missing where no mapping with it is found behind a node. -/
theorem lookup?_eq_none_iff {key : String} {k : NodeKind}
    (hk : s.file.kind? (s.unwrap id) = some k) :
    s.lookup? id key = none ↔ ∀ entries, k = .mapping entries →
      ∀ entry ∈ entries, s.file.entryKey? entry ≠ some key := by
  have hvalues : ∀ entries : List NodeId,
      entries.reverse.findSome? (valueOfKey? s.file key) = none ↔
        ∀ entry ∈ entries, s.file.entryKey? entry ≠ some key := by
    simp [List.findSome?_eq_none_iff, valueOfKey?_eq_none_iff]
  rw [lookup?, mappingEntries?, hk]
  cases k with
  | mapping entries => simpa using hvalues entries
  | _ => simp

/-- Keys lead nowhere just if following them stops, where they are followed through nodes that are
looked through well. -/
theorem resolvePath?_eq_none_iff {T : Set NodeId} (hT : s.Encloses T)
    (hwell : ∀ x ∈ T, s.EndsWell x) (hid : id ∈ T) (keys : List String) :
    s.resolvePath? id keys = none ↔ s.StopsAt id keys := by
  constructor
  · intro h
    induction keys generalizing id with
    | nil => cases h
    | cons key rest ih =>
      rw [resolvePath?_cons] at h
      cases hlookup : s.lookup? id key with
      | none =>
        obtain ⟨k, hk, hbare⟩ := (hwell id hid).bare
        exact ⟨[], key, rest, id, k, rfl, rfl, hk, hbare, (lookup?_eq_none_iff hk).mp hlookup⟩
      | some next =>
        rw [hlookup, Option.bind_some] at h
        obtain ⟨before, stop, after, target, k, rfl, htarget, hstop⟩ :=
          ih (hT.mem hid (steps_of_lookup? hlookup)) h
        refine ⟨key :: before, stop, after, target, k, rfl, ?_, hstop⟩
        rw [resolvePath?_cons, hlookup, Option.bind_some, htarget]
  · rintro ⟨before, key, after, target, k, rfl, htarget, hk, -, hmissing⟩
    have hlookup : s.lookup? target key = none := (lookup?_eq_none_iff hk).mpr hmissing
    rw [resolvePath?, List.foldlM_append, ← resolvePath?, htarget]
    show s.resolvePath? target (key :: after) = none
    rw [resolvePath?_cons, hlookup, Option.bind_none]

end Scope

/-- Looking through anchors and aliases ends well at every node of a tree whose aliases are bound,
whatever was merged into the file, and aliases inside the values of their own anchors included. So
only where no mapping stands behind a node has it no entries, and following keys stops only at a
node that is neither an anchor nor an alias. -/
theorem unwrap_ends_well {f : File} (hf : f.FromReader) {root : Nat} (hroot : root < f.nodes.size)
    {m : AliasMap} (hbuild : AliasMap.build f root = .ok m) {id : NodeId}
    (hid : ReflTransGen f.Below root id) :
    Scope.EndsWell ⟨f, root, m⟩ id ∧
      (Scope.mappingEntries? ⟨f, root, m⟩ id = none → ∃ k,
        f.kind? (Scope.unwrap ⟨f, root, m⟩ id) = some k ∧ k.isBare = true ∧
          ∀ entries, k ≠ .mapping entries) ∧
      ∀ keys, (∀ target, Scope.resolvePath? ⟨f, root, m⟩ id keys = some target →
          Scope.EndsWell ⟨f, root, m⟩ target) ∧
        (Scope.resolvePath? ⟨f, root, m⟩ id keys = none ↔
          Scope.StopsAt ⟨f, root, m⟩ id keys) := by
  have hforest := hf.forest
  obtain ⟨hbound, htargets⟩ := targets_of_build hforest hroot hbuild
  let s : Scope := ⟨f, root, m⟩
  have hencloses : s.Encloses {x | ReflTransGen f.Below root x} := by
    intro a b ha hstep
    cases hstep with
    | down h => exact ReflTransGen.tail ha h
    | aliasOf h => exact (htargets a b h).1
  have hwell : ∀ x, ReflTransGen f.Below root x → s.EndsWell x := by
    intro x hx
    have hlt := File.lt_size_of_reach hforest.closed hroot hx
    obtain ⟨k, hk⟩ : ∃ k, f.kind? x = some k := by
      obtain ⟨n, hn⟩ : ∃ n, f.node? x = some n := ⟨_, Array.getElem?_eq_getElem hlt⟩
      exact ⟨n.kind, by rw [File.kind?, hn, Option.map_some]⟩
    cases k with
    | anchor name value =>
      obtain ⟨k, hvalue⟩ := hforest.anchored hk
      have hstep : s.unwrapStep x = some value := by simp [Scope.unwrapStep, s, hk]
      exact Scope.endsWell_of_step hlt (by rwa [hstep, Option.getD_some])
    | aliasOf name =>
      obtain ⟨target, htarget⟩ := hbound x hx name hk
      obtain ⟨-, k, hvalue⟩ := htargets x target htarget
      have hstep : s.unwrapStep x = some target := by simp [Scope.unwrapStep, s, hk, htarget]
      exact Scope.endsWell_of_step hlt (by rwa [hstep, Option.getD_some])
    | _ =>
      have hstep : s.unwrapStep x = none := Scope.unwrapStep_of_bare hk rfl
      exact Scope.endsWell_of_step hlt (by rw [hstep]; exact ⟨hk, rfl⟩)
  refine ⟨hwell id hid, fun hnone => ?_, fun keys => ⟨fun target htarget => ?_, ?_⟩⟩
  · obtain ⟨k, hk, hbare⟩ := (hwell id hid).bare
    refine ⟨k, hk, hbare, fun entries hmapping => ?_⟩
    subst hmapping
    unfold Scope.mappingEntries? at hnone
    rw [show f.kind? (Scope.unwrap ⟨f, root, m⟩ id) = _ from hk] at hnone
    cases hnone
  · exact hwell target (hencloses.mem hid (Scope.steps_of_resolvePath? htarget))
  · exact Scope.resolvePath?_eq_none_iff hencloses hwell hid keys

/-- A pipeline with an alias inside the value of its own anchor, and one with an alias of that
anchor. -/
def knottedPipelines : List (String × String) :=
  [("a.yml", ".base: &base\n  script: [one, *base]\n"), ("b.yml", "job:\n  extra: *base\n")]

/-- The alias inside the value of its anchor leads to the mapping it stands in. -/
theorem knottedPipelines_end_well :
    ∃ files f, knottedPipelines.mapM (fun i => File.parseFragment i.1 i.2) = .ok files ∧
      File.merge files = .ok f ∧ AliasMap.build f 9 = .ok ⟨[(3, 6), (12, 6)]⟩ ∧
      f.kind? 7 = some (.anchor "base" 6) ∧ f.kind? 3 = some (.aliasOf "base") ∧
      3 ∈ f.preorder 6 ∧ Scope.unwrap ⟨f, 9, ⟨[(3, 6), (12, 6)]⟩⟩ 3 = 6 ∧
      Scope.EndsWell ⟨f, 9, ⟨[(3, 6), (12, 6)]⟩⟩ 3 ∧
      Scope.StopsAt ⟨f, 9, ⟨[(3, 6), (12, 6)]⟩⟩ 9 ["job", "extra", "missing"] := by
  have hrun : ((knottedPipelines.mapM fun i => File.parseFragment i.1 i.2).toOption.bind
      fun files => (File.merge files).toOption.map fun f => decide (f.nodes.size = 17 ∧
        (AliasMap.build f 9).toOption = some ⟨[(3, 6), (12, 6)]⟩ ∧
        f.kind? 7 = some (.anchor "base" 6) ∧ f.kind? 3 = some (.aliasOf "base") ∧
        3 ∈ f.preorder 9 ∧ 3 ∈ f.preorder 6 ∧
        Scope.unwrap ⟨f, 9, ⟨[(3, 6), (12, 6)]⟩⟩ 3 = 6 ∧
        Scope.resolvePath? ⟨f, 9, ⟨[(3, 6), (12, 6)]⟩⟩ 9 ["job", "extra", "missing"] = none)) =
      some true := by
    decide +kernel
  obtain ⟨files, hfiles, hrun⟩ := Option.bind_eq_some_iff.mp hrun
  obtain ⟨f, hmerge, hrun⟩ := Option.map_eq_some_iff.mp hrun
  obtain ⟨hsize, hbuild, hanchor, halias, hbelow, hinside, hunwrap, hnone⟩ :=
    of_decide_eq_true hrun
  have hfiles := toOption_eq_some.mp hfiles
  have hmerge := toOption_eq_some.mp hmerge
  have hbuild := toOption_eq_some.mp hbuild
  have hread : f.FromReader := .merged (File.FromReader.of_fragments hfiles) hmerge
  have hroot : 9 < f.nodes.size := by
    rw [hsize]
    decide
  have hforest := hread.forest
  have hreach := (File.mem_preorder_iff hforest.acyclic hforest.closed hroot).mp hbelow
  obtain ⟨hwell, -⟩ := unwrap_ends_well hread hroot hbuild hreach
  obtain ⟨-, -, hkeys⟩ := unwrap_ends_well hread hroot hbuild .refl
  exact ⟨files, f, hfiles, hmerge, hbuild, hanchor, halias, hinside, hunwrap, hwell,
    (hkeys ["job", "extra", "missing"]).2.mp hnone⟩

end PipelineScripts.Script
