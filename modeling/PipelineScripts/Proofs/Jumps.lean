import Mathlib.Data.List.Perm.Subperm
import PipelineScripts.Proofs.Expansion

/-!
# Jumps in progress

An expansion keeps the aliases and references whose own expansion goes on. Each of them leads to
the node that is being expanded, and no two of them are alike, so there are never more than the
file has nodes. A node that has a meaning is not led to by itself; so on the way to a meaning no
jump is refused.
-/
namespace PipelineScripts.Script

open Yaml Relation

/-- Of two tests that exclude each other, no more pass than there are items. -/
theorem countP_add_countP_le {α : Type} {p q : α → Bool} (h : ∀ a, p a = true → q a = false)
    (l : List α) : l.countP p + l.countP q ≤ l.length := by
  induction l with
  | nil => simp
  | cons a rest ih =>
    have ha := h a
    simp only [List.countP_cons, List.length_cons]
    split_ifs with hp hq
    · simp [ha hp] at hq
    all_goals omega

namespace Scope

/-- Every way on from a node that has a meaning comes to an end. -/
theorem Expands.acc {s : Scope} {d : Option Directive} {id : NodeId} {out : List Fragment}
    (h : s.Expands d id out) : Acc (fun b a => s.Follows a b) id := by
  induction h with
  | @sequence d id items comments parts hk hlength hitems ih =>
    refine Acc.intro _ fun next hnext => ?_
    have hmem : next ∈ items := by simpa [Follows, successors, hk] using hnext
    obtain ⟨i, hi, rfl⟩ := List.getElem_of_mem hmem
    have hi' : i < parts.length := by omega
    exact ih i _ _ (List.getElem?_eq_getElem hi) (List.getElem?_eq_getElem hi')
  | @anchor d id name value out hk hvalue ih =>
    refine Acc.intro _ fun next hnext => ?_
    have heq : next = value := by simpa [Follows, successors, hk] using hnext
    exact heq ▸ ih
  | @tagged d id tag value out hk htag hvalue ih =>
    refine Acc.intro _ fun next hnext => ?_
    have heq : next = value := by simpa [Follows, successors, hk, htag] using hnext
    exact heq ▸ ih
  | @aliasOf d id name target out hk htarget hvalue ih =>
    refine Acc.intro _ fun next hnext => ?_
    have heq : next = target := by simpa [Follows, successors_aliasOf hk, htarget] using hnext
    exact heq ▸ ih
  | @reference d id value keys target out hk hpath htarget hvalue ih =>
    refine Acc.intro _ fun next hnext => ?_
    have heq : next = target := by
      simpa [Follows, successors_reference hk hpath, htarget] using hnext
    exact heq ▸ ih
  | malformed hk hpath =>
    refine Acc.intro _ fun next hnext => ?_
    simp [Follows, successors, hk, resolveReference?, hpath] at hnext
  | notFound hk hpath htarget =>
    refine Acc.intro _ fun next hnext => ?_
    simp [Follows, successors_reference hk hpath, htarget] at hnext
  | scalar hk | literal hk | folded hk | mapping hk | entry hk | absent hk =>
    refine Acc.intro _ fun next hnext => ?_
    simp [Follows, successors, hk] at hnext

theorem Expands.not_led_to_itself {s : Scope} {d : Option Directive} {id : NodeId}
    {out : List Fragment} (h : s.Expands d id out) : ¬ TransGen s.Follows id id := by
  have hacc := h.acc
  clear h
  induction hacc with
  | intro id _ ih =>
    intro hloop
    obtain ⟨next, hstep, hback⟩ := TransGen.head'_iff.mp hloop
    exact ih next hstep (TransGen.tail' hback hstep)

end Scope

namespace InProgress

/-- The number of jumps in progress. -/
def count (p : InProgress) : Nat := p.references.length + p.aliases.length

/-- What holds of the jumps in progress when an expansion that began at `start` is at `id`: each
leads there, and each is in progress once. -/
structure Leads (s : Scope) (start : NodeId) (p : InProgress) (id : NodeId) : Prop where
  reached : ReflTransGen s.Follows start id
  aliases : ∀ a ∈ p.aliases,
    (∃ name, s.file.kind? a = some (.aliasOf name)) ∧ TransGen s.Follows a id
  references : ∀ path ∈ p.references, ∃ x keys target,
    ReflTransGen s.Follows start x ∧ referencePath? s.file x = some keys ∧
      Text.joinStrings "." keys = path ∧ s.resolvePath? s.root keys = some target ∧
      ReflTransGen s.Follows target id
  nodup_aliases : p.aliases.Nodup
  nodup_references : p.references.Nodup

namespace Leads

variable {s : Scope} {start id next : NodeId} {p : InProgress}

theorem initial (s : Scope) (start : NodeId) : Leads s start {} start where
  reached := .refl
  aliases := by simp
  references := by simp
  nodup_aliases := by simp
  nodup_references := by simp

/-- A step down starts no jump. -/
theorem step (h : p.Leads s start id) (hstep : s.Follows id next) : p.Leads s start next where
  reached := h.reached.tail hstep
  aliases := fun a ha => ⟨(h.aliases a ha).1, (h.aliases a ha).2.tail hstep⟩
  references := by
    intro path hpath
    obtain ⟨x, keys, target, hx, hkeys, hspelled, htarget, hled⟩ := h.references path hpath
    exact ⟨x, keys, target, hx, hkeys, hspelled, htarget, hled.tail hstep⟩
  nodup_aliases := h.nodup_aliases
  nodup_references := h.nodup_references

theorem jumpAlias {name : String} {target : NodeId} (h : p.Leads s start id)
    (hk : s.file.kind? id = some (.aliasOf name)) (htarget : s.aliases.target? id = some target)
    (hnew : id ∉ p.aliases) :
    Leads s start { p with aliases := id :: p.aliases } target := by
  have hstep : s.Follows id target := by simp [Scope.Follows, Scope.successors_aliasOf hk, htarget]
  have hnext := h.step hstep
  refine ⟨hnext.reached, ?_, hnext.references, List.nodup_cons.mpr ⟨hnew, h.nodup_aliases⟩,
    h.nodup_references⟩
  intro a ha
  rcases List.mem_cons.mp ha with rfl | ha
  · exact ⟨⟨name, hk⟩, .single hstep⟩
  · exact hnext.aliases a ha

theorem jumpReference {value : NodeId} {keys : List String} {target : NodeId}
    (h : p.Leads s start id) (hk : s.file.kind? id = some (.tagged referenceTag value))
    (hpath : referencePath? s.file id = some keys)
    (htarget : s.resolvePath? s.root keys = some target)
    (hnew : Text.joinStrings "." keys ∉ p.references) :
    Leads s start { p with references := Text.joinStrings "." keys :: p.references } target := by
  have hstep : s.Follows id target := by
    simp [Scope.Follows, Scope.successors_reference hk hpath, htarget]
  have hnext := h.step hstep
  refine ⟨hnext.reached, hnext.aliases, ?_, h.nodup_aliases,
    List.nodup_cons.mpr ⟨hnew, h.nodup_references⟩⟩
  intro path hmem
  rcases List.mem_cons.mp hmem with rfl | hmem
  · exact ⟨id, keys, target, h.reached, hpath, rfl, htarget, .refl⟩
  · exact hnext.references path hmem

/-- The aliases in progress are nodes of one kind, the references belong to nodes of another. -/
theorem count_le (h : p.Leads s start id) : p.count ≤ s.file.nodes.size := by
  let isAlias := fun a => (s.file.kind? a).any (· matches .aliasOf _)
  let spelling? := fun a => (referencePath? s.file a).map (Text.joinStrings ".")
  let ids := List.range s.file.nodes.size
  have haliases : p.aliases ⊆ ids.filter isAlias := by
    intro a ha
    obtain ⟨⟨name, hk⟩, -⟩ := h.aliases a ha
    simp [ids, isAlias, hk, File.lt_size_of_kind? hk]
  have hreferences : p.references ⊆ ids.filterMap spelling? := by
    intro path hpath
    obtain ⟨x, keys, target, -, hkeys, hspelled, -⟩ := h.references path hpath
    have hx : x < s.file.nodes.size := lt_size_of_referencePath? hkeys
    simp only [List.mem_filterMap, ids, List.mem_range, spelling?]
    exact ⟨x, hx, by rw [hkeys, Option.map_some, hspelled]⟩
  have hdisjoint : ∀ a, isAlias a = true → (spelling? a).isSome = false := by
    intro a ha
    simp only [isAlias] at ha
    cases hk : s.file.kind? a with
    | none => simp [hk] at ha
    | some k => cases k <;> simp_all [spelling?, referencePath?]
  have hle := (List.subperm_of_subset h.nodup_aliases haliases).length_le
  have hle' := (List.subperm_of_subset h.nodup_references hreferences).length_le
  rw [← List.countP_eq_length_filter] at hle
  rw [List.length_filterMap_eq_countP] at hle'
  have htotal := countP_add_countP_le hdisjoint ids
  simp only [ids, List.length_range] at htotal hle hle'
  unfold count
  omega

end Leads

end InProgress

namespace Scope

variable {s : Scope} {start : NodeId}

/-- An alias in progress is not met again where there is a meaning. -/
theorem alias_not_in_progress {d : Option Directive} {id : NodeId} {out : List Fragment}
    {p : InProgress} (hp : p.Leads s start id) (h : s.Expands d id out) : id ∉ p.aliases := by
  intro hmem
  exact h.not_led_to_itself (hp.aliases id hmem).2

/-- A reference in progress is not met again where there is a meaning. The same spelling would
mean the same keys, hence the same target, which would lead to itself. -/
theorem reference_not_in_progress (hspellings : s.DistinctSpellings start) {d : Option Directive}
    {id value target : NodeId} {keys : List String} {out : List Fragment} {p : InProgress}
    (hp : p.Leads s start id) (hk : s.file.kind? id = some (.tagged referenceTag value))
    (hpath : referencePath? s.file id = some keys)
    (htarget : s.resolvePath? s.root keys = some target) (h : s.Expands d target out) :
    Text.joinStrings "." keys ∉ p.references := by
  intro hmem
  obtain ⟨x, keys', target', hx, hkeys', hspelled, htarget', hled⟩ := hp.references _ hmem
  have hsame : keys' = keys :=
    hspellings keys' keys ⟨x, hx, hkeys'⟩ ⟨id, hp.reached, hpath⟩ hspelled
  rw [hsame, htarget] at htarget'
  cases htarget'
  have hstep : s.Follows id target := by simp [Follows, successors_reference hk hpath, htarget]
  exact h.not_led_to_itself (TransGen.tail' hled hstep)

/-- A jump just made is in progress and counted, so one of those to come is left for it. -/
theorem expandWithin_of_expandTree {p : InProgress} {jumps : Nat} {d : Option Directive}
    {target : NodeId} {out : List Fragment} (hp : p.Leads s start target)
    (hjumps : p.count + jumps = s.file.nodes.size + 1)
    (htree : ∀ {p : InProgress} {jumps depth : Nat}, p.Leads s start target →
      p.count + jumps = s.file.nodes.size → s.file.height target < depth →
      s.expandTree (s.expandWithin jumps) depth p d target = .ok out) :
    s.expandWithin jumps p d target = .ok out := by
  have hcount := hp.count_le
  have hheight := s.file.height_le target
  obtain ⟨jumps, rfl⟩ : ∃ n, jumps = n + 1 := ⟨jumps - 1, by omega⟩
  exact htree hp (by omega) (by omega)

/-- The walk down returns the meaning, as long as the depth covers the tree below the node and the
jumps in progress and those to come make up the nodes of the file. -/
theorem expandTree_of_expands (hf : s.file.Acyclic) (hspellings : s.DistinctSpellings start)
    {d : Option Directive} {id : NodeId} {out : List Fragment} (h : s.Expands d id out) :
    ∀ {p : InProgress} {jumps depth : Nat}, p.Leads s start id →
      p.count + jumps = s.file.nodes.size → s.file.height id < depth →
      s.expandTree (s.expandWithin jumps) depth p d id = .ok out := by
  induction h with
  | scalar hk | literal hk | folded hk | mapping hk | entry hk | absent hk =>
    intro p jumps depth hp hjumps hdepth
    obtain ⟨depth, rfl⟩ : ∃ n, depth = n + 1 := ⟨depth - 1, by omega⟩
    simp [expandTree, hk, leafFragment?]
  | malformed hk hpath =>
    intro p jumps depth hp hjumps hdepth
    obtain ⟨depth, rfl⟩ : ∃ n, depth = n + 1 := ⟨depth - 1, by omega⟩
    simp [expandTree, hk, followReference, hpath]
  | notFound hk hpath htarget =>
    intro p jumps depth hp hjumps hdepth
    obtain ⟨depth, rfl⟩ : ∃ n, depth = n + 1 := ⟨depth - 1, by omega⟩
    simp [expandTree, hk, followReference, hpath, htarget]
  | @anchor d id name value out hk hvalue ih =>
    intro p jumps depth hp hjumps hdepth
    obtain ⟨depth, rfl⟩ : ∃ n, depth = n + 1 := ⟨depth - 1, by omega⟩
    have hbelow : s.file.Below id value := by
      simp [File.Below, File.children_of_kind? hk, NodeKind.children]
    have hlt := File.height_lt hf hbelow
    have hstep : s.Follows id value := by simp [Follows, successors, hk]
    simpa [expandTree, hk] using ih (hp.step hstep) hjumps (by omega)
  | @tagged d id tag value out hk htag hvalue ih =>
    intro p jumps depth hp hjumps hdepth
    obtain ⟨depth, rfl⟩ : ∃ n, depth = n + 1 := ⟨depth - 1, by omega⟩
    have hbelow : s.file.Below id value := by
      simp [File.Below, File.children_of_kind? hk, NodeKind.children]
    have hlt := File.height_lt hf hbelow
    have hstep : s.Follows id value := by simp [Follows, successors, hk, htag]
    simpa [expandTree, hk, htag] using ih (hp.step hstep) hjumps (by omega)
  | @sequence d id items comments parts hk hlength hitems ih =>
    intro p jumps depth hp hjumps hdepth
    obtain ⟨depth, rfl⟩ : ∃ n, depth = n + 1 := ⟨depth - 1, by omega⟩
    simp only [expandTree, hk]
    refine concatResults_eq_ok.mpr ⟨parts, List.forall₂_iff_get.mpr ⟨?_, ?_⟩, rfl⟩
    · simp [itemDirectives, hlength]
    · intro i hi hi'
      have hitem : i < items.length := by omega
      have hat := itemDirectives_getElem? d items comments i
      rw [List.getElem?_eq_getElem hi, List.getElem?_eq_getElem hitem] at hat
      simp only [Option.map_some, Option.some.injEq] at hat
      have hmem : items[i] ∈ items := List.getElem_mem hitem
      have hbelow : s.file.Below id items[i] := by
        simp [File.Below, File.children_of_kind? hk, NodeKind.children]
      have hlt := File.height_lt hf hbelow
      have hstep : s.Follows id items[i] := by simp [Follows, successors, hk]
      rw [List.get_eq_getElem, hat]
      exact ih i _ _ (List.getElem?_eq_getElem hitem) (List.getElem?_eq_getElem hi')
        (hp.step hstep) hjumps (by omega)
  | @aliasOf d id name target out hk htarget hvalue ih =>
    intro p jumps depth hp hjumps hdepth
    obtain ⟨depth, rfl⟩ : ∃ n, depth = n + 1 := ⟨depth - 1, by omega⟩
    have hnew := alias_not_in_progress hp (.aliasOf hk htarget hvalue)
    have hp' := hp.jumpAlias hk htarget hnew
    have hjumps' : InProgress.count { p with aliases := id :: p.aliases } + jumps =
        s.file.nodes.size + 1 := by
      simp only [InProgress.count, List.length_cons] at hjumps ⊢
      omega
    have hgo := expandWithin_of_expandTree hp' hjumps' ih
    simpa [expandTree, hk, followAlias, htarget, hnew] using hgo
  | @reference d id value keys target out hk hpath htarget hvalue ih =>
    intro p jumps depth hp hjumps hdepth
    obtain ⟨depth, rfl⟩ : ∃ n, depth = n + 1 := ⟨depth - 1, by omega⟩
    have hnew := reference_not_in_progress hspellings hp hk hpath htarget hvalue
    have hp' := hp.jumpReference hk hpath htarget hnew
    have hjumps' : InProgress.count
        { p with references := Text.joinStrings "." keys :: p.references } + jumps =
          s.file.nodes.size + 1 := by
      simp only [InProgress.count, List.length_cons] at hjumps ⊢
      omega
    have hgo := expandWithin_of_expandTree hp' hjumps' ih
    simpa [expandTree, hk, followReference, hpath, htarget, hnew] using hgo

/-- An expansion returns exactly the meaning of a node: whatever it returns is the meaning, and
the meaning is returned if the references met are told apart by their spelling. -/
theorem expand_refines_meaning (s : Scope) (hf : s.file.Acyclic) (id : NodeId)
    (out : List Fragment) :
    (s.expand id = .ok out → s.Expands none id out) ∧
      (s.Expands none id out → s.DistinctSpellings id → s.expand id = .ok out) := by
  refine ⟨expands_of_expandWithin, fun h hspellings => ?_⟩
  have hheight := s.file.height_le id
  exact expandTree_of_expands hf hspellings h (InProgress.Leads.initial s id)
    (by simp [InProgress.count]) (by omega)

/-- A section that uses one alias and one reference several times, side by side and nested. -/
def sharedJumps : Scope :=
  let node := fun kind => (⟨kind, ⟨1, 1⟩, "$", 0⟩ : Node)
  { file :=
      { name := "ci.yml"
        sources := ["ci.yml"]
        documents := [some 16]
        nodes := #[node (.scalar "a" .plain), node (.scalar "make" .plain), node (.anchor "x" 1),
          node (.entry 0 2 []), node (.scalar "b" .plain), node (.aliasOf "x"),
          node (.scalar "a" .plain), node (.sequence [6] [[]]), node (.tagged "!reference" 7),
          node (.aliasOf "x"), node (.scalar "a" .plain), node (.sequence [10] [[]]),
          node (.tagged "!reference" 11), node (.sequence [9, 12] [[], []]),
          node (.sequence [5, 8, 13] [[], [], []]), node (.entry 4 14 []),
          node (.mapping [3, 15])] }
    root := 16
    aliases := ⟨[(5, 1), (9, 1)]⟩ }

/-- The script is found four times: no second use of the alias or the reference is refused, and
what is returned is the meaning. -/
theorem sharedJumps_expand :
    sharedJumps.file.Acyclic ∧ sharedJumps.DistinctSpellings 14 ∧
      sharedJumps.expand 14 = .ok (List.replicate 4 ⟨"make", 1, none, 0⟩) ∧
      sharedJumps.Expands none 14 (List.replicate 4 ⟨"make", 1, none, 0⟩) := by
  have hf : sharedJumps.file.Acyclic := File.acyclic_of_children_lt (by decide)
  have hspellings : sharedJumps.DistinctSpellings 14 := by
    have honly : ∀ id < sharedJumps.file.nodes.size,
        referencePath? sharedJumps.file id ∈ [none, some ["a"]] := by decide
    have hkeys : ∀ keys, sharedJumps.MeetsReference 14 keys → keys = ["a"] := by
      rintro keys ⟨id, -, hpath⟩
      have h := honly id (lt_size_of_referencePath? hpath)
      simpa [hpath] using h
    intro keys keys' h h' _
    rw [hkeys keys h, hkeys keys' h']
  have hexpands := (expand_refines_meaning sharedJumps hf 14 _).1
    (show sharedJumps.expand 14 = .ok (List.replicate 4 ⟨"make", 1, none, 0⟩) by decide +kernel)
  exact ⟨hf, hspellings, (expand_refines_meaning sharedJumps hf 14 _).2 hexpands hspellings,
    hexpands⟩

end Scope

end PipelineScripts.Script
