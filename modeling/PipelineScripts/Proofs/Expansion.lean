import PipelineScripts.Proofs.Depth
import PipelineScripts.Proofs.Results

/-!
# What an expansion means

`Scope.Expands` says what a section's value stands for, node by node and without any memory of
what is being expanded. `Scope.expand` computes it with a list of the jumps in progress and with
two bounds. Whatever it returns is the meaning; and where there is a meaning it is returned, unless
two references met on the way are spelled alike and name different keys. So a jump that is used
again, beside an earlier use or inside another jump, is never taken for a cycle.
-/
namespace PipelineScripts.Script

open Yaml Relation

/-- The directive of the item with a number: what its own comments say, on top of what holds
around the sequence. -/
def itemDirective (outer : Option Directive) (comments : List (List Comment)) (i : Nat) :
    Option Directive :=
  Directive.combine outer (Directive.ofComments? ((comments[i]?.getD []).map (·.text)))

theorem itemDirectives_getElem? (outer : Option Directive) (items : List NodeId)
    (comments : List (List Comment)) (i : Nat) :
    (itemDirectives outer items comments)[i]? =
      items[i]?.map fun item => (item, itemDirective outer comments i) := by
  simp only [itemDirectives, List.getElem?_map, List.getElem?_zipIdx]
  cases items[i]? <;> simp [itemDirective]

theorem lt_size_of_referencePath? {f : File} {id : NodeId} {keys : List String}
    (h : referencePath? f id = some keys) : id < f.nodes.size := by
  unfold referencePath? at h
  split at h
  next hk => exact File.lt_size_of_kind? hk
  next => cases h

namespace Scope

/-- The meaning of a node under a directive, as the list of its scalars. -/
inductive Expands (s : Scope) : Option Directive → NodeId → List Fragment → Prop
  | scalar {d id value style} (hk : s.file.kind? id = some (.scalar value style)) :
      Expands s d id [⟨value, s.file.line id, d, s.file.sourceOf id⟩]
  | literal {d id value raw} (hk : s.file.kind? id = some (.block false value raw)) :
      Expands s d id [⟨value, s.file.line id + 1, d, s.file.sourceOf id⟩]
  | folded {d id value raw} (hk : s.file.kind? id = some (.block true value raw)) :
      Expands s d id
        [⟨String.ofList (foldLiteral raw.toList), s.file.line id + 1, d, s.file.sourceOf id⟩]
  /-- A sequence is the concatenation of its items, each under its own directive. -/
  | sequence {d id items comments} {parts : List (List Fragment)}
      (hk : s.file.kind? id = some (.sequence items comments))
      (hlength : parts.length = items.length)
      (hitems : ∀ i item part, items[i]? = some item → parts[i]? = some part →
        Expands s (itemDirective d comments i) item part) :
      Expands s d id parts.flatten
  | anchor {d id name value out} (hk : s.file.kind? id = some (.anchor name value))
      (hvalue : Expands s d value out) : Expands s d id out
  | tagged {d id tag value out} (hk : s.file.kind? id = some (.tagged tag value))
      (htag : tag ≠ referenceTag) (hvalue : Expands s d value out) : Expands s d id out
  | aliasOf {d id name target out} (hk : s.file.kind? id = some (.aliasOf name))
      (htarget : s.aliases.target? id = some target) (hvalue : Expands s d target out) :
      Expands s d id out
  | reference {d id value keys target out}
      (hk : s.file.kind? id = some (.tagged referenceTag value))
      (hpath : referencePath? s.file id = some keys)
      (htarget : s.resolvePath? s.root keys = some target) (hvalue : Expands s d target out) :
      Expands s d id out
  | malformed {d id value} (hk : s.file.kind? id = some (.tagged referenceTag value))
      (hpath : referencePath? s.file id = none) : Expands s d id []
  | notFound {d id value keys} (hk : s.file.kind? id = some (.tagged referenceTag value))
      (hpath : referencePath? s.file id = some keys)
      (htarget : s.resolvePath? s.root keys = none) : Expands s d id []
  | mapping {d id entries} (hk : s.file.kind? id = some (.mapping entries)) : Expands s d id []
  | entry {d id key value comments} (hk : s.file.kind? id = some (.entry key value comments)) :
      Expands s d id []
  /-- A number that no node has. -/
  | absent {d id} (hk : s.file.kind? id = none) : Expands s d id []

/-- The nodes whose meaning the meaning of a node is made of. -/
def successors (s : Scope) (id : NodeId) : List NodeId :=
  match s.file.kind? id with
  | some (.sequence items _) => items
  | some (.anchor _ value) => [value]
  | some (.tagged tag value) =>
    if tag = referenceTag then (s.resolveReference? id).toList else [value]
  | some (.aliasOf _) => (s.aliases.target? id).toList
  | _ => []

/-- One step of an expansion. -/
def Follows (s : Scope) (a b : NodeId) : Prop := b ∈ s.successors a

theorem successors_aliasOf {s : Scope} {id : NodeId} {name : String}
    (hk : s.file.kind? id = some (.aliasOf name)) :
    s.successors id = (s.aliases.target? id).toList := by
  simp [successors, hk]

theorem successors_reference {s : Scope} {id value : NodeId} {keys : List String}
    (hk : s.file.kind? id = some (.tagged referenceTag value))
    (hpath : referencePath? s.file id = some keys) :
    s.successors id = (s.resolvePath? s.root keys).toList := by
  simp [successors, hk, resolveReference?, hpath]

/-- The keys of a reference that is met when a node is expanded. -/
def MeetsReference (s : Scope) (start : NodeId) (keys : List String) : Prop :=
  ∃ id, ReflTransGen s.Follows start id ∧ referencePath? s.file id = some keys

/-- The references met below a node that are spelled alike name the same keys. -/
def DistinctSpellings (s : Scope) (start : NodeId) : Prop :=
  ∀ keys keys', s.MeetsReference start keys → s.MeetsReference start keys' →
    Text.joinStrings "." keys = Text.joinStrings "." keys' → keys = keys'

/-! ### What is returned is the meaning -/

theorem expands_of_sequence {s : Scope} {d : Option Directive} {id : NodeId} {items : List NodeId}
    {comments : List (List Comment)} {f : NodeId × Option Directive → Expanded}
    {out : List Fragment} (hk : s.file.kind? id = some (.sequence items comments))
    (hf : ∀ item d out, f (item, d) = .ok out → s.Expands d item out)
    (h : concatResults f (itemDirectives d items comments) = .ok out) : s.Expands d id out := by
  obtain ⟨parts, hparts, rfl⟩ := concatResults_eq_ok.mp h
  obtain ⟨hlength, hget⟩ := List.forall₂_iff_get.mp hparts
  have hitems : (itemDirectives d items comments).length = items.length := by
    simp [itemDirectives]
  refine Expands.sequence hk (by omega) ?_
  intro i item part hitem hpart
  obtain ⟨hi, rfl⟩ := List.getElem?_eq_some_iff.mp hpart
  have hi' : i < (itemDirectives d items comments).length := by omega
  have hget' := hget i hi' hi
  have hat := itemDirectives_getElem? d items comments i
  rw [hitem, List.getElem?_eq_getElem hi'] at hat
  simp only [Option.map_some, Option.some.injEq] at hat
  rw [List.get_eq_getElem, hat] at hget'
  exact hf _ _ _ hget'

/-- One level of the walk down: what lies behind jumps is given. -/
theorem expands_of_expandTree {s : Scope} {jump : Jump}
    (hjump : ∀ p d id out, jump p d id = .ok out → s.Expands d id out) {depth : Nat} :
    ∀ {p d id out}, s.expandTree jump depth p d id = .ok out → s.Expands d id out := by
  induction depth with
  | zero => intro p d id out h; cases h
  | succ depth ih =>
    intro p d id out h
    rw [expandTree] at h
    split at h
    next tag value hk =>
      split at h
      next htag =>
        subst htag
        unfold followReference at h
        split at h
        next hpath => cases h; exact .malformed hk hpath
        next keys hpath =>
          dsimp only at h
          split at h
          next htarget => cases h; exact .notFound hk hpath htarget
          next target htarget =>
            split at h
            next => cases h
            next => exact .reference hk hpath htarget (hjump _ _ _ _ h)
      next htag => exact .tagged hk htag (ih h)
    next name value hk => exact .anchor hk (ih h)
    next name hk =>
      unfold followAlias at h
      split at h
      next => cases h
      next target htarget =>
        split at h
        next => cases h
        next => exact .aliasOf hk htarget (hjump _ _ _ _ h)
    next items comments hk => exact expands_of_sequence hk (fun _ _ _ => ih) h
    next hnotag hnoanchor hnoalias hnosequence =>
      cases h
      cases hk : s.file.kind? id with
      | none => simpa [leafFragment?, hk] using Expands.absent hk
      | some k =>
        cases k with
        | scalar value style => simpa [leafFragment?, hk] using Expands.scalar hk
        | block folded value raw =>
          cases folded with
          | false => simpa [leafFragment?, hk] using Expands.literal hk
          | true => simpa [leafFragment?, hk] using Expands.folded hk
        | mapping entries => simpa [leafFragment?, hk] using Expands.mapping hk
        | entry key value comments => simpa [leafFragment?, hk] using Expands.entry hk
        | sequence items comments => exact absurd hk (hnosequence items comments)
        | tagged tag value => exact absurd hk (hnotag tag value)
        | anchor name value => exact absurd hk (hnoanchor name value)
        | aliasOf name => exact absurd hk (hnoalias name)

theorem expands_of_expandWithin {s : Scope} {jumps : Nat} :
    ∀ {p d id out}, s.expandWithin jumps p d id = .ok out → s.Expands d id out := by
  induction jumps with
  | zero => intro p d id out h; cases h
  | succ jumps ih => intro p d id out h; exact expands_of_expandTree (fun _ _ _ _ => ih) h

end Scope

end PipelineScripts.Script
