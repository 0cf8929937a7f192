import PipelineScripts.Proofs.CarriedTree
import PipelineScripts.Proofs.CopiedScope

/-!
# Scopes inside larger ones

A document that is merged with others is carried into a larger file. Its nodes get other numbers,
its root becomes a part of the common root. As long as its references name none of the
foreign entries there, every look-up and every expansion goes the same way as before.
-/
namespace PipelineScripts.Script

open Yaml

namespace Scope

/-- The nodes in front of the root of `s` stand in `S` behind `offset` others, the entries at its
root among those at the root of `S`. -/
structure CarriedTo (s S : Scope) (offset source : Nat) : Prop
    extends s.file.CarriesTree S.file s.root offset source where
  target : ∀ id : Nat, id < s.root →
    S.aliases.target? (id + offset) = (s.aliases.target? id).map (· + offset)
  /-- An alias stands for the value of an anchor. -/
  target_bare : ∀ {id t : Nat}, s.aliases.target? id = some t →
    t < s.root ∧ ∃ k, s.file.kind? t = some k ∧ k.isBare = true
  /-- No reference names a foreign entry of the common root. -/
  roots : ∃ entries before after, s.file.kind? s.root = some (.mapping entries) ∧
    S.file.kind? S.root = some (.mapping (before ++ entries.map (· + offset) ++ after)) ∧
    ∀ id key rest, referencePath? s.file id = some (key :: rest) →
      ∀ e ∈ before ++ after, S.file.entryKey? e ≠ some key

namespace CarriedTo

variable {s S : Scope} {offset source : Nat} {id : NodeId}

theorem copies (h : s.CarriedTo S offset source) (hS : S.file.Acyclic) :
    s.Copies S (· + offset) source {id : Nat | id < s.root} where
  toCopiesNodes := h.toCarriesTree.copies hS
  injective := fun _ _ _ _ heq => Nat.add_right_cancel heq
  anchored := h.shaped.anchored
  target := h.target
  target_bare := h.target_bare

/-- The foreign entries at the common root do not have the key of a reference. -/
theorem lookup?_root (h : s.CarriedTo S offset source) (hS : S.file.Acyclic) {key : String}
    {rest : List String} (hpath : referencePath? s.file id = some (key :: rest)) :
    S.lookup? S.root key = (s.lookup? s.root key).map (· + offset) ∧
      ∀ value : Nat, s.lookup? s.root key = some value → value < s.root := by
  obtain ⟨entries, before, after, hk, hK, hforeign⟩ := h.roots
  have hentries : ∀ entry : Nat, entry ∈ entries.reverse → entry < s.root := by
    intro entry hentry
    apply h.shaped.child_lt
    simpa [File.Below, File.children_of_kind? hk, NodeKind.children] using hentry
  have hnone : ∀ part : List NodeId, (∀ e ∈ part, e ∈ before ++ after) →
      part.reverse.findSome? (valueOfKey? S.file key) = none := by
    intro part hpart
    refine List.findSome?_eq_none_iff.mpr fun e he => ?_
    exact valueOfKey?_eq_none (hforeign id key rest hpath e (hpart e (List.mem_reverse.mp he)))
  have hfind := (h.copies hS).findSome?_valueOfKey? key hentries
  rw [List.map_reverse] at hfind
  unfold Scope.lookup?
  rw [mappingEntries?_of_mapping hk, mappingEntries?_of_mapping hK]
  refine ⟨?_, fun value hvalue => ?_⟩
  · show (before ++ entries.map (· + offset) ++ after).reverse.findSome? _ = _
    rw [List.reverse_append, List.reverse_append, List.findSome?_append, List.findSome?_append,
      hnone after (fun e => List.mem_append_right before),
      hnone before (fun e => List.mem_append_left after), hfind, Option.or_none]
    rfl
  · obtain ⟨entry, hentry, hvalue⟩ := List.exists_of_findSome?_eq_some hvalue
    exact (h.copies hS).encloses _ _ (hentries entry hentry) (step_of_valueOfKey? hvalue)

/-- References lead to the same nodes. -/
theorem mirrors (h : s.CarriedTo S offset source) (hS : S.file.Acyclic) :
    s.Mirrors S (· + offset) source {id : Nat | id < s.root} where
  toCopies := h.copies hS
  references := by
    intro id keys _ hpath
    cases keys with
    | nil =>
      obtain ⟨entries, before, after, hk, hK, -⟩ := h.roots
      exact .mappings rfl rfl hk hK
    | cons key rest =>
      obtain ⟨hlookup, hlt⟩ := h.lookup?_root hS hpath
      have hroot := resolvePath?_cons s s.root key rest
      have hroot' := resolvePath?_cons S S.root key rest
      rw [hlookup] at hroot'
      cases hvalue : s.lookup? s.root key with
      | none =>
        rw [hvalue] at hroot hroot'
        exact .nowhere hroot hroot'
      | some value =>
        have hcopy := (h.copies hS).resolvePath? rest (hlt value hvalue)
        rw [hvalue] at hroot hroot'
        cases htarget : s.resolvePath? value rest with
        | none =>
          rw [htarget] at hcopy
          exact .nowhere (hroot.trans htarget) (hroot'.trans hcopy)
        | some t =>
          have ht := (h.copies hS).encloses.mem (hlt value hvalue) (steps_of_resolvePath? htarget)
          rw [htarget] at hcopy
          exact .copies ht (hroot.trans htarget) (hroot'.trans hcopy)

end CarriedTo

end Scope

end PipelineScripts.Script
