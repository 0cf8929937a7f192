import Mathlib.Data.Fintype.Card
import PipelineScripts.Proofs.LookUps

/-!
# Behind anchors and aliases

A node stands behind another one where steps through anchors and aliases lead there and none leads
on. Each step has one outcome, so a way that ends passes no node twice and has no more steps than
the file has nodes. Looking through anchors and aliases that many times finds what stands behind.
-/
namespace PipelineScripts.Script.Scope

open Yaml

/-- The node that stands behind anchors and aliases. -/
inductive Behind (s : Scope) : NodeId → NodeId → Prop
  | here {id} (h : s.unwrapStep id = none) : Behind s id id
  | step {id next target} (h : s.unwrapStep id = some next) (hnext : Behind s next target) :
      Behind s id target

/-- The same with the number of steps. -/
inductive BehindIn (s : Scope) : Nat → NodeId → NodeId → Prop
  | here {id} (h : s.unwrapStep id = none) : BehindIn s 0 id id
  | step {n id next target} (h : s.unwrapStep id = some next) (hnext : BehindIn s n next target) :
      BehindIn s (n + 1) id target

variable {s : Scope} {id target : NodeId} {n m : Nat}

theorem Behind.exists_steps (h : s.Behind id target) : ∃ n, s.BehindIn n id target := by
  induction h with
  | here h => exact ⟨0, .here h⟩
  | step h _ ih =>
    obtain ⟨n, hn⟩ := ih
    exact ⟨n + 1, .step h hn⟩

/-- The number of steps depends on where they start. -/
theorem BehindIn.steps_eq {target' : NodeId} (h : s.BehindIn n id target)
    (h' : s.BehindIn m id target') : n = m := by
  induction h generalizing m with
  | here hend =>
    cases h' with
    | here => rfl
    | step hstep => simp [hend] at hstep
  | step hstep _ ih =>
    cases h' with
    | here hend => simp [hend] at hstep
    | step hstep' hrest =>
      rw [hstep] at hstep'
      cases hstep'
      rw [ih hrest]

/-- With each smaller number of steps some node on the way is left. -/
theorem BehindIn.exists_on_way (h : s.BehindIn n id target) {i : Nat} (hi : i < n) :
    ∃ x < s.file.nodes.size, s.BehindIn (i + 1) x target := by
  induction h with
  | here => omega
  | @step n id next target hstep hrest ih =>
    rcases Nat.lt_or_ge i n with hlt | hge
    · exact ih hlt
    · have heq : i = n := by omega
      subst heq
      exact ⟨id, lt_size_of_unwrapStep hstep, .step hstep hrest⟩

/-- No node is passed twice, so there are no more steps than nodes. -/
theorem BehindIn.le_size (h : s.BehindIn n id target) : n ≤ s.file.nodes.size := by
  have hway : ∀ i : Fin n, ∃ x : Fin s.file.nodes.size, s.BehindIn (i + 1) x target := by
    intro i
    obtain ⟨x, hx, hsteps⟩ := h.exists_on_way i.isLt
    exact ⟨⟨x, hx⟩, hsteps⟩
  choose node hnode using hway
  have hinj : Function.Injective node := by
    intro i j hij
    have hsteps := (hnode i).steps_eq (hij ▸ hnode j)
    exact Fin.ext (by omega)
  simpa using Fintype.card_le_of_injective node hinj

theorem unwrapWithin_of_behindIn (h : s.BehindIn n id target) {fuel : Nat} (hfuel : n < fuel) :
    s.unwrapWithin fuel id = target := by
  induction h generalizing fuel with
  | here hend =>
    obtain ⟨fuel, rfl⟩ : ∃ k, fuel = k + 1 := ⟨fuel - 1, by omega⟩
    rw [unwrapWithin_succ, hend, Option.elim_none]
  | step hstep _ ih =>
    obtain ⟨fuel, rfl⟩ : ∃ k, fuel = k + 1 := ⟨fuel - 1, by omega⟩
    rw [unwrapWithin_succ, hstep, Option.elim_some]
    exact ih (by omega)

/-- What stands behind a node is found. -/
theorem unwrap_of_behind (h : s.Behind id target) : s.unwrap id = target := by
  obtain ⟨n, hn⟩ := h.exists_steps
  exact unwrapWithin_of_behindIn hn (Nat.lt_succ_of_le hn.le_size)

/-- What stands behind a node on the way stands behind the first one. -/
theorem behind_of_behind_unwrapWithin {fuel : Nat} (h : s.Behind (s.unwrapWithin fuel id) target) :
    s.Behind id target := by
  induction fuel generalizing id with
  | zero => exact h
  | succ fuel ih =>
    rw [unwrapWithin_succ] at h
    cases hstep : s.unwrapStep id with
    | none => rwa [hstep] at h
    | some next =>
      rw [hstep, Option.elim_some] at h
      exact .step hstep (ih h)

theorem behind_of_unwrapWithin {fuel : Nat} (h : s.unwrapStep (s.unwrapWithin fuel id) = none) :
    s.Behind id (s.unwrapWithin fuel id) :=
  behind_of_behind_unwrapWithin (.here h)

/-- A mapping stands behind a node, with certain entries. -/
def IsMapping (s : Scope) (id : NodeId) (entries : List NodeId) : Prop :=
  ∃ target, s.Behind id target ∧ s.file.kind? target = some (.mapping entries)

/-- The entries of a mapping are found wherever one stands behind a node, and nowhere else. -/
theorem mappingEntries?_eq_some_iff {entries : List NodeId} :
    s.mappingEntries? id = some entries ↔ s.IsMapping id entries := by
  constructor
  · intro h
    unfold mappingEntries? at h
    split at h
    next entries' hk =>
      cases h
      have hend : s.unwrapStep (s.unwrap id) = none := by simp [unwrapStep, hk]
      exact ⟨_, behind_of_unwrapWithin hend, hk⟩
    next => cases h
  · rintro ⟨target, hbehind, hk⟩
    rw [mappingEntries?, unwrap_of_behind hbehind, hk]

theorem mappingEntries?_eq_none_iff :
    s.mappingEntries? id = none ↔ ∀ entries, ¬ s.IsMapping id entries := by
  simp only [Option.eq_none_iff_forall_ne_some, ne_eq, mappingEntries?_eq_some_iff]

end PipelineScripts.Script.Scope
