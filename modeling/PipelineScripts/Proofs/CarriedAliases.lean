import PipelineScripts.Proofs.AliasWalks
import PipelineScripts.Proofs.JoinedTrees

/-!
# Aliases inside larger files

A walk through merged files binds the aliases of each file as a walk through that file alone does:
its own anchors are met later than those of the files before it, and so they are found first.
-/
namespace PipelineScripts.Script

open Yaml

/-- A walk binds nodes it has met to values of anchors it has met. -/
theorem targets_of_walk {f : File} (hf : f.Shaped) {bound : Nat} {ids : List NodeId}
    {w : AliasWalk} (hids : ∀ id : Nat, id ∈ ids → id < bound)
    (h : ids.foldlM (AliasWalk.visit f) {} = .ok w) :
    ∀ e : Nat × Nat, e ∈ w.targets →
      e.1 < bound ∧ e.2 < bound ∧ ∃ k, f.kind? e.2 = some k ∧ k.isBare = true := by
  let good (v : Nat) : Prop := v < bound ∧ ∃ k, f.kind? v = some k ∧ k.isBare = true
  have hgood : ∀ id ∈ ids, ∀ name value, f.kind? id = some (.anchor name value) → good value := by
    intro (id : Nat) hid name (value : Nat) hk
    have hlt : value < id := hf.child_lt (by
      simp [File.Below, File.children_of_kind? hk, NodeKind.children])
    exact ⟨Nat.lt_trans hlt (hids id hid), hf.anchored hk⟩
  intro e he
  obtain ⟨hmet, htarget⟩ := (BoundTo.initial.foldlM hgood h).targets e he
  exact ⟨hids e.1 (by simpa using hmet), htarget⟩

/-! ### All files -/

/-- The walk through a file alone. -/
def ownWalk (f : File) : Except ExtractError AliasWalk :=
  f.belowRoots.foldlM (AliasWalk.visit f) {}

/-- A walk through several files binds the aliases of each as its own walk does. -/
theorem exists_walk_places {F : File} {ps : List File.Placed}
    (hps : ps.Pairwise fun p q => p.offset + p.file.nodes.size ≤ q.offset)
    (hshaped : ∀ p ∈ ps, p.file.Shaped)
    (hkinds : ∀ p ∈ ps, ∀ id ∈ p.file.belowRoots, F.kind? (id + p.offset) =
      (p.file.kind? id).map (NodeKind.mapChildren (· + p.offset)))
    {walks : File → AliasWalk} (hwalks : ∀ p ∈ ps, ownWalk p.file = .ok (walks p.file))
    {W : AliasWalk} (hW : ∀ p ∈ ps, ∀ e : Nat × Nat, e ∈ W.targets → e.1 < p.offset) :
    ∃ W', (ps.flatMap fun p => p.file.belowRoots.map (· + p.offset)).foldlM
        (AliasWalk.visit F) W = .ok W' ∧
      (∀ id : Nat, (∀ p ∈ ps, id < p.offset) → W'.targets.lookup id = W.targets.lookup id) ∧
      ∀ p ∈ ps, ∀ id < p.file.nodes.size, W'.targets.lookup (id + p.offset) =
        ((walks p.file).targets.lookup id).map (· + p.offset) := by
  induction ps generalizing W with
  | nil => exact ⟨W, rfl, fun _ _ => rfl, by simp⟩
  | cons p rest ih =>
    obtain ⟨hafter, hrest⟩ := List.pairwise_cons.mp hps
    have hlt : ∀ id : Nat, id ∈ p.file.belowRoots → id < p.file.nodes.size := fun id hid =>
      (hshaped p (by simp)).lt_size_of_mem_belowRoots hid
    have hown := targets_of_walk (hshaped p (by simp)) hlt (hwalks p (by simp))
    have hbefore := hW p (by simp)
    have hnew : ∀ id : Nat, W.targets.lookup (id + p.offset) = none := by
      intro id
      refine lookup_eq_none_of_keys fun e he => ?_
      have hkey := hbefore e he
      omega
    obtain ⟨W₁, hW₁, htargets⟩ : ∃ W₁, (p.file.belowRoots.map (· + p.offset)).foldlM
        (AliasWalk.visit F) W = .ok W₁ ∧ W₁.targets = W.targets ++
          (walks p.file).targets.map fun e => (e.1 + p.offset, e.2 + p.offset) := by
      have hfold := AliasWalk.foldlM_visit_renamed (φ := (· + p.offset)) (T := Set.univ) W
        (fun _ _ _ _ heq => Nat.add_right_cancel heq) (by simp) (by simp) (hkinds p (by simp))
        (fun id _ => hnew id) (hwalks p (by simp))
      rw [AliasWalk.renamed_initial, AliasWalk.initial_after] at hfold
      exact ⟨_, hfold, rfl⟩
    have hkeys : ∀ q ∈ rest, ∀ e : Nat × Nat, e ∈ W₁.targets → e.1 < q.offset := by
      intro q hq e he
      have hbound := hafter q hq
      rw [htargets] at he
      rcases List.mem_append.mp he with he | he
      · have hkey := hbefore e he
        omega
      · obtain ⟨e', he', rfl⟩ := List.mem_map.mp he
        have hkey := (hown e' he').1
        dsimp only
        omega
    obtain ⟨W', hW', hkept, hall⟩ := ih hrest (fun q hq => hshaped q (List.mem_cons_of_mem p hq))
      (fun q hq => hkinds q (List.mem_cons_of_mem p hq))
      (fun q hq => hwalks q (List.mem_cons_of_mem p hq)) hkeys
    refine ⟨W', ?_, fun id hid => ?_, fun q hq id hid => ?_⟩
    · rw [List.flatMap_cons, List.foldlM_append]
      exact bind_eq_ok.mpr ⟨W₁, hW₁, hW'⟩
    · have hmoved : List.lookup id
          ((walks p.file).targets.map fun e => (e.1 + p.offset, e.2 + p.offset)) = none := by
        refine lookup_eq_none_of_keys fun e he => ?_
        obtain ⟨e', -, rfl⟩ := List.mem_map.mp he
        have hkey := hid p (by simp)
        dsimp only
        omega
      rw [hkept id fun q hq => hid q (List.mem_cons_of_mem p hq), htargets,
        List.lookup_append, hmoved, Option.or_none]
    · rcases List.mem_cons.mp hq with rfl | hq
      · have hsmall : ∀ r ∈ rest, id + q.offset < r.offset := by
          intro r hr
          have hbound := hafter r hr
          omega
        have hmoved : ((walks q.file).targets.map fun e =>
            (e.1 + q.offset, e.2 + q.offset)).lookup (id + q.offset) =
              ((walks q.file).targets.lookup id).map (· + q.offset) :=
          lookup_map_keys (φ := (· + q.offset)) (T := Set.univ)
            (fun _ _ _ _ heq => Nat.add_right_cancel heq) (by simp) (Set.mem_univ id)
        rw [hkept (id + q.offset) hsmall, htargets, List.lookup_append, hnew id]
        exact hmoved
      · exact hall q hq id hid

end PipelineScripts.Script
