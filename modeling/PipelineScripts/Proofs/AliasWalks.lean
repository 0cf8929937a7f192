import PipelineScripts.Proofs.Copies
import PipelineScripts.Proofs.Results
import PipelineScripts.Script.AliasMap

/-!
# Walks that bind aliases

A walk visits one node after the other, and binds each alias it meets to the value of an anchor it
has met. Under other numbers it goes the same way, also where another
walk ended: its own anchors are met later than those of the other one, and so they are found first.
-/
namespace PipelineScripts.Script

open Yaml

/-! ### One node -/

section Visit

variable {f : File} {w : AliasWalk} {id : NodeId}

theorem visit_anchor {name : String} {value : NodeId}
    (hk : f.kind? id = some (.anchor name value)) :
    AliasWalk.visit f w id = .ok { w with anchors := (name, value) :: w.anchors } := by
  rw [AliasWalk.visit, hk]

theorem visit_other {k : NodeKind} (hk : f.kind? id = some k)
    (hanchor : ∀ name value, k ≠ .anchor name value) (halias : ∀ name, k ≠ .aliasOf name) :
    AliasWalk.visit f w id = .ok w := by
  rw [AliasWalk.visit, hk]
  cases k with
  | anchor name value => exact absurd rfl (hanchor name value)
  | aliasOf name => exact absurd rfl (halias name)
  | _ => rfl

/-- An alias that is met for the first time is bound to the last anchor of its name. -/
theorem exists_of_visit_aliasOf {name : String} {w' : AliasWalk}
    (hk : f.kind? id = some (.aliasOf name)) (hfresh : w.targets.lookup id = none)
    (h : AliasWalk.visit f w id = .ok w') : ∃ target, w.anchors.lookup name = some target ∧
      w' = { w with targets := w.targets ++ [(id, target)] } := by
  rw [AliasWalk.visit, hk] at h
  dsimp only at h
  cases hlookup : w.anchors.lookup name with
  | none =>
    rw [hlookup] at h
    cases h
  | some target =>
    rw [hlookup, hfresh] at h
    cases h
    exact ⟨target, rfl, rfl⟩

/-- A walk stops at an alias without an anchor. -/
theorem visit_eq_error {e : ExtractError} : AliasWalk.visit f w id = .error e ↔
    ∃ name, f.kind? id = some (.aliasOf name) ∧ w.anchors.lookup name = none ∧
      e = .unresolvedAlias name (f.line id) := by
  unfold AliasWalk.visit
  split
  next hk => simp [hk]
  next name hk =>
    constructor
    · intro h
      split at h
      next hlookup =>
        cases h
        exact ⟨name, hk, hlookup, rfl⟩
      next => split_ifs at h
    · rintro ⟨other, hother, hlookup, rfl⟩
      cases hk.symm.trans hother
      rw [hlookup]
  next _ halias =>
    refine ⟨fun h => (by cases h), ?_⟩
    rintro ⟨name, hk, -⟩
    exact absurd hk (halias name)

end Visit

/-! ### Many nodes -/

/-- A walk that met some nodes: all aliases among them are bound and no other node is, and what they
are bound to, like the value of every anchor, has a property. -/
structure BoundTo (f : File) (P : NodeId → Prop) (met : List NodeId) (w : AliasWalk) : Prop where
  anchors : ∀ e ∈ w.anchors, P e.2
  targets : ∀ e ∈ w.targets, e.1 ∈ met ∧ P e.2
  bound : ∀ id ∈ met, ∀ name, f.kind? id = some (.aliasOf name) →
    ∃ target, w.targets.lookup id = some target

namespace BoundTo

variable {f : File} {P : NodeId → Prop} {met ids : List NodeId} {w w' : AliasWalk} {id : NodeId}

theorem initial : BoundTo f P [] {} := ⟨by simp, by simp, by simp⟩

/-- One more node. -/
theorem visit (h : BoundTo f P met w)
    (hP : ∀ name value, f.kind? id = some (.anchor name value) → P value)
    (hvisit : AliasWalk.visit f w id = .ok w') : BoundTo f P (met ++ [id]) w' := by
  have hold : ∀ e ∈ w.targets, e.1 ∈ met ++ [id] ∧ P e.2 := fun e he =>
    ⟨List.mem_append_left _ (h.targets e he).1, (h.targets e he).2⟩
  have hother : (∀ name, f.kind? id ≠ some (.aliasOf name)) → ∀ x ∈ met ++ [id], ∀ name,
      f.kind? x = some (.aliasOf name) → ∃ target, w.targets.lookup x = some target := by
    intro hid x hx name hk
    rcases List.mem_append.mp hx with hx | hx
    · exact h.bound x hx name hk
    · exact absurd (List.mem_singleton.mp hx ▸ hk) (hid name)
  unfold AliasWalk.visit at hvisit
  split at hvisit
  next name value hk =>
    cases hvisit
    exact ⟨List.forall_mem_cons.mpr ⟨hP name value hk, h.anchors⟩, hold, hother (by simp [hk])⟩
  next name hk =>
    split at hvisit
    next => cases hvisit
    next target htarget =>
      split_ifs at hvisit with hbound
      · cases hvisit
        refine ⟨h.anchors, hold, fun x hx other hx' => ?_⟩
        rcases List.mem_append.mp hx with hx | hx
        · exact h.bound x hx other hx'
        · rw [List.mem_singleton.mp hx]
          exact Option.isSome_iff_exists.mp hbound
      · cases hvisit
        refine ⟨h.anchors, fun e he => ?_, fun x hx other hx' => ?_⟩
        · rcases List.mem_append.mp he with he | he
          · exact hold e he
          · rw [List.mem_singleton.mp he]
            exact ⟨by simp, h.anchors _ (mem_of_lookup htarget)⟩
        · rw [List.lookup_append]
          rcases List.mem_append.mp hx with hx | hx
          · obtain ⟨old, hold⟩ := h.bound x hx other hx'
            exact ⟨old, by rw [hold, Option.some_or]⟩
          · rw [List.mem_singleton.mp hx, Option.not_isSome_iff_eq_none.mp hbound, Option.none_or]
            exact ⟨target, by rw [lookup_cons_eq_ite, if_pos rfl]⟩
  next _ halias =>
    cases hvisit
    exact ⟨h.anchors, hold, hother fun name hk => halias name hk⟩

/-- The nodes of a list. -/
theorem foldlM (h : BoundTo f P met w)
    (hP : ∀ id ∈ ids, ∀ name value, f.kind? id = some (.anchor name value) → P value)
    (hwalk : ids.foldlM (AliasWalk.visit f) w = .ok w') : BoundTo f P (met ++ ids) w' := by
  induction ids generalizing met w with
  | nil =>
    cases hwalk
    simpa using h
  | cons id rest ih =>
    rw [List.foldlM_cons] at hwalk
    obtain ⟨w₁, hvisit, hwalk⟩ := bind_eq_ok.mp hwalk
    have hrest := ih (h.visit (hP id List.mem_cons_self) hvisit)
      (fun x hx => hP x (List.mem_cons_of_mem id hx)) hwalk
    simpa using hrest

end BoundTo

/-! ### Under other numbers -/

theorem lookup_map_values (anchors : List (String × NodeId)) (φ : NodeId → NodeId) (name : String) :
    (anchors.map fun e => (e.1, φ e.2)).lookup name = (anchors.lookup name).map φ := by
  induction anchors with
  | nil => rfl
  | cons e rest ih =>
    rw [List.map_cons, List.lookup_cons, List.lookup_cons, ih]
    cases name == e.1 <;> rfl

theorem lookup_map_keys {φ : NodeId → NodeId} {T : Set NodeId} (hφ : Set.InjOn φ T)
    {targets : List (NodeId × NodeId)} (hkeys : ∀ e ∈ targets, e.1 ∈ T) {id : NodeId}
    (hid : id ∈ T) :
    (targets.map fun e => (φ e.1, φ e.2)).lookup (φ id) = (targets.lookup id).map φ := by
  induction targets with
  | nil => rfl
  | cons e rest ih =>
    have hkey : (φ id == φ e.1) = (id == e.1) := by
      rw [Bool.eq_iff_iff, beq_iff_eq, beq_iff_eq]
      exact ⟨fun heq => hφ hid (hkeys e List.mem_cons_self) heq, fun heq => heq ▸ rfl⟩
    rw [List.map_cons, List.lookup_cons, List.lookup_cons, hkey,
      ih fun x hx => hkeys x (List.mem_cons_of_mem e hx)]
    cases id == e.1 <;> rfl

theorem lookup_eq_none_of_keys {targets : List (Nat × Nat)} {id : Nat}
    (h : ∀ e ∈ targets, e.1 ≠ id) : targets.lookup id = none := by
  refine List.lookup_eq_none_iff.mpr fun e he => ?_
  simpa using (h e he).symm

namespace AliasWalk

/-- A walk under other numbers. -/
def renamed (φ : NodeId → NodeId) (w : AliasWalk) : AliasWalk :=
  ⟨w.anchors.map fun e => (e.1, φ e.2), w.targets.map fun e => (φ e.1, φ e.2)⟩

/-- A walk that started where another one ended. -/
def after (w start : AliasWalk) : AliasWalk :=
  ⟨w.anchors ++ start.anchors, start.targets ++ w.targets⟩

@[simp] theorem renamed_initial (φ : NodeId → NodeId) : ({} : AliasWalk).renamed φ = {} := rfl

@[simp] theorem initial_after (start : AliasWalk) : ({} : AliasWalk).after start = start := by
  simp [after]

@[simp] theorem after_initial (w : AliasWalk) : w.after {} = w := by
  simp [after]

variable {f F : File} {φ : NodeId → NodeId} {T : Set NodeId} {w w' : AliasWalk}
  {id : NodeId}

/-- A visit binds no other node. -/
theorem mem_targets_of_visit (h : visit f w id = .ok w') {e : NodeId × NodeId}
    (he : e ∈ w'.targets) : e ∈ w.targets ∨ e.1 = id := by
  unfold visit at h
  split at h
  next =>
    cases h
    exact .inl he
  next =>
    split at h
    next => cases h
    next =>
      split_ifs at h
      · cases h
        exact .inl he
      · cases h
        rcases List.mem_append.mp he with he | he
        · exact .inl he
        · exact .inr (by rw [List.mem_singleton.mp he])
  next =>
    cases h
    exact .inl he

/-- One node. -/
theorem visit_renamed (start : AliasWalk) (hφ : Set.InjOn φ T)
    (hkeys : ∀ e ∈ w.targets, e.1 ∈ T) (hid : id ∈ T)
    (hkind : F.kind? (φ id) = (f.kind? id).map (NodeKind.mapChildren φ))
    (hnew : start.targets.lookup (φ id) = none) (h : visit f w id = .ok w') :
    visit F ((w.renamed φ).after start) (φ id) = .ok ((w'.renamed φ).after start) := by
  cases hk : f.kind? id with
  | none =>
    rw [hk] at hkind
    rw [visit, hk] at h
    cases h
    rw [visit, hkind]
    rfl
  | some k =>
    rw [hk] at hkind
    cases k with
    | anchor name value =>
      rw [visit_anchor hk] at h
      cases h
      exact visit_anchor hkind
    | aliasOf name =>
      rw [visit, hk] at h
      rw [visit, hkind]
      simp only [Option.map_some, NodeKind.mapChildren] at h ⊢
      cases htarget : w.anchors.lookup name with
      | none => simp [htarget] at h
      | some target =>
        have hlater : ((w.renamed φ).after start).anchors.lookup name = some (φ target) := by
          rw [after, renamed, List.lookup_append, lookup_map_values, htarget]
          rfl
        have hmet : ((w.renamed φ).after start).targets.lookup (φ id) =
            (w.targets.lookup id).map φ := by
          rw [after, renamed, List.lookup_append, hnew, lookup_map_keys hφ hkeys hid]
          rfl
        simp only [htarget, hlater, hmet, Option.isSome_map] at h ⊢
        split_ifs at h ⊢
        · cases h
          rfl
        · cases h
          simp [after, renamed]
    | scalar _ _ | block _ _ _ | sequence _ _ | mapping _ | entry _ _ _ | tagged _ _ =>
      rw [visit_other hk (by simp) (by simp)] at h
      cases h
      exact visit_other hkind (by simp [NodeKind.mapChildren]) (by simp [NodeKind.mapChildren])

/-- A list of nodes. -/
theorem foldlM_visit_renamed (start : AliasWalk) (hφ : Set.InjOn φ T)
    (hkeys : ∀ e ∈ w.targets, e.1 ∈ T) {ids : List NodeId} (hids : ∀ id ∈ ids, id ∈ T)
    (hkinds : ∀ id ∈ ids, F.kind? (φ id) = (f.kind? id).map (NodeKind.mapChildren φ))
    (hnew : ∀ id ∈ ids, start.targets.lookup (φ id) = none)
    (h : ids.foldlM (visit f) w = .ok w') :
    (ids.map φ).foldlM (visit F) ((w.renamed φ).after start) =
      .ok ((w'.renamed φ).after start) := by
  induction ids generalizing w with
  | nil =>
    cases h
    rfl
  | cons id rest ih =>
    rw [List.foldlM_cons] at h
    obtain ⟨w₁, hw₁, h⟩ := bind_eq_ok.mp h
    rw [List.map_cons, List.foldlM_cons]
    have hstep := visit_renamed start hφ hkeys (hids id (by simp)) (hkinds id (by simp))
      (hnew id (by simp)) hw₁
    refine bind_eq_ok.mpr ⟨_, hstep, ih (fun e he => ?_)
      (fun x hx => hids x (List.mem_cons_of_mem id hx))
      (fun x hx => hkinds x (List.mem_cons_of_mem id hx))
      (fun x hx => hnew x (List.mem_cons_of_mem id hx)) h⟩
    rcases mem_targets_of_visit hw₁ he with he | heq
    · exact hkeys e he
    · exact heq ▸ hids id (by simp)

/-- A walk stops where it stops under other numbers. -/
theorem visit_renamed_error {e : ExtractError}
    (hkind : F.kind? (φ id) = (f.kind? id).map (NodeKind.mapChildren φ))
    (hline : F.line (φ id) = f.line id) (h : visit f w id = .error e) :
    visit F (w.renamed φ) (φ id) = .error e := by
  obtain ⟨name, hk, hlookup, rfl⟩ := visit_eq_error.mp h
  rw [hk] at hkind
  refine visit_eq_error.mpr ⟨name, hkind, ?_, by rw [hline]⟩
  rw [renamed, lookup_map_values, hlookup, Option.map_none]

theorem foldlM_visit_renamed_error (hφ : Set.InjOn φ T) (hkeys : ∀ e ∈ w.targets, e.1 ∈ T)
    {ids : List NodeId} (hids : ∀ id ∈ ids, id ∈ T)
    (hkinds : ∀ id ∈ ids, F.kind? (φ id) = (f.kind? id).map (NodeKind.mapChildren φ))
    (hlines : ∀ id ∈ ids, F.line (φ id) = f.line id) {e : ExtractError}
    (h : ids.foldlM (visit f) w = .error e) :
    (ids.map φ).foldlM (visit F) (w.renamed φ) = .error e := by
  induction ids generalizing w with
  | nil => cases h
  | cons id rest ih =>
    have hkind := hkinds id List.mem_cons_self
    rw [List.foldlM_cons] at h
    rw [List.map_cons, List.foldlM_cons]
    cases hvisit : visit f w id with
    | error e' =>
      rw [hvisit] at h
      cases h
      rw [visit_renamed_error hkind (hlines id List.mem_cons_self) hvisit]
      rfl
    | ok w₁ =>
      rw [hvisit] at h
      have hstep := visit_renamed {} hφ hkeys (hids id List.mem_cons_self) hkind rfl hvisit
      rw [after_initial, after_initial] at hstep
      rw [hstep]
      refine ih (fun e he => ?_) (fun x hx => hids x (List.mem_cons_of_mem id hx))
        (fun x hx => hkinds x (List.mem_cons_of_mem id hx))
        (fun x hx => hlines x (List.mem_cons_of_mem id hx)) h
      rcases mem_targets_of_visit hvisit he with he | heq
      · exact hkeys e he
      · exact heq ▸ hids id List.mem_cons_self

end AliasWalk

end PipelineScripts.Script
