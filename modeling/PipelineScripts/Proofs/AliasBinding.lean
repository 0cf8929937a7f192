import PipelineScripts.Proofs.AliasWalks
import PipelineScripts.Proofs.Forests
import PipelineScripts.Proofs.WrittenNames

/-!
# Aliases by occurrence

The walk that binds aliases meets the nodes of a tree in document order, each once. So an alias is
bound to the value of the last anchor of its name in front of it, whatever anchors of that name
follow, and the walk stops at the first alias that has no such anchor.
-/
namespace PipelineScripts.Script

open Yaml Relation

/-! ### The nodes met so far -/

/-- The value of the last anchor of a name among nodes. -/
def LastAnchor (f : File) (met : List NodeId) (name : String) (target : NodeId) : Prop :=
  ∃ id, LastWith (fun x => ∃ value, f.kind? x = some (.anchor name value)) met id ∧
    f.kind? id = some (.anchor name target)

/-- An alias among nodes with no anchor of its name before it. -/
def Unbound (f : File) (ids before : List NodeId) (id : NodeId) (name : String) : Prop :=
  (∃ after, ids = before ++ id :: after) ∧ f.kind? id = some (.aliasOf name) ∧
    ∀ x ∈ before, ∀ value, f.kind? x ≠ some (.anchor name value)

variable {f : File} {met ids : List NodeId} {id target : NodeId} {name : String}
  {w w' : AliasWalk}

theorem lastAnchor_nil : ¬ LastAnchor f [] name target := by
  rintro ⟨id, hlast, -⟩
  simpa using hlast.mem

theorem lastAnchor_concat_anchor {other : String} {value : NodeId}
    (hk : f.kind? id = some (.anchor other value)) : LastAnchor f (met ++ [id]) name target ↔
      if name = other then value = target else LastAnchor f met name target := by
  unfold LastAnchor
  simp only [lastWith_concat, hk, Option.some.injEq, NodeKind.anchor.injEq]
  split_ifs with hname
  · subst hname
    constructor
    · rintro ⟨x, ⟨-, rfl⟩ | ⟨hnone, -⟩, hx⟩
      · simpa [hk] using hx
      · exact absurd ⟨value, rfl, rfl⟩ hnone
    · rintro rfl
      exact ⟨id, .inl ⟨⟨value, rfl, rfl⟩, rfl⟩, hk⟩
  · constructor
    · rintro ⟨x, ⟨⟨_, hsame, -⟩, -⟩ | ⟨-, hlast⟩, hx⟩
      · exact absurd hsame.symm hname
      · exact ⟨x, hlast, hx⟩
    · rintro ⟨x, hlast, hx⟩
      refine ⟨x, .inr ⟨?_, hlast⟩, hx⟩
      rintro ⟨_, hsame, -⟩
      exact hname hsame.symm

theorem lastAnchor_concat_other (hk : ∀ name value, f.kind? id ≠ some (.anchor name value)) :
    LastAnchor f (met ++ [id]) name target ↔ LastAnchor f met name target := by
  unfold LastAnchor
  simp only [lastWith_concat, hk, exists_false, false_and, not_false_eq_true, true_and, false_or]

theorem exists_lastAnchor :
    (∃ target, LastAnchor f met name target) ↔
      ∃ x ∈ met, ∃ value, f.kind? x = some (.anchor name value) := by
  rw [← exists_lastWith]
  constructor
  · rintro ⟨_, id, hlast, -⟩
    exact ⟨id, hlast⟩
  · rintro ⟨x, hlast⟩
    have ⟨_, _, _, ⟨value, hk⟩, _⟩ := hlast
    exact ⟨value, x, hlast, hk⟩

theorem LastAnchor.unique {other : NodeId} (h : LastAnchor f met name target)
    (h' : LastAnchor f met name other) : target = other := by
  obtain ⟨x, hlast, hk⟩ := h
  obtain ⟨y, hlast', hk'⟩ := h'
  obtain rfl := hlast.unique hlast'
  cases hk.symm.trans hk'
  rfl

/-- In front of a node that is met once stand the same nodes however a list is divided at it. -/
theorem front_unique {before before' after after' : List NodeId} (hids : ids.Nodup)
    (h : ids = before ++ id :: after) (h' : ids = before' ++ id :: after') : before = before' := by
  subst h
  obtain ⟨-, hid, hfront⟩ := List.nodup_append.mp hids
  refine ((List.append_cons_inj_of_notMem ?_ (List.nodup_cons.mp hid).1).mp h').1
  exact fun hmem => hfront id hmem id List.mem_cons_self rfl

/-- Whether a node is an alias. -/
def isAlias (f : File) (id : NodeId) : Bool := (f.kind? id).any (· matches .aliasOf _)

theorem isAlias_iff : isAlias f id = true ↔ ∃ name, f.kind? id = some (.aliasOf name) := by
  unfold isAlias
  cases f.kind? id with
  | none => simp
  | some k => cases k <;> simp

/-- A walk that met some nodes, each once: it knows the last anchors, and has bound the aliases. -/
structure Walked (f : File) (met : List NodeId) (w : AliasWalk) : Prop where
  anchors : ∀ name target, w.anchors.lookup name = some target ↔ LastAnchor f met name target
  domain : w.targets.map Prod.fst = met.filter (isAlias f)
  bound : ∀ id target, w.targets.lookup id = some target → ∃ before after name,
    met = before ++ id :: after ∧ f.kind? id = some (.aliasOf name) ∧
      LastAnchor f before name target

namespace Walked

theorem initial : Walked f [] {} where
  anchors := by simp [lastAnchor_nil]
  domain := rfl
  bound := by simp

theorem lookup_eq_none (h : Walked f met w) (hid : id ∉ met) : w.targets.lookup id = none := by
  refine Option.eq_none_iff_forall_ne_some.mpr fun target htarget => hid ?_
  obtain ⟨before, after, name, rfl, -⟩ := h.bound id target htarget
  simp

/-- Every alias that was met is bound. -/
theorem exists_lookup (h : Walked f met w) (hmet : met.Nodup) (hid : id ∈ met)
    (hk : f.kind? id = some (.aliasOf name)) : ∃ target, w.targets.lookup id = some target := by
  have hkeys : (w.targets.map Prod.fst).Nodup := by
    rw [h.domain]
    exact hmet.filter _
  have hmem : id ∈ w.targets.map Prod.fst := by
    rw [h.domain]
    exact List.mem_filter.mpr ⟨hid, isAlias_iff.mpr ⟨name, hk⟩⟩
  obtain ⟨⟨_, target⟩, htarget, rfl⟩ := List.mem_map.mp hmem
  exact ⟨target, lookup_of_mem hkeys htarget⟩

theorem anchors_eq_none (h : Walked f met w) : w.anchors.lookup name = none ↔
    ∀ x ∈ met, ∀ value, f.kind? x ≠ some (.anchor name value) := by
  rw [Option.eq_none_iff_forall_ne_some]
  simp only [ne_eq, h.anchors]
  rw [← not_exists, exists_lastAnchor]
  simp

/-- One more node. -/
theorem visit (h : Walked f met w) (hid : id ∉ met) (hvisit : AliasWalk.visit f w id = .ok w') :
    Walked f (met ++ [id]) w' := by
  have hmore : ∀ {x target}, w.targets.lookup x = some target → ∃ before after name,
      met ++ [id] = before ++ x :: after ∧ f.kind? x = some (.aliasOf name) ∧
        LastAnchor f before name target := by
    intro x target hx
    obtain ⟨before, after, name, rfl, hk, hlast⟩ := h.bound x target hx
    exact ⟨before, after ++ [id], name, by simp, hk, hlast⟩
  by_cases halias : isAlias f id = true
  · obtain ⟨name, hk⟩ := isAlias_iff.mp halias
    have hfresh := h.lookup_eq_none hid
    obtain ⟨target, htarget, rfl⟩ := exists_of_visit_aliasOf hk hfresh hvisit
    refine ⟨fun other t => ?_, ?_, fun x t hx => ?_⟩
    · rw [lastAnchor_concat_other (by simp [hk])]
      exact h.anchors other t
    · simp [h.domain, List.filter_append, halias]
    · rw [List.lookup_append, Option.or_eq_some_iff] at hx
      rcases hx with hx | ⟨-, hx⟩
      · exact hmore hx
      · rw [lookup_cons_eq_ite] at hx
        split_ifs at hx with hsame
        · cases hx
          subst hsame
          exact ⟨met, [], name, rfl, hk, (h.anchors name target).mp htarget⟩
        · cases hx
  · have hdomain : (met ++ [id]).filter (isAlias f) = met.filter (isAlias f) := by
      simp [List.filter_append, halias]
    have hother : ∀ name, f.kind? id ≠ some (.aliasOf name) := fun name hk =>
      halias (isAlias_iff.mpr ⟨name, hk⟩)
    by_cases hanchor : ∃ name value, f.kind? id = some (.anchor name value)
    · obtain ⟨name, value, hk⟩ := hanchor
      rw [visit_anchor hk] at hvisit
      cases hvisit
      refine ⟨fun other t => ?_, hdomain ▸ h.domain, fun x t hx => hmore hx⟩
      rw [lastAnchor_concat_anchor hk, lookup_cons_eq_ite, ← h.anchors]
      split_ifs <;> simp
    · simp only [not_exists] at hanchor
      obtain rfl : w' = w := by
        cases hk : f.kind? id with
        | none =>
          rw [AliasWalk.visit, hk] at hvisit
          cases hvisit
          rfl
        | some k =>
          rw [visit_other hk (fun name value heq => hanchor name value (heq ▸ hk))
            (fun name heq => hother name (heq ▸ hk))] at hvisit
          cases hvisit
          rfl
      refine ⟨fun other t => ?_, hdomain ▸ h.domain, fun x t hx => hmore hx⟩
      rw [lastAnchor_concat_other hanchor]
      exact h.anchors other t

/-- The nodes of a list, up to its end or to the first at which the walk stops. -/
theorem foldlM (h : Walked f met w) (hids : (met ++ ids).Nodup) :
    (∀ w', ids.foldlM (AliasWalk.visit f) w = .ok w' → Walked f (met ++ ids) w') ∧
      ∀ e, ids.foldlM (AliasWalk.visit f) w = .error e → ∃ before id after w',
        ids = before ++ id :: after ∧ Walked f (met ++ before) w' ∧
          AliasWalk.visit f w' id = .error e := by
  induction ids generalizing met w with
  | nil =>
    refine ⟨fun w' hw' => ?_, fun e he => (by cases he)⟩
    cases hw'
    simpa using h
  | cons id rest ih =>
    rw [List.foldlM_cons]
    cases hvisit : AliasWalk.visit f w id with
    | error e =>
      refine ⟨fun w' hw' => (by cases hw'), fun e' he' => ?_⟩
      cases he'
      exact ⟨[], id, rest, w, rfl, by simpa using h, hvisit⟩
    | ok w₁ =>
      have hfresh : id ∉ met := by
        intro hmem
        exact (List.nodup_append.mp hids).2.2 id hmem id List.mem_cons_self rfl
      have happend : met ++ id :: rest = met ++ [id] ++ rest := by simp
      obtain ⟨hok, herror⟩ := ih (h.visit hfresh hvisit) (happend ▸ hids)
      refine ⟨fun w' hw' => happend ▸ hok w' hw', fun e he => ?_⟩
      obtain ⟨before, x, after, w', rfl, hw', hx⟩ := herror e he
      exact ⟨id :: before, x, after, w', rfl, by simpa using hw', hx⟩

/-- The alias of a node that was met is bound as the nodes in front of it say. -/
theorem lookup_iff (h : Walked f met w) (hmet : met.Nodup) {before after : List NodeId}
    (heq : met = before ++ id :: after) (hk : f.kind? id = some (.aliasOf name)) :
    w.targets.lookup id = some target ↔ LastAnchor f before name target := by
  have hbound : ∀ {t}, w.targets.lookup id = some t → LastAnchor f before name t := by
    intro t ht
    obtain ⟨before', after', name', heq', hk', hlast⟩ := h.bound id t ht
    cases hk.symm.trans hk'
    exact front_unique hmet heq heq' ▸ hlast
  refine ⟨hbound, fun hlast => ?_⟩
  obtain ⟨t, ht⟩ := h.exists_lookup hmet (by simp [heq]) hk
  rw [ht, (hbound ht).unique hlast]

/-- A walk that went on has met no alias without an anchor. -/
theorem not_unbound (h : Walked f met w) (hmet : met.Nodup) {before : List NodeId} :
    ¬ Unbound f met before id name := by
  rintro ⟨⟨after, heq⟩, hk, hnone⟩
  obtain ⟨target, htarget⟩ := h.exists_lookup hmet (by simp [heq]) hk
  obtain ⟨x, hx, value, hvalue⟩ :=
    exists_lastAnchor.mp ⟨target, (h.lookup_iff hmet heq hk).mp htarget⟩
  exact hnone x hx value hvalue

end Walked

/-! ### Whole trees -/

/-- The first alias among nodes with no anchor of its name before it. -/
def FirstUnbound (f : File) (ids before : List NodeId) (id : NodeId) (name : String) : Prop :=
  Unbound f ids before id name ∧ ∀ before' id' name', Unbound f ids before' id' name' →
    before.length ≤ before'.length

theorem FirstUnbound.unique {before before' : List NodeId} {id' : NodeId} {name' : String}
    (h : FirstUnbound f ids before id name) (h' : FirstUnbound f ids before' id' name') :
    id = id' ∧ name = name' := by
  obtain ⟨⟨⟨after, heq⟩, hk, hnone⟩, hfirst⟩ := h
  obtain ⟨⟨⟨after', heq'⟩, hk', hnone'⟩, hfirst'⟩ := h'
  have hle := hfirst _ _ _ ⟨⟨after', heq'⟩, hk', hnone'⟩
  have hle' := hfirst' _ _ _ ⟨⟨after, heq⟩, hk, hnone⟩
  obtain ⟨-, hsame⟩ := List.append_inj (heq.symm.trans heq') (by omega)
  obtain ⟨rfl, -⟩ := List.cons.inj hsame
  cases hk.symm.trans hk'
  exact ⟨rfl, rfl⟩

/-- A tree is walked through to its end or to its first alias without an anchor. -/
theorem build_cases {root : NodeId} (hids : (f.preorder root).Nodup) :
    (∃ w, Walked f (f.preorder root) w ∧ AliasMap.build f root = .ok ⟨w.targets⟩) ∨
      ∃ before id name, FirstUnbound f (f.preorder root) before id name ∧
        AliasMap.build f root = .error (.unresolvedAlias name (f.line id)) := by
  obtain ⟨hok, herror⟩ :=
    (Walked.initial (f := f)).foldlM (by simpa using hids : ([] ++ f.preorder root).Nodup)
  unfold AliasMap.build
  cases hwalk : (f.preorder root).foldlM (AliasWalk.visit f) {} with
  | ok w => exact .inl ⟨w, by simpa using hok w hwalk, rfl⟩
  | error e =>
    obtain ⟨before, id, after, w, heq, hw, hvisit⟩ := herror e hwalk
    obtain ⟨name, hk, hlookup, rfl⟩ := visit_eq_error.mp hvisit
    refine .inr ⟨before, id, name, ⟨⟨⟨after, heq⟩, hk, ?_⟩, ?_⟩, rfl⟩
    · simpa using hw.anchors_eq_none.mp hlookup
    · -- An earlier one would have stopped the walk.
      rintro before' id' name' ⟨⟨after', heq'⟩, hk', hnone'⟩
      by_contra hlt
      have hbefore : before.Nodup := by
        rw [heq] at hids
        exact (List.nodup_append.mp hids).1
      have hearlier : before' ++ [id'] <+: f.preorder root := ⟨after', by simp [heq']⟩
      have hlater : before <+: f.preorder root := ⟨id :: after, heq.symm⟩
      have hprefix : before' ++ [id'] <+: before := by
        refine List.prefix_of_prefix_length_le hearlier hlater ?_
        simp only [List.length_append, List.length_singleton]
        omega
      obtain ⟨rest, hrest⟩ := hprefix
      refine Walked.not_unbound (by simpa using hw) hbefore ⟨⟨rest, ?_⟩, hk', hnone'⟩
      simpa using hrest.symm

/-- The aliases of a tree are bound by occurrence: every node is met once on the walk through the
tree; if the aliases are bound then these are all that have targets, each that of the last anchor
of its name in front of it; and they are bound unless there is an alias without such an anchor, the
first of which is reported. -/
theorem aliases_bound_by_occurrence {f : File} (hf : f.FromReader) {root r : NodeId}
    (hroot : root ∈ f.roots) (hr : ReflTransGen f.Below root r) :
    ((f.preorder r).Nodup ∧ ∀ x, x ∈ f.preorder r ↔ ReflTransGen f.Below r x) ∧
      (∀ m, AliasMap.build f r = .ok m →
        (∀ id, (∃ target, m.target? id = some target) ↔
          id ∈ f.preorder r ∧ ∃ name, f.kind? id = some (.aliasOf name)) ∧
        ∀ before id after name target, f.preorder r = before ++ id :: after →
          f.kind? id = some (.aliasOf name) →
            (m.target? id = some target ↔ LastAnchor f before name target)) ∧
      ((∃ e, AliasMap.build f r = .error e) ↔
        ∃ before id name, Unbound f (f.preorder r) before id name) ∧
      ∀ e, AliasMap.build f r = .error e ↔ ∃ before id name,
        FirstUnbound f (f.preorder r) before id name ∧ e = .unresolvedAlias name (f.line id) := by
  have hforest := hf.forest
  have hids := hforest.nodup_preorder hroot hr
  have hmem := fun x => File.mem_preorder_iff (x := x) hforest.acyclic hforest.closed
    (hforest.lt_size hroot hr)
  refine ⟨⟨hids, hmem⟩, ?_⟩
  rcases build_cases hids with ⟨w, hw, hbuild⟩ | ⟨before, id, name, hfirst, hbuild⟩
  · simp only [hbuild, Except.ok.injEq, reduceCtorEq, exists_false, false_iff, not_exists]
    refine ⟨?_, fun before id name => hw.not_unbound hids, ?_⟩
    · rintro _ rfl
      refine ⟨fun id => ⟨?_, ?_⟩, fun before id after name target heq hk =>
        hw.lookup_iff hids heq hk⟩
      · rintro ⟨target, htarget⟩
        obtain ⟨before, after, name, heq, hk, -⟩ := hw.bound id target htarget
        exact ⟨by simp [heq], name, hk⟩
      · rintro ⟨hid, name, hk⟩
        exact hw.exists_lookup hids hid hk
    · rintro e before id name ⟨hunbound, -⟩
      exact absurd hunbound.1 (hw.not_unbound hids)
  · simp only [hbuild, reduceCtorEq, false_implies, implies_true, Except.error.injEq, true_and]
    refine ⟨iff_of_true ⟨_, rfl⟩ ⟨before, id, name, hfirst.1⟩, fun e => ⟨?_, ?_⟩⟩
    · rintro rfl
      exact ⟨before, id, name, hfirst, rfl⟩
    · rintro ⟨before', id', name', hfirst', rfl⟩
      obtain ⟨rfl, rfl⟩ := hfirst.unique hfirst'
      rfl

/-- A pipeline that sets one anchor twice, and names it inside its own value and behind each. -/
def reboundPipeline : String := "a: &x [one, *x]\nb: *x\nc: &x two\nd: *x\n"

/-- Inside the first value and behind it the first anchor counts, at the end the second. -/
theorem reboundPipeline_bound : ∃ f m, File.parse "ci.yml" reboundPipeline = .ok f ∧
    16 ∈ f.roots ∧ AliasMap.build f 16 = .ok m ∧
    m.target? 2 = some 3 ∧ LastAnchor f [16, 5, 0, 4, 3, 1] "x" 3 ∧ m.target? 14 = some 10 ∧
    LastAnchor f [16, 5, 0, 4, 3, 1, 2, 8, 6, 7, 12, 9, 11, 10, 15, 13] "x" 10 := by
  have hrun : (File.parse "ci.yml" reboundPipeline).toOption.map (fun f =>
      (f.documents, f.preorder 16, AliasMap.build f 16)) =
      some ([some 16], [16, 5, 0, 4, 3, 1, 2, 8, 6, 7, 12, 9, 11, 10, 15, 13, 14],
        .ok ⟨[(2, 3), (7, 3), (14, 10)]⟩) := by decide +kernel
  have hkinds : (File.parse "ci.yml" reboundPipeline).toOption.map (fun f =>
      (f.kind? 2, f.kind? 14)) = some (some (.aliasOf "x"), some (.aliasOf "x")) := by
    decide +kernel
  obtain ⟨f, hparse, hrun⟩ := Option.map_eq_some_iff.mp hrun
  rw [hparse, Option.map_some, Option.some.injEq] at hkinds
  simp only [Prod.mk.injEq] at hrun hkinds
  obtain ⟨hdocuments, hpreorder, hbuild⟩ := hrun
  have hread := toOption_eq_some.mp hparse
  have hroot : 16 ∈ f.roots := by simp [File.roots, hdocuments]
  obtain ⟨-, hbound, -⟩ := aliases_bound_by_occurrence (.alone hread) hroot .refl
  obtain ⟨-, htargets⟩ := hbound _ hbuild
  refine ⟨f, _, hread, hroot, hbuild, rfl, ?_, rfl, ?_⟩
  · exact (htargets _ 2 _ _ _ hpreorder hkinds.1).mp rfl
  · exact (htargets _ 14 [] _ _ hpreorder hkinds.2).mp rfl

end PipelineScripts.Script
