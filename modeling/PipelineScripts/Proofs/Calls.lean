import Mathlib.Data.Prod.Lex
import Mathlib.Order.WellFounded
import PipelineScripts.Proofs.Jumps

/-!
# Calls of an expansion

An expansion calls itself at the nodes it goes on to. A step down the tree keeps the jumps in
progress and leads to a smaller tree; a jump leads anywhere, and there is one place less to jump
from as long as it goes on. So no chain of calls is endless, whatever the aliases and references
are. The bounds on the number of jumps and on the depth of the tree are never reached, and an error
is that of a call which refuses its node.
-/
namespace PipelineScripts.Script

open Yaml Relation

/-- A call of the expansion: the jumps in progress and a node. -/
structure Call where
  inProgress : InProgress
  node : NodeId

namespace Scope

/-- A step down the tree. -/
inductive Descends (s : Scope) (id : NodeId) : NodeId → Prop
  | item {items comments item} (hk : s.file.kind? id = some (.sequence items comments))
      (hitem : item ∈ items) : Descends s id item
  | anchor {name value} (hk : s.file.kind? id = some (.anchor name value)) : Descends s id value
  | tagged {tag value} (hk : s.file.kind? id = some (.tagged tag value))
      (htag : tag ≠ referenceTag) : Descends s id value

/-- A jump that is not in progress yet, and the jumps in progress behind it. -/
inductive JumpsTo (s : Scope) (p : InProgress) (id : NodeId) : InProgress → NodeId → Prop
  | aliasOf {name target} (hk : s.file.kind? id = some (.aliasOf name))
      (htarget : s.aliases.target? id = some target) (hnew : id ∉ p.aliases) :
      JumpsTo s p id { p with aliases := id :: p.aliases } target
  | reference {value keys target} (hk : s.file.kind? id = some (.tagged referenceTag value))
      (hpath : referencePath? s.file id = some keys)
      (htarget : s.resolvePath? s.root keys = some target)
      (hnew : Text.joinStrings "." keys ∉ p.references) :
      JumpsTo s p id { p with references := Text.joinStrings "." keys :: p.references } target

/-- One call makes another. -/
inductive Calls (s : Scope) : Call → Call → Prop
  | down {p id next} (h : s.Descends id next) : Calls s ⟨p, id⟩ ⟨p, next⟩
  | jump {p p' id next} (h : s.JumpsTo p id p' next) : Calls s ⟨p, id⟩ ⟨p', next⟩

/-- A call refuses its node: it is an alias without a target, or a jump that is in progress. -/
inductive Refuses (s : Scope) (p : InProgress) (id : NodeId) : ExtractError → Prop
  | unbound {name} (hk : s.file.kind? id = some (.aliasOf name))
      (htarget : s.aliases.target? id = none) :
      Refuses s p id (.unresolvedAlias name (s.file.line id))
  | aliasOf {name target} (hk : s.file.kind? id = some (.aliasOf name))
      (htarget : s.aliases.target? id = some target) (hold : id ∈ p.aliases) :
      Refuses s p id (.referenceCycle ("*" ++ name))
  | reference {value keys target} (hk : s.file.kind? id = some (.tagged referenceTag value))
      (hpath : referencePath? s.file id = some keys)
      (htarget : s.resolvePath? s.root keys = some target)
      (hold : Text.joinStrings "." keys ∈ p.references) :
      Refuses s p id (.referenceCycle (Text.joinStrings "." keys))

/-- What a call does: `jump` goes on behind a jump, `down` goes on below the node. -/
def expandStep (s : Scope) (jump down : Jump) : Jump := fun p d id =>
  match s.file.kind? id with
  | some (.tagged tag value) =>
    if tag = referenceTag then s.followReference jump p d id else down p d value
  | some (.anchor _ value) => down p d value
  | some (.aliasOf name) => s.followAlias jump p d id name
  | some (.sequence items comments) =>
    concatResults (fun (item, d) => down p d item) (itemDirectives d items comments)
  | _ => .ok (leafFragment? s.file id d).toList

theorem expandTree_succ (s : Scope) (jump : Jump) (depth : Nat) :
    s.expandTree jump (depth + 1) = s.expandStep jump (s.expandTree jump depth) := rfl

theorem expandWithin_succ (s : Scope) (jumps : Nat) : s.expandWithin (jumps + 1) =
    s.expandStep (s.expandWithin jumps)
      (s.expandTree (s.expandWithin jumps) s.file.nodes.size) := rfl

variable {s : Scope} {p p' : InProgress} {d : Option Directive} {id next : NodeId}

theorem Descends.below (h : s.Descends id next) : s.file.Below id next := by
  cases h with
  | item hk hitem => simpa [File.Below, File.children_of_kind? hk, NodeKind.children] using hitem
  | anchor hk | tagged hk => simp [File.Below, File.children_of_kind? hk, NodeKind.children]

theorem Descends.follows (h : s.Descends id next) : s.Follows id next := by
  cases h with
  | item hk hitem => simpa [Follows, successors, hk] using hitem
  | anchor hk => simp [Follows, successors, hk]
  | tagged hk htag => simp [Follows, successors, hk, htag]

theorem JumpsTo.follows (h : s.JumpsTo p id p' next) : s.Follows id next := by
  cases h with
  | aliasOf hk htarget => simp [Follows, successors_aliasOf hk, htarget]
  | reference hk hpath htarget => simp [Follows, successors_reference hk hpath, htarget]

theorem mem_of_mem_itemDirectives {items : List NodeId} {comments : List (List Comment)}
    {x : NodeId × Option Directive} (h : x ∈ itemDirectives d items comments) : x.1 ∈ items := by
  obtain ⟨y, hy, rfl⟩ := List.mem_map.mp h
  exact List.fst_mem_of_mem_zipIdx hy

/-! ### The calls that a call makes are all it depends on -/

theorem expandStep_congr {jump jump' down down' : Jump}
    (hdown : ∀ next d, s.Descends id next → down p d next = down' p d next)
    (hjump : ∀ p' next d, s.JumpsTo p id p' next → jump p' d next = jump' p' d next) :
    s.expandStep jump down p d id = s.expandStep jump' down' p d id := by
  unfold expandStep
  cases hk : s.file.kind? id with
  | none => rfl
  | some k =>
    cases k with
    | tagged tag value =>
      dsimp only
      split_ifs with htag
      · subst htag
        unfold followReference
        cases hpath : referencePath? s.file id with
        | none => rfl
        | some keys =>
          dsimp only
          cases htarget : s.resolvePath? s.root keys with
          | none => rfl
          | some target =>
            dsimp only
            split_ifs with hold
            · rfl
            · exact hjump _ _ _ (.reference hk hpath htarget (by simpa using hold))
      · exact hdown _ _ (.tagged hk htag)
    | anchor name value => exact hdown _ _ (.anchor hk)
    | aliasOf name =>
      unfold followAlias
      cases htarget : s.aliases.target? id with
      | none => rfl
      | some target =>
        dsimp only
        split_ifs with hold
        · rfl
        · exact hjump _ _ _ (.aliasOf hk htarget (by simpa using hold))
    | sequence items comments =>
      refine concatResults_congr fun x hx => ?_
      exact hdown _ _ (.item hk (mem_of_mem_itemDirectives hx))
    | scalar _ _ | block _ _ _ | mapping _ | entry _ _ _ => rfl

/-- An error is that of the call itself or of one it makes. -/
theorem expandStep_eq_error {jump down : Jump} {e : ExtractError}
    (h : s.expandStep jump down p d id = .error e) :
    s.Refuses p id e ∨ (∃ next d, s.Descends id next ∧ down p d next = .error e) ∨
      ∃ p' next d, s.JumpsTo p id p' next ∧ jump p' d next = .error e := by
  unfold expandStep at h
  split at h
  next tag value hk =>
    split_ifs at h with htag
    · subst htag
      unfold followReference at h
      split at h
      next => cases h
      next keys hpath =>
        dsimp only at h
        split at h
        next => cases h
        next target htarget =>
          split_ifs at h with hold
          · cases h
            exact .inl (.reference hk hpath htarget (by simpa using hold))
          · exact .inr (.inr ⟨_, _, _, .reference hk hpath htarget (by simpa using hold), h⟩)
    · exact .inr (.inl ⟨_, _, .tagged hk htag, h⟩)
  next name value hk => exact .inr (.inl ⟨_, _, .anchor hk, h⟩)
  next name hk =>
    unfold followAlias at h
    split at h
    next htarget =>
      cases h
      exact .inl (.unbound hk htarget)
    next target htarget =>
      split_ifs at h with hold
      · cases h
        exact .inl (.aliasOf hk htarget (by simpa using hold))
      · exact .inr (.inr ⟨_, _, _, .aliasOf hk htarget (by simpa using hold), h⟩)
  next items comments hk =>
    obtain ⟨x, hx, hx'⟩ := exists_of_concatResults_eq_error h
    exact .inr (.inl ⟨_, _, .item hk (mem_of_mem_itemDirectives hx), hx'⟩)
  next => cases h

/-! ### Calls come to an end -/

/-- A place to jump from: an alias or a reference that is not in progress. -/
def MayJump (s : Scope) (p : InProgress) (id : NodeId) : Prop :=
  ((∃ name, s.file.kind? id = some (.aliasOf name)) ∧ id ∉ p.aliases) ∨
    ∃ keys, referencePath? s.file id = some keys ∧ Text.joinStrings "." keys ∉ p.references

open Classical in
/-- The places to jump from. -/
noncomputable def placesLeft (s : Scope) (p : InProgress) : Finset NodeId :=
  (Finset.range s.file.nodes.size).filter (s.MayJump p)

@[simp] theorem mem_placesLeft {x : NodeId} :
    x ∈ s.placesLeft p ↔ x < s.file.nodes.size ∧ s.MayJump p x := by
  simp [placesLeft]

/-- The number of places to jump from. -/
noncomputable def jumpsLeft (s : Scope) (p : InProgress) : Nat := (s.placesLeft p).card

theorem jumpsLeft_le (s : Scope) (p : InProgress) : s.jumpsLeft p ≤ s.file.nodes.size := by
  have hsub : s.placesLeft p ⊆ Finset.range s.file.nodes.size := by
    intro x hx
    exact Finset.mem_range.mpr (mem_placesLeft.mp hx).1
  have hle := Finset.card_le_card hsub
  rwa [Finset.card_range] at hle

/-- A jump starts at such a place, which is none as long as the jump goes on. -/
theorem JumpsTo.mayJump (h : s.JumpsTo p id p' next) :
    s.MayJump p id ∧ ¬ s.MayJump p' id ∧ ∀ x, s.MayJump p' x → s.MayJump p x := by
  cases h with
  | @aliasOf name target hk htarget hnew =>
    refine ⟨.inl ⟨⟨name, hk⟩, hnew⟩, ?_, fun x hx => ?_⟩
    · rintro (⟨-, hold⟩ | ⟨keys, hpath, -⟩)
      · exact hold List.mem_cons_self
      · simp [referencePath?, hk] at hpath
    · exact hx.imp_left fun hx => ⟨hx.1, fun hmem => hx.2 (List.mem_cons_of_mem id hmem)⟩
  | @reference value keys target hk hpath htarget hnew =>
    refine ⟨.inr ⟨keys, hpath, hnew⟩, ?_, fun x hx => ?_⟩
    · rintro (⟨⟨name, hname⟩, -⟩ | ⟨keys', hpath', hold⟩)
      · cases hname.symm.trans hk
      · cases hpath'.symm.trans hpath
        exact hold List.mem_cons_self
    · refine hx.imp_right ?_
      rintro ⟨keys', hpath', hfree⟩
      exact ⟨keys', hpath', fun hmem => hfree (List.mem_cons_of_mem _ hmem)⟩

theorem JumpsTo.jumpsLeft_lt (h : s.JumpsTo p id p' next) : s.jumpsLeft p' < s.jumpsLeft p := by
  obtain ⟨hbefore, hafter, hless⟩ := h.mayJump
  have hid : id < s.file.nodes.size := by
    cases h with
    | aliasOf hk | reference hk => exact File.lt_size_of_kind? hk
  refine Finset.card_lt_card ⟨fun x hx => ?_, fun hsub => ?_⟩
  · obtain ⟨hlt, hx⟩ := mem_placesLeft.mp hx
    exact mem_placesLeft.mpr ⟨hlt, hless x hx⟩
  · exact hafter (mem_placesLeft.mp (hsub (mem_placesLeft.mpr ⟨hid, hbefore⟩))).2

/-- No chain of calls is endless: a jump leaves fewer places to jump from, and a step down leaves
as many and a smaller tree. -/
theorem wellFounded_calls (hf : s.file.Acyclic) :
    WellFounded fun call caller => s.Calls caller call := by
  refine Subrelation.wf (r := InvImage (Prod.Lex (· < ·) (· < ·))
    fun c : Call => (s.jumpsLeft c.inProgress, s.file.height c.node)) ?_
    (InvImage.wf _ (WellFounded.prod_lex Nat.lt_wfRel.wf Nat.lt_wfRel.wf))
  intro call caller h
  cases h with
  | down h => exact Prod.Lex.right _ (File.height_lt hf h.below)
  | jump h => exact Prod.Lex.left _ _ h.jumpsLeft_lt

/-! ### The bounds are never reached -/

/-- Any two bounds give the same result if there are places left for the jumps, and the depth covers
the tree. -/
theorem expandTree_eq (hf : s.file.Acyclic) (call : Call) :
    ∀ {jumps jumps' depth depth' : Nat} {d : Option Directive},
      s.jumpsLeft call.inProgress ≤ jumps → s.jumpsLeft call.inProgress ≤ jumps' →
      s.file.height call.node < depth → s.file.height call.node < depth' →
        s.expandTree (s.expandWithin jumps) depth call.inProgress d call.node =
          s.expandTree (s.expandWithin jumps') depth' call.inProgress d call.node := by
  induction call using (wellFounded_calls hf).induction with
  | _ call ih =>
    obtain ⟨p, id⟩ := call
    intro jumps jumps' depth depth' d hjumps hjumps' hdepth hdepth'
    dsimp only at *
    obtain ⟨depth, rfl⟩ : ∃ n, depth = n + 1 := ⟨depth - 1, by omega⟩
    obtain ⟨depth', rfl⟩ : ∃ n, depth' = n + 1 := ⟨depth' - 1, by omega⟩
    rw [expandTree_succ, expandTree_succ]
    refine expandStep_congr (fun next d hnext => ?_) fun p' next d hnext => ?_
    · have hlt := File.height_lt hf hnext.below
      exact ih ⟨p, next⟩ (.down hnext) hjumps hjumps' (by dsimp only; omega) (by dsimp only; omega)
    · have hlt := hnext.jumpsLeft_lt
      have hheight := s.file.height_le next
      obtain ⟨jumps, rfl⟩ : ∃ n, jumps = n + 1 := ⟨jumps - 1, by omega⟩
      obtain ⟨jumps', rfl⟩ : ∃ n, jumps' = n + 1 := ⟨jumps' - 1, by omega⟩
      exact ih ⟨p', next⟩ (.jump hnext) (by dsimp only; omega) (by dsimp only; omega)
        (by dsimp only; omega) (by dsimp only; omega)

theorem expandWithin_eq (hf : s.file.Acyclic) {jumps jumps' : Nat} (hjumps : s.jumpsLeft p < jumps)
    (hjumps' : s.jumpsLeft p < jumps') :
    s.expandWithin jumps p d id = s.expandWithin jumps' p d id := by
  have hheight := s.file.height_le id
  obtain ⟨jumps, rfl⟩ : ∃ n, jumps = n + 1 := ⟨jumps - 1, by omega⟩
  obtain ⟨jumps', rfl⟩ : ∃ n, jumps' = n + 1 := ⟨jumps' - 1, by omega⟩
  exact expandTree_eq hf ⟨p, id⟩ (by dsimp only; omega) (by dsimp only; omega)
    (by dsimp only; omega) (by dsimp only; omega)

/-- An expansion that may start with any jumps in progress. -/
def expandFrom (s : Scope) : Jump := s.expandWithin (s.file.nodes.size + 1)

theorem expand_eq (s : Scope) (id : NodeId) : s.expand id = s.expandFrom {} none id := rfl

/-- The bounds leave no trace: each call does with itself what it does with smaller bounds. -/
theorem expandFrom_eq (hf : s.file.Acyclic) (p : InProgress) (d : Option Directive) (id : NodeId) :
    s.expandFrom p d id = s.expandStep s.expandFrom s.expandFrom p d id := by
  have hleft := s.jumpsLeft_le p
  have hheight := s.file.height_le id
  conv_lhs => rw [expandFrom, expandWithin_succ]
  refine expandStep_congr (fun next d hnext => ?_) fun p' next d hnext => ?_
  · have hlt := File.height_lt hf hnext.below
    exact expandTree_eq hf ⟨p, next⟩ hleft hleft (by dsimp only; omega) (by dsimp only; omega)
  · have hlt := hnext.jumpsLeft_lt
    exact expandWithin_eq hf (by omega) (by omega)

/-- There is no other way to meet the equations of the calls. -/
theorem eq_expandFrom (hf : s.file.Acyclic) {go : Jump}
    (hgo : ∀ p d id, go p d id = s.expandStep go go p d id) : go = s.expandFrom := by
  have hall : ∀ call : Call, ∀ d, go call.inProgress d call.node =
      s.expandFrom call.inProgress d call.node := by
    intro call
    induction call using (wellFounded_calls hf).induction with
    | _ call ih =>
      intro d
      rw [hgo, expandFrom_eq hf]
      exact expandStep_congr (fun next d hnext => ih ⟨_, next⟩ (.down hnext) d)
        fun p' next d hnext => ih ⟨p', next⟩ (.jump hnext) d
  funext p d id
  exact hall ⟨p, id⟩ d

/-- An error is that of a call which refuses its node. -/
theorem exists_refuses (hf : s.file.Acyclic) {e : ExtractError}
    (h : s.expandFrom p d id = .error e) :
    ∃ call : Call, ReflTransGen s.Calls ⟨p, id⟩ call ∧ s.Refuses call.inProgress call.node e := by
  have hall : ∀ start : Call, ∀ d, s.expandFrom start.inProgress d start.node = .error e →
      ∃ call : Call, ReflTransGen s.Calls start call ∧
        s.Refuses call.inProgress call.node e := by
    intro start
    induction start using (wellFounded_calls hf).induction with
    | _ start ih =>
      obtain ⟨p, id⟩ := start
      intro d h
      rw [expandFrom_eq hf] at h
      rcases expandStep_eq_error h with hrefuses | ⟨next, d, hnext, h⟩ | ⟨p', next, d, hnext, h⟩
      · exact ⟨⟨p, id⟩, .refl, hrefuses⟩
      · obtain ⟨call, hcalls, hrefuses⟩ := ih ⟨p, next⟩ (.down hnext) d h
        exact ⟨call, hcalls.head (.down hnext), hrefuses⟩
      · obtain ⟨call, hcalls, hrefuses⟩ := ih ⟨p', next⟩ (.jump hnext) d h
        exact ⟨call, hcalls.head (.jump hnext), hrefuses⟩
  exact hall ⟨p, id⟩ d h

end Scope

namespace InProgress.Leads

variable {s : Scope} {start : NodeId}

/-- What holds of the jumps in progress is kept by every call. -/
theorem calls {a b : Call} (h : a.inProgress.Leads s start a.node)
    (hcalls : ReflTransGen s.Calls a b) : b.inProgress.Leads s start b.node := by
  induction hcalls with
  | refl => exact h
  | tail _ hstep ih =>
    cases hstep with
    | down hdown => exact ih.step hdown.follows
    | jump hjump =>
      cases hjump with
      | aliasOf hk htarget hnew => exact ih.jumpAlias hk htarget hnew
      | reference hk hpath htarget hnew => exact ih.jumpReference hk hpath htarget hnew

end InProgress.Leads

end PipelineScripts.Script
