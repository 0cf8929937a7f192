import Mathlib.Data.Fintype.Pigeonhole
import PipelineScripts.Proofs.Calls
import PipelineScripts.Proofs.TreeShape
import PipelineScripts.Script.Jobs

/-!
# Cycles among jumps

If no jump were refused an expansion might go on for ever: exactly if an alias or a reference is met
again behind its own jump. No expansion does, since a jump in progress is refused. But references
in progress are told apart by their spelling, with a dot between two keys, and a key may have dots
itself. So a reference is also refused behind another one that names other keys and is spelled
alike.
-/
namespace PipelineScripts.Script

open Yaml Relation

/-- Where steps start at finitely many nodes only, an endless way comes to one of them again. -/
theorem exists_loop_of_not_acc {r : NodeId → NodeId → Prop} {n : Nat} (hlt : ∀ a b, r a b → a < n)
    {start : NodeId} (h : ¬ Acc (fun b a => r a b) start) :
    ∃ id, ReflTransGen r start id ∧ TransGen r id id := by
  obtain ⟨way, rfl, hway⟩ :=
    (not_acc_iff_exists_descending_chain (r := fun b a => r a b)).mp h
  let visited : Nat → Fin n := fun i => ⟨way i, hlt _ _ (hway i)⟩
  obtain ⟨i, j, hne, hsame⟩ := Finite.exists_ne_map_eq_of_infinite visited
  wlog hij : i < j generalizing i j
  · exact this j i hne.symm hsame.symm (by omega)
  have hreach : ∀ n, ReflTransGen r (way 0) (way n) := by
    intro n
    induction n with
    | zero => exact .refl
    | succ n ih => exact ih.tail (hway n)
  have hlater : ∀ n, TransGen r (way i) (way (i + n + 1)) := by
    intro n
    induction n with
    | zero => exact .single (hway i)
    | succ n ih => exact ih.tail (hway (i + n + 1))
  have hloop := hlater (j - i - 1)
  have hsum : i + (j - i - 1) + 1 = j := by omega
  have heq : way i = way j := Fin.mk.inj hsame
  rw [hsum, ← heq] at hloop
  exact ⟨way i, hreach i, hloop⟩

namespace Scope

/-- The expansion of a node goes on for ever if no jump is refused. -/
def Endless (s : Scope) (start : NodeId) : Prop :=
  ∃ way : Nat → NodeId, way 0 = start ∧ ∀ n, s.Follows (way n) (way (n + 1))

/-- A jump leads back to itself: an alias to the same node, a reference to one with the same
keys. -/
inductive Reenters (s : Scope) (start : NodeId) : String → Prop
  | aliasOf {id name} (hid : ReflTransGen s.Follows start id)
      (hk : s.file.kind? id = some (.aliasOf name)) (hback : TransGen s.Follows id id) :
      Reenters s start ("*" ++ name)
  | reference {id again keys target} (hid : ReflTransGen s.Follows start id)
      (hpath : referencePath? s.file id = some keys)
      (htarget : s.resolvePath? s.root keys = some target)
      (hagain : ReflTransGen s.Follows target again)
      (hsame : referencePath? s.file again = some keys) :
      Reenters s start (Text.joinStrings "." keys)

/-- Behind the jump of a reference another one is met that names other keys and is spelled
alike. -/
def MeetsAlike (s : Scope) (start : NodeId) (path : String) : Prop :=
  ∃ id keys target other keys' target',
    ReflTransGen s.Follows start id ∧ referencePath? s.file id = some keys ∧
      s.resolvePath? s.root keys = some target ∧ ReflTransGen s.Follows target other ∧
      referencePath? s.file other = some keys' ∧ s.resolvePath? s.root keys' = some target' ∧
      keys ≠ keys' ∧ Text.joinStrings "." keys = path ∧ Text.joinStrings "." keys' = path

/-- An alias without a target is met. -/
def MeetsUnbound (s : Scope) (start : NodeId) (name : String) (line : Nat) : Prop :=
  ∃ id, ReflTransGen s.Follows start id ∧ s.file.kind? id = some (.aliasOf name) ∧
    s.aliases.target? id = none ∧ s.file.line id = line

variable {s : Scope} {p p' : InProgress} {d : Option Directive} {start id next target : NodeId}
  {keys : List String}

theorem kind?_of_referencePath? {f : File} (h : referencePath? f id = some keys) :
    ∃ value, f.kind? id = some (.tagged referenceTag value) := by
  unfold referencePath? at h
  split at h
  next tag value hk =>
    split_ifs at h with htag
    exact ⟨value, htag ▸ hk⟩
  next => cases h

theorem follows_of_referencePath? (hpath : referencePath? s.file id = some keys)
    (htarget : s.resolvePath? s.root keys = some target) : s.Follows id target := by
  obtain ⟨value, hk⟩ := kind?_of_referencePath? hpath
  simp [Follows, successors_reference hk hpath, htarget]

/-- A step of an expansion is one down the tree or a jump, unless the jump is in progress. -/
theorem Follows.cases (p : InProgress) (h : s.Follows id next) :
    s.Descends id next ∨ (∃ p', s.JumpsTo p id p' next) ∨
      ∃ path, s.Refuses p id (.referenceCycle path) := by
  cases hk : s.file.kind? id with
  | none => simp [Follows, successors, hk] at h
  | some k =>
    cases k with
    | sequence items comments =>
      exact .inl (.item hk (by simpa [Follows, successors, hk] using h))
    | anchor name value =>
      obtain rfl : next = value := by simpa [Follows, successors, hk] using h
      exact .inl (.anchor hk)
    | tagged tag value =>
      by_cases htag : tag = referenceTag
      · subst htag
        obtain ⟨keys, hpath, htarget⟩ : ∃ keys, referencePath? s.file id = some keys ∧
            s.resolvePath? s.root keys = some next := by
          simpa [Follows, successors, hk, resolveReference?, Option.bind_eq_some_iff] using h
        by_cases hold : Text.joinStrings "." keys ∈ p.references
        · exact .inr (.inr ⟨_, .reference hk hpath htarget hold⟩)
        · exact .inr (.inl ⟨_, .reference hk hpath htarget hold⟩)
      · obtain rfl : next = value := by simpa [Follows, successors, hk, htag] using h
        exact .inl (.tagged hk htag)
    | aliasOf name =>
      have htarget : s.aliases.target? id = some next := by
        simpa [Follows, successors_aliasOf hk] using h
      by_cases hold : id ∈ p.aliases
      · exact .inr (.inr ⟨_, .aliasOf hk htarget hold⟩)
      · exact .inr (.inl ⟨_, .aliasOf hk htarget hold⟩)
    | scalar _ _ | block _ _ _ | mapping _ | entry _ _ _ => simp [Follows, successors, hk] at h

/-! ### Endless expansions -/

theorem endless_iff_not_acc : s.Endless start ↔ ¬ Acc (fun b a => s.Follows a b) start :=
  (not_acc_iff_exists_descending_chain (r := fun b a => s.Follows a b)).symm

theorem Endless.head (h : s.Endless next) (hstep : ReflTransGen s.Follows start next) :
    s.Endless start := by
  rw [endless_iff_not_acc] at h ⊢
  refine mt (fun hacc => ?_) h
  clear h
  induction hstep with
  | refl => exact hacc
  | tail _ hstep ih => exact ih.inv hstep

theorem endless_of_loop (h : TransGen s.Follows id id) : s.Endless id := by
  refine endless_iff_not_acc.mpr fun hacc => ?_
  induction hacc with
  | intro id _ ih =>
    obtain ⟨next, hstep, hback⟩ := TransGen.head'_iff.mp h
    exact ih next hstep (TransGen.tail' hback hstep)

theorem lt_size_of_follows (h : s.Follows id next) : id < s.file.nodes.size := by
  cases hk : s.file.kind? id with
  | none => simp [Follows, successors, hk] at h
  | some k => exact File.lt_size_of_kind? hk

theorem Endless.exists_loop (h : s.Endless start) :
    ∃ id, ReflTransGen s.Follows start id ∧ TransGen s.Follows id id :=
  exists_loop_of_not_acc (fun _ _ => lt_size_of_follows) (endless_iff_not_acc.mp h)

/-- A way that is not one down the tree has a jump on it. -/
theorem exists_jump_of_transGen {a b : NodeId} (h : TransGen s.Follows a b) :
    TransGen s.file.Below a b ∨ ∃ id p next, ReflTransGen s.Follows a id ∧
      s.JumpsTo {} id p next ∧ ReflTransGen s.Follows next b := by
  have hstep : ∀ {id next}, s.Follows id next →
      s.file.Below id next ∨ ∃ p, s.JumpsTo {} id p next := by
    intro id next h
    obtain hdown | hjump | ⟨path, hrefuses⟩ := h.cases {}
    · exact .inl hdown.below
    · exact .inr hjump
    · cases hrefuses with
      | aliasOf _ _ hold | reference _ _ _ hold => simp at hold
  induction h with
  | single h =>
    refine (hstep h).imp .single ?_
    rintro ⟨p, hjump⟩
    exact ⟨_, p, _, .refl, hjump, .refl⟩
  | tail hway h ih =>
    rcases ih with hdown | ⟨id, p, next, hid, hjump, hnext⟩
    · rcases hstep h with hbelow | ⟨p, hjump⟩
      · exact .inl (hdown.tail hbelow)
      · exact .inr ⟨_, p, _, hway.to_reflTransGen, hjump, .refl⟩
    · exact .inr ⟨id, p, next, hid, hjump, hnext.tail h⟩

/-- An expansion is endless in exactly one case: a jump leads back to itself. -/
theorem endless_iff (hf : s.file.Acyclic) : s.Endless start ↔ ∃ path, s.Reenters start path := by
  constructor
  · intro h
    obtain ⟨a, ha, hloop⟩ := h.exists_loop
    rcases exists_jump_of_transGen hloop with hdown | ⟨id, p, next, hid, hjump, hnext⟩
    · exact absurd hdown (hf a)
    · have hback : ReflTransGen s.Follows next id := hnext.trans hid
      cases hjump with
      | aliasOf hk htarget hnew =>
        have hjump := JumpsTo.aliasOf hk htarget hnew
        exact ⟨_, .aliasOf (ha.trans hid) hk (TransGen.head' hjump.follows hback)⟩
      | reference hk hpath htarget =>
        exact ⟨_, .reference (ha.trans hid) hpath htarget hback hpath⟩
  · rintro ⟨path, h⟩
    cases h with
    | aliasOf hid hk hback => exact (endless_of_loop hback).head hid
    | reference hid hpath htarget hagain hsame =>
      have hloop := TransGen.tail' hagain (follows_of_referencePath? hsame htarget)
      exact (endless_of_loop hloop).head (hid.tail (follows_of_referencePath? hpath htarget))

/-! ### What makes an expansion fail -/

theorem Refuses.expandFrom_eq (hf : s.file.Acyclic) {e : ExtractError} (h : s.Refuses p id e) :
    s.expandFrom p d id = .error e := by
  rw [Scope.expandFrom_eq hf]
  cases h with
  | unbound hk htarget => simp [expandStep, hk, followAlias, htarget]
  | aliasOf hk htarget hold => simp [expandStep, hk, followAlias, htarget, hold]
  | reference hk hpath htarget hold =>
    simp [expandStep, hk, followReference, hpath, htarget, hold]

/-- If a call ends well then so do those that it makes. -/
theorem Calls.eq_ok (hf : s.file.Acyclic) {a b : Call} (h : s.Calls a b) {out : List Fragment}
    (hok : s.expandFrom a.inProgress d a.node = .ok out) :
    ∃ d out, s.expandFrom b.inProgress d b.node = .ok out := by
  rw [expandFrom_eq hf] at hok
  cases h with
  | down hdown =>
    cases hdown with
    | @item items comments item hk hitem =>
      simp only [expandStep, hk] at hok
      obtain ⟨parts, hparts, -⟩ := concatResults_eq_ok.mp hok
      obtain ⟨i, hi, rfl⟩ := List.getElem_of_mem hitem
      have hat := itemDirectives_getElem? d items comments i
      rw [List.getElem?_eq_getElem hi] at hat
      obtain ⟨part, -, hpart⟩ := exists_right_of_mem hparts (List.mem_of_getElem? hat)
      exact ⟨_, part, hpart⟩
    | anchor hk => exact ⟨d, out, by simpa [expandStep, hk] using hok⟩
    | tagged hk htag => exact ⟨d, out, by simpa [expandStep, hk, htag] using hok⟩
  | jump hjump =>
    cases hjump with
    | aliasOf hk htarget hnew =>
      exact ⟨d, out, by simpa [expandStep, hk, followAlias, htarget, hnew] using hok⟩
    | reference hk hpath htarget hnew =>
      exact ⟨d, out, by simpa [expandStep, hk, followReference, hpath, htarget, hnew] using hok⟩

theorem eq_ok_of_calls (hf : s.file.Acyclic) {a b : Call} (h : ReflTransGen s.Calls a b)
    {out : List Fragment} (hok : s.expandFrom a.inProgress d a.node = .ok out) :
    ∃ d out, s.expandFrom b.inProgress d b.node = .ok out := by
  induction h with
  | refl => exact ⟨d, out, hok⟩
  | tail _ hstep ih =>
    obtain ⟨d, out, hok⟩ := ih
    exact hstep.eq_ok hf hok

/-- If a call ends well then every node on the ways from its own is that of some call. -/
theorem exists_calls_of_follows (hf : s.file.Acyclic) {out : List Fragment}
    (hok : s.expandFrom p d start = .ok out) (h : ReflTransGen s.Follows start id) :
    ∃ p', ReflTransGen s.Calls ⟨p, start⟩ ⟨p', id⟩ := by
  induction h with
  | refl => exact ⟨p, .refl⟩
  | tail _ hstep ih =>
    obtain ⟨p', hcalls⟩ := ih
    rcases hstep.cases p' with hdown | ⟨p'', hjump⟩ | ⟨path, hrefuses⟩
    · exact ⟨p', hcalls.tail (.down hdown)⟩
    · exact ⟨p'', hcalls.tail (.jump hjump)⟩
    · obtain ⟨d', out', hok'⟩ := eq_ok_of_calls hf hcalls hok
      cases (hrefuses.expandFrom_eq hf (d := d')).symm.trans hok'

/-- Where a call ends well, none of those it leads to refuses its node. -/
theorem not_refuses_of_calls (hf : s.file.Acyclic) {out : List Fragment} {e : ExtractError}
    (hok : s.expandFrom p d start = .ok out) (h : ReflTransGen s.Calls ⟨p, start⟩ ⟨p', id⟩) :
    ¬ s.Refuses p' id e := by
  intro hrefuses
  obtain ⟨d', out', hok'⟩ := eq_ok_of_calls hf h hok
  cases (hrefuses.expandFrom_eq hf (d := d')).symm.trans hok'

theorem references_subset_of_calls {a b : Call} (h : ReflTransGen s.Calls a b) :
    a.inProgress.references ⊆ b.inProgress.references := by
  induction h with
  | refl => exact List.Subset.refl _
  | tail _ hstep ih =>
    cases hstep with
    | down => exact ih
    | jump hjump =>
      cases hjump with
      | aliasOf => exact ih
      | reference => exact List.subset_cons_of_subset _ ih

/-- The second of two references that are spelled alike is refused behind the first. -/
theorem not_meetsAlike_of_ok (hf : s.file.Acyclic) {out : List Fragment} {path : String}
    (hok : s.expand start = .ok out) : ¬ s.MeetsAlike start path := by
  rintro ⟨id, keys, target, other, keys', target', hid, hpath, htarget, hother, hpath', htarget', -,
    rfl, hspelled⟩
  obtain ⟨value, hk⟩ := kind?_of_referencePath? hpath
  obtain ⟨value', hk'⟩ := kind?_of_referencePath? hpath'
  obtain ⟨p, hcalls⟩ := exists_calls_of_follows hf hok hid
  have hnew : Text.joinStrings "." keys ∉ p.references := fun hold =>
    not_refuses_of_calls hf hok hcalls (.reference hk hpath htarget hold)
  have hjump := hcalls.tail (.jump (.reference hk hpath htarget hnew))
  obtain ⟨d, out', hok'⟩ := eq_ok_of_calls hf hjump hok
  obtain ⟨p', hcalls'⟩ := exists_calls_of_follows hf hok' hother
  have hold : Text.joinStrings "." keys' ∈ p'.references := by
    rw [hspelled]
    exact references_subset_of_calls hcalls' List.mem_cons_self
  exact not_refuses_of_calls hf hok' hcalls' (.reference hk' hpath' htarget' hold)

theorem not_meetsUnbound_of_ok (hf : s.file.Acyclic) {out : List Fragment} {name : String}
    {line : Nat} (hok : s.expand start = .ok out) : ¬ s.MeetsUnbound start name line := by
  rintro ⟨id, hid, hk, htarget, -⟩
  obtain ⟨p, hcalls⟩ := exists_calls_of_follows hf hok hid
  exact not_refuses_of_calls hf hok hcalls (.unbound hk htarget)

/-- An expansion that fails met an alias without a target, a jump that leads back to itself, or two
references that are spelled alike. -/
theorem meets_of_error (hf : s.file.Acyclic) {e : ExtractError} (h : s.expand start = .error e) :
    (∃ path, e = .referenceCycle path ∧ (s.Reenters start path ∨ s.MeetsAlike start path)) ∨
      ∃ name line, e = .unresolvedAlias name line ∧ s.MeetsUnbound start name line := by
  obtain ⟨⟨p, id⟩, hcalls, hrefuses⟩ := exists_refuses hf h
  have hleads := (InProgress.Leads.initial s start).calls hcalls
  cases hrefuses with
  | @unbound name hk htarget =>
    exact .inr ⟨name, _, rfl, id, hleads.reached, hk, htarget, rfl⟩
  | aliasOf hk htarget hold =>
    have hback := (hleads.aliases id hold).2
    exact .inl ⟨_, rfl, .inl (.aliasOf hleads.reached hk hback)⟩
  | @reference value keys target hk hpath htarget hold =>
    obtain ⟨x, keys', target', hx, hkeys', hspelled, htarget', hled⟩ := hleads.references _ hold
    refine .inl ⟨_, rfl, ?_⟩
    by_cases hsame : keys' = keys
    · subst hsame
      exact .inl (.reference hx hkeys' htarget' hled hpath)
    · exact .inr ⟨x, keys', target', id, keys, target, hx, hkeys', htarget', hled, hpath, htarget,
        hsame, hspelled, rfl⟩

/-- An expansion ends well in exactly one case: it would end without a guard, and neither aliases
without a target nor references spelled alike are met. -/
theorem expand_ok_iff (hf : s.file.Acyclic) : (∃ out, s.expand start = .ok out) ↔
    ¬ s.Endless start ∧ (∀ path, ¬ s.MeetsAlike start path) ∧
      ∀ name line, ¬ s.MeetsUnbound start name line := by
  constructor
  · rintro ⟨out, hok⟩
    refine ⟨fun hendless => ?_, fun path => not_meetsAlike_of_ok hf hok,
      fun name line => not_meetsUnbound_of_ok hf hok⟩
    have hmeaning : s.Expands none start out := expands_of_expandWithin hok
    exact endless_iff_not_acc.mp hendless hmeaning.acc
  · rintro ⟨hends, halike, hunbound⟩
    cases hresult : s.expand start with
    | ok out => exact ⟨out, rfl⟩
    | error e =>
      rcases meets_of_error hf hresult with ⟨path, -, hreenters | halike'⟩ | ⟨name, line, -, h⟩
      · exact absurd ((endless_iff hf).mpr ⟨path, hreenters⟩) hends
      · exact absurd halike' (halike path)
      · exact absurd h (hunbound name line)

/-! ### Errors of cycles -/

/-- A cycle that is reported is real, so that the expansion would be endless, or it is that of two
references that are spelled alike; and these are reported wherever nothing else goes wrong. -/
theorem referenceCycle_real (hf : s.file.Acyclic) (start : NodeId) :
    (s.Endless start ↔ ∃ path, s.Reenters start path) ∧
      (∀ path, s.expand start = .error (.referenceCycle path) →
        s.Reenters start path ∨ s.MeetsAlike start path) ∧
      (¬ s.Endless start → (∀ name line, ¬ s.MeetsUnbound start name line) →
        ((∃ path, s.expand start = .error (.referenceCycle path)) ↔
          ∃ path, s.MeetsAlike start path)) := by
  have hreal : ∀ path, s.expand start = .error (.referenceCycle path) →
      s.Reenters start path ∨ s.MeetsAlike start path := by
    intro path h
    rcases meets_of_error hf h with ⟨_, heq, hmeets⟩ | ⟨name, line, heq, -⟩
    · cases heq
      exact hmeets
    · cases heq
  refine ⟨endless_iff hf, hreal, fun hends hunbound => ⟨?_, ?_⟩⟩
  · rintro ⟨path, h⟩
    refine ⟨path, (hreal path h).resolve_left fun hreenters => ?_⟩
    exact hends ((endless_iff hf).mpr ⟨path, hreenters⟩)
  · rintro ⟨path, halike⟩
    cases hresult : s.expand start with
    | ok out => exact absurd halike (not_meetsAlike_of_ok hf hresult)
    | error e =>
      rcases meets_of_error hf hresult with ⟨path', rfl, -⟩ | ⟨name, line, -, h⟩
      · exact ⟨path', rfl⟩
      · exact absurd h (hunbound name line)

/-- A section with an alias and a reference in it that both stand for the section. -/
def loopingJumps : Scope :=
  let node := fun kind => (⟨kind, ⟨1, 1⟩, "$", 0⟩ : Node)
  { file :=
      { name := "ci.yml"
        sources := ["ci.yml"]
        documents := [some 12]
        nodes := #[node (.scalar "job" .plain), node (.scalar "script" .plain),
          node (.aliasOf "x"), node (.scalar "job" .plain), node (.scalar "script" .plain),
          node (.sequence [3, 4] [[], []]), node (.tagged "!reference" 5),
          node (.sequence [2, 6] [[], []]), node (.anchor "x" 7), node (.entry 1 8 []),
          node (.mapping [9]), node (.entry 0 10 []), node (.mapping [11])] }
    root := 12
    aliases := ⟨[(2, 7)]⟩ }

theorem endless_loopingJumps : loopingJumps.Endless 2 :=
  endless_of_loop (.tail (.single (show 7 ∈ loopingJumps.successors 2 by decide))
    (show 2 ∈ loopingJumps.successors 7 by decide))

/-- The alias is refused inside its own target: it leads back to itself. -/
theorem loopingJumps_refused :
    loopingJumps.file.Acyclic ∧ loopingJumps.expand 2 = .error (.referenceCycle "*x") ∧
      loopingJumps.Endless 2 ∧ loopingJumps.Reenters 2 "*x" := by
  have hf : loopingJumps.file.Acyclic := File.acyclic_of_children_lt (by decide)
  have hresult : loopingJumps.expand 2 = .error (.referenceCycle "*x") := by decide +kernel
  refine ⟨hf, hresult, endless_loopingJumps, ?_⟩
  refine ((referenceCycle_real hf 2).2.1 "*x" hresult).resolve_right ?_
  -- The only reference is spelled otherwise.
  rintro ⟨-, -, -, other, keys, -, -, -, -, -, hpath, -, -, -, hspelled⟩
  have honly : ∀ id < loopingJumps.file.nodes.size,
      referencePath? loopingJumps.file id ∈ [none, some ["job", "script"]] := by decide
  have hkeys := honly other (lt_size_of_referencePath? hpath)
  rw [hpath] at hkeys
  obtain rfl : keys = ["job", "script"] := by simpa using hkeys
  revert hspelled
  decide

/-- A pipeline with two references that name different keys and are spelled alike, one inside the
other. -/
def dottedPipeline : String :=
  ".a:\n  b.script: echo\n.a.b:\n  script:\n    - !reference [.a, b.script]\n" ++
    "job:\n  script: !reference [.a.b, script]\n"

/-- The second reference is taken for the first: a cycle is reported, though the expansion comes to
an end without a guard and has a meaning. -/
theorem dottedPipeline_refused : ∃ f aliases,
    File.parse "ci.yml" dottedPipeline = .ok f ∧ jobRoot? f = some 25 ∧
      AliasMap.build f 25 = .ok aliases ∧ f.Acyclic ∧
      (⟨f, 25, aliases⟩ : Scope).expand 21 = .error (.referenceCycle ".a.b.script") ∧
      jobBlocks f "" {} = .error (.referenceCycle ".a.b.script") ∧
      (⟨f, 25, aliases⟩ : Scope).Expands none 21 [⟨"echo", 2, none, 0⟩] ∧
      ¬ (⟨f, 25, aliases⟩ : Scope).Endless 21 := by
  have hrun : (File.parse "ci.yml" dottedPipeline).toOption.map (fun f =>
      (jobRoot? f, AliasMap.build f 25, jobDrafts f, f.kind? 21)) =
      some (some 25, .ok ⟨[]⟩, .error (.referenceCycle ".a.b.script"),
        some (.tagged referenceTag 20)) := by
    decide +kernel
  have hjumps : (File.parse "ci.yml" dottedPipeline).toOption.map (fun f =>
      (referencePath? f 21, (⟨f, 25, ⟨[]⟩⟩ : Scope).resolvePath? 25 [".a.b", "script"])) =
      some (some [".a.b", "script"], some 12) := by decide +kernel
  have hresults : (File.parse "ci.yml" dottedPipeline).toOption.map (fun f =>
      ((⟨f, 25, ⟨[]⟩⟩ : Scope).expand 21, (⟨f, 25, ⟨[]⟩⟩ : Scope).expand 12)) =
      some (.error (.referenceCycle ".a.b.script"), .ok [⟨"echo", 2, none, 0⟩]) := by
    decide +kernel
  obtain ⟨f, hparse, hrun⟩ := Option.map_eq_some_iff.mp hrun
  rw [hparse, Option.map_some, Option.some.injEq] at hjumps hresults
  simp only [Prod.mk.injEq] at hrun hjumps hresults
  obtain ⟨hroot, hbuild, hdrafts, hk⟩ := hrun
  obtain ⟨hpath, htarget⟩ := hjumps
  obtain ⟨hrefused, hinner⟩ := hresults
  have hread := toOption_eq_some.mp hparse
  have hf : f.Acyclic := (File.shaped_of_read hread).acyclic
  have hmeaning := Expands.reference hk hpath htarget (expands_of_expandWithin hinner)
  refine ⟨f, ⟨[]⟩, hread, hroot, hbuild, hf, hrefused, ?_, hmeaning, ?_⟩
  · rw [jobBlocks, hdrafts]
    rfl
  · intro hendless
    exact endless_iff_not_acc.mp hendless hmeaning.acc

/-! ### Every expansion ends -/

/-- An expansion ends, whatever the aliases and references are: it makes the calls it depends on,
no chain of them is endless, and so its equations have one solution, which the bounds do not touch.
An endless way is answered with an error. -/
theorem expansion_ends (hf : s.file.Acyclic) :
    (WellFounded fun call caller => s.Calls caller call) ∧
      (∀ (go go' : Jump) p d id,
        (∀ p' d' id', s.Calls ⟨p, id⟩ ⟨p', id'⟩ → go p' d' id' = go' p' d' id') →
          s.expandStep go go p d id = s.expandStep go' go' p d id) ∧
      (∀ go : Jump, (∀ p d id, go p d id = s.expandStep go go p d id) ↔ go = s.expandFrom) ∧
      ∀ start, s.expand start = s.expandFrom {} none start ∧
        s.expand start ≠ .error .endlessTree ∧
        (s.Endless start → (∃ path, s.expand start = .error (.referenceCycle path)) ∨
          ∃ name line, s.expand start = .error (.unresolvedAlias name line) ∧
            s.MeetsUnbound start name line) := by
  refine ⟨wellFounded_calls hf, fun go go' p d id h => ?_, fun go => ⟨eq_expandFrom hf, ?_⟩,
    fun start => ⟨s.expand_eq start, fun hresult => ?_, fun hendless => ?_⟩⟩
  · exact expandStep_congr (fun next d hdown => h p d next (.down hdown))
      fun p' next d hjump => h p' d next (.jump hjump)
  · rintro rfl p d id
    exact expandFrom_eq hf p d id
  · rcases meets_of_error hf hresult with ⟨path, heq, -⟩ | ⟨name, line, heq, -⟩ <;> cases heq
  · cases hresult : s.expand start with
    | ok out => exact absurd hendless ((expand_ok_iff hf).mp ⟨out, hresult⟩).1
    | error e =>
      rcases meets_of_error hf hresult with ⟨path, rfl, -⟩ | ⟨name, line, rfl, hunbound⟩
      · exact .inl ⟨path, rfl⟩
      · exact .inr ⟨name, line, rfl, hunbound⟩

/-- The section whose alias and reference stand for itself is refused at both of them. -/
theorem loopingJumps_ends :
    loopingJumps.file.Acyclic ∧ loopingJumps.Endless 2 ∧
      (∃ path, loopingJumps.expand 2 = .error (.referenceCycle path)) ∧
      (WellFounded fun call caller => loopingJumps.Calls caller call) := by
  have hf : loopingJumps.file.Acyclic := File.acyclic_of_children_lt (by decide)
  obtain ⟨hends, -, -, hresults⟩ := expansion_ends hf
  refine ⟨hf, endless_loopingJumps, ?_, hends⟩
  refine ((hresults 2).2.2 endless_loopingJumps).resolve_right ?_
  rintro ⟨name, line, -, id, -, hk, htarget, -⟩
  -- The only alias has a target.
  have honly : ∀ id < loopingJumps.file.nodes.size, loopingJumps.aliases.target? id = none →
      (loopingJumps.file.kind? id).all (!· matches .aliasOf _) = true := by decide
  have hother := honly id (File.lt_size_of_kind? hk) htarget
  simp [hk] at hother

end Scope

end PipelineScripts.Script
