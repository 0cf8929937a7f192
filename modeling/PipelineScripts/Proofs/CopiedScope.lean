import PipelineScripts.Proofs.Calls
import PipelineScripts.Proofs.Copies
import PipelineScripts.Proofs.LookUps

/-!
# Scopes of copies

A document that stands in another file under other numbers has its aliases and references there,
too. As long as the references lead to the same places, every look-up and every expansion goes the
same way, and ends with the same error if it does not succeed.
-/
namespace PipelineScripts.Script

open Yaml

/-- The jumps in progress under other numbers. -/
def InProgress.renamed (φ : NodeId → NodeId) (p : InProgress) : InProgress :=
  { p with aliases := p.aliases.map φ }

theorem InProgress.contains_renamed {φ : NodeId → NodeId} {T : Set NodeId} (hφ : Set.InjOn φ T)
    {p : InProgress} (hp : ∀ x ∈ p.aliases, x ∈ T) {id : NodeId} (hid : id ∈ T) :
    (p.renamed φ).aliases.contains (φ id) = p.aliases.contains id := by
  rw [Bool.eq_iff_iff, List.contains_iff_mem, List.contains_iff_mem, renamed, List.mem_map]
  constructor
  · rintro ⟨x, hx, heq⟩
    exact hφ (hp x hx) hid heq ▸ hx
  · exact fun h => ⟨id, h, rfl⟩

namespace Scope

/-! ### Looking up -/

/-- The nodes of `s` in `T` stand in `S` under other numbers, with the same aliases. -/
structure Copies (s S : Scope) (φ : NodeId → NodeId) (source : Nat) (T : Set NodeId) : Prop
    extends s.file.CopiesNodes S.file φ source T where
  injective : Set.InjOn φ T
  anchored : s.file.BareAnchors
  target : ∀ id ∈ T, S.aliases.target? (φ id) = (s.aliases.target? id).map φ
  /-- An alias stands for the value of an anchor. -/
  target_bare : ∀ {id t : NodeId}, s.aliases.target? id = some t →
    t ∈ T ∧ ∃ k, s.file.kind? t = some k ∧ k.isBare = true

namespace Copies

variable {s S : Scope} {φ : NodeId → NodeId} {source : Nat} {T : Set NodeId} {id : NodeId}

theorem encloses (h : s.Copies S φ source T) : s.Encloses T := by
  intro a b ha hstep
  cases hstep with
  | down hbelow => exact h.child_mem ha hbelow
  | aliasOf htarget => exact (h.target_bare htarget).1

theorem unwrapStep (h : s.Copies S φ source T) (hid : id ∈ T) :
    S.unwrapStep (φ id) = (s.unwrapStep id).map φ := by
  unfold Scope.unwrapStep
  rw [h.kind? hid]
  cases hk : s.file.kind? id with
  | none => rfl
  | some k =>
    cases k with
    | aliasOf name => exact h.target id hid
    | scalar _ _ | block _ _ _ | sequence _ _ | mapping _ | entry _ _ _ | tagged _ _
    | anchor _ _ => rfl

/-- A step through an anchor or an alias is the last one. -/
theorem unwrapStep_next (h : s.Copies S φ source T) {next : NodeId}
    (hnext : s.unwrapStep id = some next) : s.unwrapStep next = none := by
  unfold Scope.unwrapStep at hnext
  split at hnext
  next name value hk =>
    cases hnext
    obtain ⟨k, hvalue, hbare⟩ := h.anchored hk
    exact unwrapStep_of_bare hvalue hbare
  next =>
    obtain ⟨-, k, hk, hbare⟩ := h.target_bare hnext
    exact unwrapStep_of_bare hk hbare
  next => cases hnext

theorem unwrap (h : s.Copies S φ source T) (hid : id ∈ T) :
    S.unwrap (φ id) = φ (s.unwrap id) := by
  have hs : s.unwrap id = (s.unwrapStep id).getD id := unwrap_eq fun _ => h.unwrapStep_next
  have hS : S.unwrap (φ id) = (S.unwrapStep (φ id)).getD (φ id) := by
    refine unwrap_eq fun next hnext => ?_
    rw [h.unwrapStep hid] at hnext
    obtain ⟨x, hx, rfl⟩ := Option.map_eq_some_iff.mp hnext
    rw [h.unwrapStep (h.encloses _ _ hid (step_of_unwrapStep hx)), h.unwrapStep_next hx]
    rfl
  rw [hs, hS, h.unwrapStep hid]
  cases s.unwrapStep id <;> rfl

theorem unwrap_mem (h : s.Copies S φ source T) (hid : id ∈ T) : s.unwrap id ∈ T :=
  h.encloses.mem hid (s.steps_unwrap id)

theorem mappingEntries? (h : s.Copies S φ source T) (hid : id ∈ T) :
    S.mappingEntries? (φ id) = (s.mappingEntries? id).map (List.map φ) := by
  unfold Scope.mappingEntries?
  rw [h.unwrap hid, h.kind? (h.unwrap_mem hid)]
  cases s.file.kind? (s.unwrap id) with
  | none => rfl
  | some k => cases k <;> rfl

theorem getD_mappingEntries? (h : s.Copies S φ source T) (hid : id ∈ T) :
    (S.mappingEntries? (φ id)).getD [] = ((s.mappingEntries? id).getD []).map φ := by
  rw [h.mappingEntries? hid]
  cases s.mappingEntries? id <;> rfl

theorem mem_of_mem_mappingEntries? (h : s.Copies S φ source T) (hid : id ∈ T)
    {entries : List NodeId} (hentries : s.mappingEntries? id = some entries) {entry : NodeId}
    (hentry : entry ∈ entries) : entry ∈ T :=
  h.encloses.mem hid (steps_of_mem_mappingEntries? hentries hentry)

theorem valueOfKey? (h : s.Copies S φ source T) (key : String) (hid : id ∈ T) :
    valueOfKey? S.file key (φ id) = (valueOfKey? s.file key id).map φ := by
  unfold Scope.valueOfKey?
  rw [h.kind? hid]
  cases hk : s.file.kind? id with
  | none => rfl
  | some k =>
    cases k with
    | entry k value comments =>
      have hkey : k ∈ T := h.child_mem_of_kind? hid hk (by simp [NodeKind.children])
      simp only [Option.map_some, NodeKind.mapChildren, h.scalarText? hkey]
      split_ifs <;> rfl
    | scalar _ _ | block _ _ _ | sequence _ _ | mapping _ | tagged _ _ | anchor _ _ | aliasOf _ =>
      rfl

/-- The first entry with a key is the same one. -/
theorem findSome?_valueOfKey? (h : s.Copies S φ source T) (key : String)
    {entries : List NodeId} (hentries : ∀ entry ∈ entries, entry ∈ T) :
    (entries.map φ).findSome? (Scope.valueOfKey? S.file key) =
      (entries.findSome? (Scope.valueOfKey? s.file key)).map φ := by
  induction entries with
  | nil => rfl
  | cons entry rest ih =>
    have hrest := ih fun x hx => hentries x (List.mem_cons_of_mem entry hx)
    rw [List.map_cons, List.findSome?_cons, List.findSome?_cons,
      h.valueOfKey? key (hentries entry (by simp)), hrest]
    cases Scope.valueOfKey? s.file key entry <;> rfl

theorem lookup? (h : s.Copies S φ source T) (key : String) (hid : id ∈ T) :
    S.lookup? (φ id) key = (s.lookup? id key).map φ := by
  unfold Scope.lookup?
  rw [h.mappingEntries? hid]
  cases hentries : s.mappingEntries? id with
  | none => rfl
  | some entries =>
    have hmem : ∀ entry ∈ entries.reverse, entry ∈ T := fun entry hentry =>
      h.mem_of_mem_mappingEntries? hid hentries (List.mem_reverse.mp hentry)
    have hfind := h.findSome?_valueOfKey? key hmem
    rw [List.map_reverse] at hfind
    exact hfind

/-- Keys are followed in the same way. -/
theorem resolvePath? (h : s.Copies S φ source T) (keys : List String) (hid : id ∈ T) :
    S.resolvePath? (φ id) keys = (s.resolvePath? id keys).map φ := by
  induction keys generalizing id with
  | nil => rfl
  | cons key rest ih =>
    rw [resolvePath?_cons, resolvePath?_cons, h.lookup? key hid]
    cases hvalue : s.lookup? id key with
    | none => rfl
    | some value => exact ih (h.encloses.mem hid (steps_of_lookup? hvalue))

end Copies

/-! ### References -/

/-- Keys lead to the same place from the two roots: nowhere, to copies of each other in `T`, or to
mappings, which have no scripts of their own. -/
inductive LeadAlike (s S : Scope) (φ : NodeId → NodeId) (T : Set NodeId) (keys : List String) :
    Prop
  | nowhere (h : s.resolvePath? s.root keys = none) (H : S.resolvePath? S.root keys = none)
  | copies {t : NodeId} (ht : t ∈ T) (h : s.resolvePath? s.root keys = some t)
      (H : S.resolvePath? S.root keys = some (φ t))
  | mappings {t t' entries entries'} (h : s.resolvePath? s.root keys = some t)
      (H : S.resolvePath? S.root keys = some t') (hk : s.file.kind? t = some (.mapping entries))
      (hK : S.file.kind? t' = some (.mapping entries'))

/-- The nodes of `s` in `T` stand in `S` under other numbers, with the same aliases and
references. -/
structure Mirrors (s S : Scope) (φ : NodeId → NodeId) (source : Nat) (T : Set NodeId) : Prop
    extends s.Copies S φ source T where
  references : ∀ {id : NodeId} {keys : List String}, id ∈ T →
    referencePath? s.file id = some keys → s.LeadAlike S φ T keys

/-- Where the root is copied, references lead to the same places. -/
theorem Copies.mirrors {s S : Scope} {φ : NodeId → NodeId} {source : Nat} {T : Set NodeId}
    (h : s.Copies S φ source T) (hroot : s.root ∈ T) (hS : S.root = φ s.root) :
    s.Mirrors S φ source T where
  toCopies := h
  references := by
    intro id keys _ _
    have hcopy := h.resolvePath? keys hroot
    rw [← hS] at hcopy
    cases htarget : s.resolvePath? s.root keys with
    | none => exact .nowhere htarget (by rw [hcopy, htarget, Option.map_none])
    | some t =>
      have ht := h.encloses.mem hroot (steps_of_resolvePath? htarget)
      exact .copies ht htarget (by rw [hcopy, htarget, Option.map_some])

/-! ### Expanding -/

namespace Mirrors

variable {s S : Scope} {φ : NodeId → NodeId} {source : Nat} {T : Set NodeId} {id : NodeId}

theorem itemDirectives_map (d : Option Directive) (items : List NodeId)
    (comments : List (List Comment)) :
    itemDirectives d (items.map φ) comments =
      (itemDirectives d items comments).map fun x => (φ x.1, x.2) := by
  simp [itemDirectives, List.zipIdx_map, Function.comp_def]

theorem expandFrom_of_mapping {s : Scope} (hf : s.file.Acyclic) (p : InProgress)
    (d : Option Directive) {entries : List NodeId}
    (hk : s.file.kind? id = some (.mapping entries)) : s.expandFrom p d id = .ok [] := by
  rw [expandFrom_eq hf, expandStep, hk]
  simp [Script.leafFragment?, hk]

/-- One way to go on does to the nodes of `S` what another one does to those of `s` in `T`. -/
def CopiesJump (φ : NodeId → NodeId) (source : Nat) (T : Set NodeId) (jump jump' : Jump)
    (p : InProgress) (id : NodeId) : Prop :=
  id ∈ T → (∀ x ∈ p.aliases, x ∈ T) → ∀ d,
    jump' (p.renamed φ) d (φ id) = (jump p d id).map (List.map (Fragment.moved source))

section Steps

variable {p : InProgress} {d : Option Directive}

theorem followReference (h : s.Mirrors S φ source T) (hid : id ∈ T) (hp : ∀ x ∈ p.aliases, x ∈ T)
    {value : NodeId} (hk : s.file.kind? id = some (.tagged referenceTag value))
    (hjump : ∀ p' next, s.JumpsTo p id p' next →
      CopiesJump φ source T s.expandFrom S.expandFrom p' next) :
    S.followReference S.expandFrom (p.renamed φ) d (φ id) =
      (s.followReference s.expandFrom p d id).map (List.map (Fragment.moved source)) := by
  unfold Scope.followReference
  rw [h.referencePath? hid]
  cases hpath : Script.referencePath? s.file id with
  | none => rfl
  | some keys =>
    dsimp only
    cases h.references hid hpath with
    | nowhere hnone hnone' =>
      rw [hnone, hnone']
      rfl
    | copies ht htarget htarget' =>
      simp only [htarget, htarget']
      by_cases hold : p.references.contains (Text.joinStrings "." keys) = true
      · rw [if_pos hold]
        exact if_pos hold
      · rw [if_neg hold]
        refine (if_neg hold).trans ?_
        exact hjump _ _ (.reference hk hpath htarget (by simpa using hold)) ht hp d
    | mappings htarget htarget' hmapping hmapping' =>
      simp only [htarget, htarget', expandFrom_of_mapping h.acyclic _ _ hmapping,
        expandFrom_of_mapping h.acyclic_copy _ _ hmapping']
      by_cases hold : p.references.contains (Text.joinStrings "." keys) = true
      · rw [if_pos hold]
        exact if_pos hold
      · rw [if_neg hold]
        exact if_neg hold

theorem followAlias (h : s.Mirrors S φ source T) (hid : id ∈ T) (hp : ∀ x ∈ p.aliases, x ∈ T)
    {name : String} (hk : s.file.kind? id = some (.aliasOf name))
    (hjump : ∀ p' next, s.JumpsTo p id p' next →
      CopiesJump φ source T s.expandFrom S.expandFrom p' next) :
    S.followAlias S.expandFrom (p.renamed φ) d (φ id) name =
      (s.followAlias s.expandFrom p d id name).map (List.map (Fragment.moved source)) := by
  unfold Scope.followAlias
  rw [h.target id hid, h.line hid]
  cases htarget : s.aliases.target? id with
  | none => rfl
  | some target =>
    simp only [Option.map_some, InProgress.contains_renamed h.injective hp hid]
    split_ifs with hold
    · rfl
    · refine hjump _ _ (.aliasOf hk htarget (by simpa using hold)) (h.target_bare htarget).1 ?_ d
      intro x hx
      rcases List.mem_cons.mp hx with rfl | hx
      · exact hid
      · exact hp x hx

/-- One call: what the calls do that it makes is given. -/
theorem expandStep (h : s.Mirrors S φ source T) (hid : id ∈ T) (hp : ∀ x ∈ p.aliases, x ∈ T)
    (hdown : ∀ next, s.Descends id next →
      CopiesJump φ source T s.expandFrom S.expandFrom p next)
    (hjump : ∀ p' next, s.JumpsTo p id p' next →
      CopiesJump φ source T s.expandFrom S.expandFrom p' next) :
    S.expandStep S.expandFrom S.expandFrom (p.renamed φ) d (φ id) =
      (s.expandStep s.expandFrom s.expandFrom p d id).map
        (List.map (Fragment.moved source)) := by
  have hstep : ∀ next d, s.Descends id next → S.expandFrom (p.renamed φ) d (φ next) =
      (s.expandFrom p d next).map (List.map (Fragment.moved source)) :=
    fun next d hnext => hdown next hnext (h.child_mem hid hnext.below) hp d
  have hleaf : (Script.leafFragment? S.file (φ id) d).toList =
      (Script.leafFragment? s.file id d).toList.map (Fragment.moved source) := by
    rw [h.leafFragment? d hid]
    cases Script.leafFragment? s.file id d <;> rfl
  unfold Scope.expandStep
  rw [h.kind? hid]
  cases hk : s.file.kind? id with
  | none => simp [hleaf, Except.map]
  | some k =>
    cases k with
    | tagged tag value =>
      simp only [Option.map_some, NodeKind.mapChildren]
      split_ifs with htag
      · subst htag
        exact h.followReference hid hp hk hjump
      · exact hstep _ d (.tagged hk htag)
    | anchor name value => exact hstep _ d (.anchor hk)
    | aliasOf name => exact h.followAlias hid hp hk hjump
    | sequence items comments =>
      simp only [Option.map_some, NodeKind.mapChildren, itemDirectives_map]
      exact concatResults_map_of_map fun x hx =>
        hstep _ _ (.item hk (mem_of_mem_itemDirectives hx))
    | scalar _ _ | block _ _ _ | mapping _ | entry _ _ _ =>
      simp [NodeKind.mapChildren, hleaf, Except.map]

end Steps

/-- Every call ends in the same way. The induction is on the calls that it makes. -/
theorem expandFrom (h : s.Mirrors S φ source T) (p : InProgress) (d : Option Directive)
    (hp : ∀ x ∈ p.aliases, x ∈ T) (hid : id ∈ T) :
    S.expandFrom (p.renamed φ) d (φ id) =
      (s.expandFrom p d id).map (List.map (Fragment.moved source)) := by
  have hall : ∀ call : Call,
      CopiesJump φ source T s.expandFrom S.expandFrom call.inProgress call.node := by
    intro call
    induction call using (wellFounded_calls h.acyclic).induction with
    | _ call ih =>
      intro hnode hp d
      rw [expandFrom_eq h.acyclic, expandFrom_eq h.acyclic_copy]
      exact h.expandStep hnode hp (fun next hnext => ih ⟨_, next⟩ (.down hnext))
        fun p' next hnext => ih ⟨p', next⟩ (.jump hnext)
  exact hall ⟨p, id⟩ hid hp d

theorem expand (h : s.Mirrors S φ source T) (hid : id ∈ T) :
    S.expand (φ id) = (s.expand id).map (List.map (Fragment.moved source)) :=
  h.expandFrom {} none (by simp) hid

end Mirrors

end Scope

end PipelineScripts.Script
