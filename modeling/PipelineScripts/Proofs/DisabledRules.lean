import Mathlib.Data.List.DropRight
import PipelineScripts.Proofs.Leaves
import PipelineScripts.Proofs.SourceLines
import PipelineScripts.Script.Block

/-!
# Disabled rules

The rules that a directive disables are kept as text, joined with commas. Each time two directives
are combined the text is cut into rules, the two lists are united, and the result is joined again.
No rule is lost on the way and none comes from elsewhere: what the combination disables is what one
of the two disables.
-/
namespace PipelineScripts.Text

/-- No blank comes to the front when those at the end are dropped. -/
theorem trimStart_trimEnd {s : List Char} (h : trimStart s = s) :
    trimStart (trimEnd s) = trimEnd s := by
  have hfront : trimEnd s <+: s := List.rdropWhile_prefix isBlank s
  cases hs : trimEnd s with
  | nil => rfl
  | cons c r =>
    rw [hs] at hfront
    obtain ⟨r', rfl⟩ := hfront
    have hc : isBlank c = false := by
      rw [trimStart, List.dropWhile_eq_self_iff] at h
      simpa using h (by simp)
    simp [trimStart, hc]

@[simp] theorem trim_trim (s : List Char) : trim (trim s) = trim s := by
  have hstart : trimStart (trimStart s) = trimStart s := List.dropWhile_idempotent isBlank s
  have hend : trimEnd (trimEnd (trimStart s)) = trimEnd (trimStart s) :=
    List.rdropWhile_idempotent isBlank (trimStart s)
  rw [trim, trim, trimStart_trimEnd hstart, hend]

end PipelineScripts.Text

namespace PipelineScripts.Script

open Text Yaml

namespace Directive

/-! ### Rules as text -/

/-- The name of a rule as it is written between commas. -/
structure IsRule (rule : String) : Prop where
  ne_empty : rule ≠ ""
  trimmed : trim rule.toList = rule.toList
  noComma : ',' ∉ rule.toList

theorem isRule_of_mem_readRules {value rule : String} (h : rule ∈ readRules value) :
    IsRule rule := by
  obtain ⟨piece, hpiece, rfl⟩ := List.mem_map.mp h
  obtain ⟨hpiece, hne⟩ := List.mem_filter.mp hpiece
  obtain ⟨raw, hraw, rfl⟩ := List.mem_map.mp hpiece
  refine ⟨?_, ?_, ?_⟩
  · rw [Bool.not_eq_true', List.isEmpty_eq_false_iff] at hne
    exact fun hempty => hne (String.ofList_eq_empty_iff.mp hempty)
  · rw [String.toList_ofList, trim_trim]
  · intro hcomma
    rw [String.toList_ofList] at hcomma
    simpa using (mem_of_mem_split hraw (mem_of_mem_trim hcomma)).2

/-- Rules that are joined are read back as they were. -/
theorem readRules_joinStrings {rules : List String} (h : ∀ rule ∈ rules, IsRule rule) :
    readRules (joinStrings "," rules) = rules := by
  by_cases hnil : rules = []
  · subst hnil
    decide
  · have hsplit : split (· == ',') (join [','] (rules.map String.toList)) =
        rules.map String.toList := by
      refine split_join (by simpa using hnil) fun l hl => ?_
      obtain ⟨rule, hrule, rfl⟩ := List.mem_map.mp hl
      exact (h rule hrule).noComma
    have htrim : (rules.map String.toList).map trim = rules.map String.toList := by
      rw [List.map_map]
      exact List.map_congr_left fun rule hrule => (h rule hrule).trimmed
    have hfilter : (rules.map String.toList).filter (!·.isEmpty) = rules.map String.toList := by
      refine List.filter_eq_self.mpr fun l hl => ?_
      obtain ⟨rule, hrule, rfl⟩ := List.mem_map.mp hl
      have hne := (h rule hrule).ne_empty
      simpa using hne
    have hsep : ",".toList = [','] := rfl
    rw [readRules, joinStrings, String.toList_ofList, hsep, hsplit, htrim, hfilter, List.map_map]
    simp

/-! ### Values of keys -/

theorem lookup_setEntry (key value k : String) (entries : List (String × String)) :
    (setEntry key value entries).lookup k =
      if k = key then some value else entries.lookup k := by
  induction entries with
  | nil => exact lookup_cons_eq_ite key k value []
  | cons e rest ih =>
    rw [setEntry]
    by_cases hlt : key < e.1
    · rw [if_pos hlt, lookup_cons_eq_ite]
    · rw [if_neg hlt]
      by_cases heq : key = e.1
      · rw [if_pos heq, lookup_cons_eq_ite]
        by_cases hk : k = key
        · rw [if_pos hk, if_pos hk]
        · have hne : k ≠ e.1 := fun h => hk (h.trans heq.symm)
          rw [if_neg hk, if_neg hk, List.lookup_cons, beq_false_of_ne hne]
      · rw [if_neg heq, List.lookup_cons, List.lookup_cons, ih]
        by_cases hk : k = e.1
        · have hne : k ≠ key := fun h => heq (h.symm.trans hk)
          rw [if_neg hne, if_neg hne]
        · rw [beq_false_of_ne hk]

@[simp] theorem get?_set (d : Directive) (key value k : String) :
    (d.set key value).get? k = if k = key then some value else d.get? k :=
  lookup_setEntry key value k d.entries

theorem get?_foldl_set {values : List (String × String)} {k : String}
    (h : ∀ e ∈ values, e.1 ≠ k) (d : Directive) :
    (values.foldl (fun d (key, value) => d.set key value) d).get? k = d.get? k := by
  induction values generalizing d with
  | nil => rfl
  | cons e rest ih =>
    rw [List.foldl_cons, ih fun x hx => h x (List.mem_cons_of_mem e hx), get?_set,
      if_neg (h e (by simp)).symm]

/-! ### Combining -/

theorem ne_of_get?_eq_none {d : Directive} {k : String} (h : d.get? k = none) :
    ∀ e ∈ d.entries, e.1 ≠ k := by
  intro e he heq
  have hne := List.lookup_eq_none_iff.mp h e he
  simp [heq] at hne

theorem disabledRules_of_get?_eq_none {d : Directive} (h : d.get? "disable" = none) :
    d.disabledRules = [] := by
  rw [disabledRules, h]

theorem isRule_of_mem_disabledRules {d : Directive} {rule : String} (h : rule ∈ d.disabledRules) :
    IsRule rule := by
  unfold disabledRules at h
  split at h
  next => exact isRule_of_mem_readRules h
  next => simp at h

/-- The rules of a combination are those of the two parts, each written once. -/
theorem disabledRules_merge (d e : Directive) :
    (d.merge e).disabledRules = unionRules d.disabledRules e.disabledRules := by
  have hrules : ∀ rule ∈ unionRules d.disabledRules e.disabledRules, IsRule rule := by
    intro rule hrule
    rcases mem_unionRules.mp hrule with h | h
    · exact isRule_of_mem_disabledRules h
    · exact isRule_of_mem_disabledRules h
  unfold merge
  by_cases hset : ((d.get? "disable").isSome || (e.get? "disable").isSome) = true
  · rw [if_pos hset]
    conv_lhs => rw [disabledRules, get?_set, if_pos rfl]
    exact readRules_joinStrings hrules
  · rw [if_neg hset]
    simp only [Bool.or_eq_true, Option.isSome_iff_ne_none, not_or, not_not] at hset
    obtain ⟨hd, he⟩ := hset
    have hvalues : ∀ x ∈ e.entries.filter fun (key, value) => !(key == "shell" && value == ""),
        x.1 ≠ "disable" :=
      fun x hx => ne_of_get?_eq_none he x (List.mem_of_mem_filter hx)
    rw [disabledRules_of_get?_eq_none hd, disabledRules_of_get?_eq_none he]
    exact disabledRules_of_get?_eq_none ((get?_foldl_set hvalues d).trans hd)

/-- The rules that are disabled where a directive may stand. -/
def rulesOf : Option Directive → List String
  | some d => d.disabledRules
  | none => []

@[simp] theorem rulesOf_none : rulesOf none = [] := rfl

theorem mem_rulesOf_combine {d e : Option Directive} {rule : String} :
    rule ∈ rulesOf (combine d e) ↔ rule ∈ rulesOf d ∨ rule ∈ rulesOf e := by
  cases d with
  | none => simp [combine]
  | some d =>
    cases e with
    | none => simp [combine]
    | some e =>
      change rule ∈ (d.merge e).disabledRules ↔ _
      rw [disabledRules_merge, mem_unionRules]
      rfl

/-- The rules that comments disable. -/
def commentRules (comments : List Comment) : List String :=
  rulesOf (ofComments? (comments.map (·.text)))

end Directive

open Directive

theorem Block.disabledRules_eq (b : Block) : b.disabledRules = rulesOf b.directive := rfl

/-- What is disabled at a leaf is disabled around it, or in the comments on the way to it. -/
theorem Leaf.mem_rulesOf_directive {l : Leaf} {outer : Option Directive} {rule : String} :
    rule ∈ rulesOf (l.directive outer) ↔
      rule ∈ rulesOf outer ∨ ∃ comments ∈ l.comments, rule ∈ commentRules comments := by
  unfold Leaf.directive
  generalize l.comments = passed
  induction passed generalizing outer with
  | nil => simp
  | cons comments passed ih =>
    rw [List.foldl_cons, ih, mem_rulesOf_combine, or_assoc]
    simp [commentRules]

end PipelineScripts.Script
