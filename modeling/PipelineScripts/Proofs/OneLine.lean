import PipelineScripts.Script.Directive
import PipelineScripts.Text.Blank
import Mathlib.Data.List.Basic

/-!
# Text on one line

The pieces of a text have no characters but its own. So where a comment stands on one line, no
value of the directive it holds has a line feed, and none of the directives made of several of them.
-/
namespace PipelineScripts.Text

/-- A text without a line feed. -/
def OneLine (s : String) : Prop := '\n' ∉ s.toList

theorem mem_of_mem_consFirst {c d : Char} {l : List Char} {ls : List (List Char)}
    (hl : l ∈ consFirst c ls) (hd : d ∈ l) : d = c ∨ ∃ m ∈ ls, d ∈ m := by
  cases ls with
  | nil =>
    have heq : l = [c] := by simpa [consFirst] using hl
    exact .inl (by simpa [heq] using hd)
  | cons m ls =>
    rcases List.mem_cons.mp hl with rfl | hl
    · rcases List.mem_cons.mp hd with rfl | hd
      · exact .inl rfl
      · exact .inr ⟨m, by simp, hd⟩
    · exact .inr ⟨l, by simp [hl], hd⟩

/-- No line has the character that ends lines. -/
theorem newline_not_mem_of_mem_lines {s l : List Char} (h : l ∈ lines s) : '\n' ∉ l := by
  intro hd
  fun_induction lines s generalizing l with
  | case1 => simp at h
  | case2 r ih | case3 r ih =>
    rcases List.mem_cons.mp h with rfl | h
    · simp at hd
    · exact ih h hd
  | case4 c r hc hcr ih =>
    rcases mem_of_mem_consFirst h hd with heq | ⟨m, hm, hd⟩
    · exact hc heq.symm
    · exact ih hm hd

/-- The pieces of a text have its characters, but none that splits it. -/
theorem mem_of_mem_split {p : Char → Bool} {s piece : List Char} {d : Char}
    (h : piece ∈ split p s) (hd : d ∈ piece) : d ∈ s ∧ p d = false := by
  induction s generalizing piece with
  | nil =>
    have heq : piece = [] := by simpa [split] using h
    simp [heq] at hd
  | cons c r ih =>
    rw [split] at h
    split_ifs at h with hc
    · rcases List.mem_cons.mp h with rfl | h
      · simp at hd
      · exact (ih h hd).imp_left (List.mem_cons_of_mem c)
    · rcases mem_of_mem_consFirst h hd with rfl | ⟨m, hm, hd⟩
      · exact ⟨List.mem_cons_self, Bool.eq_false_iff.mpr hc⟩
      · exact (ih hm hd).imp_left (List.mem_cons_of_mem c)

theorem mem_of_splitOnce? {sep d : Char} {s a b : List Char} (h : splitOnce? sep s = some (a, b))
    (hd : d ∈ b) : d ∈ s := by
  induction s generalizing a with
  | nil => simp [splitOnce?] at h
  | cons c r ih =>
    rw [splitOnce?] at h
    split_ifs at h with hc
    · cases h
      exact List.mem_cons_of_mem c hd
    · obtain ⟨⟨a', b'⟩, hr, heq⟩ := Option.map_eq_some_iff.mp h
      simp only [Prod.mk.injEq] at heq
      rw [heq.2] at hr
      exact List.mem_cons_of_mem c (ih hr)

theorem mem_of_mem_trim {s : List Char} {d : Char} (h : d ∈ trim s) : d ∈ s := by
  unfold trim trimEnd trimStart at h
  have h' := (List.dropWhile_sublist isBlank).mem (List.mem_reverse.mp h)
  exact (List.dropWhile_sublist isBlank).mem (List.mem_reverse.mp h')

theorem mem_join {sep : List Char} {pieces : List (List Char)} {d : Char}
    (h : d ∈ join sep pieces) : d ∈ sep ∨ ∃ l ∈ pieces, d ∈ l := by
  unfold join List.intercalate at h
  induction pieces with
  | nil => simp at h
  | cons l rest ih =>
    cases rest with
    | nil => exact .inr ⟨l, by simp, by simpa using h⟩
    | cons m rest =>
      simp only [List.intersperse_cons_cons, List.flatten_cons, List.mem_append] at h
      rcases h with h | h | h
      · exact .inr ⟨l, by simp, h⟩
      · exact .inl h
      · rcases ih h with h | ⟨x, hx, h⟩
        · exact .inl h
        · exact .inr ⟨x, List.mem_cons_of_mem l hx, h⟩

theorem mem_joinStrings {sep : String} {pieces : List String} {d : Char}
    (h : d ∈ (joinStrings sep pieces).toList) : d ∈ sep.toList ∨ ∃ s ∈ pieces, d ∈ s.toList := by
  unfold joinStrings at h
  rw [String.toList_ofList] at h
  rcases mem_join h with h | ⟨l, hl, h⟩
  · exact .inl h
  · obtain ⟨s, hs, rfl⟩ := List.mem_map.mp hl
    exact .inr ⟨s, hs, h⟩

theorem oneLine_joinStrings {sep : String} {pieces : List String} (hsep : OneLine sep)
    (h : ∀ s ∈ pieces, OneLine s) : OneLine (joinStrings sep pieces) := by
  intro hd
  rcases mem_joinStrings hd with hd | ⟨s, hs, hd⟩
  · exact hsep hd
  · exact h s hs hd

end PipelineScripts.Text

namespace PipelineScripts.Script.Directive

open Text

/-- No value of a directive has a line feed. -/
def OneLine (d : Directive) : Prop := ∀ e ∈ d.entries, Text.OneLine e.2

theorem mem_setEntry {key value : String} {entries : List (String × String)} {e : String × String}
    (h : e ∈ setEntry key value entries) : e = (key, value) ∨ e ∈ entries := by
  induction entries with
  | nil => exact .inl (by simpa [setEntry] using h)
  | cons d rest ih =>
    rw [setEntry] at h
    split_ifs at h with hlt heq
    · exact List.mem_cons.mp h
    · rcases List.mem_cons.mp h with h | h
      · exact .inl h
      · exact .inr (List.mem_cons_of_mem d h)
    · rcases List.mem_cons.mp h with rfl | h
      · exact .inr (by simp)
      · exact (ih h).imp_right (List.mem_cons_of_mem d)

theorem OneLine.set {d : Directive} (hd : d.OneLine) (key : String) {value : String}
    (hvalue : Text.OneLine value) : (d.set key value).OneLine := by
  intro e he
  rcases mem_setEntry he with rfl | he
  · exact hvalue
  · exact hd e he

theorem OneLine.setAll {entries : List (String × String)} (h : ∀ e ∈ entries, Text.OneLine e.2)
    {d : Directive} (hd : d.OneLine) :
    (entries.foldl (fun d e => d.set e.1 e.2) d).OneLine := by
  induction entries generalizing d with
  | nil => exact hd
  | cons e rest ih =>
    exact ih (fun x hx => h x (List.mem_cons_of_mem e hx)) (hd.set e.1 (h e (by simp)))

theorem mem_readEntry {word : List Char} {c : Char} (h : c ∈ (readEntry word).2.toList) :
    c ∈ word := by
  unfold readEntry at h
  split at h
  next key value hsplit => exact mem_of_splitOnce? hsplit (by simpa using h)
  next => simp at h

/-- The values of a directive are pieces of the text it is read from. -/
theorem OneLine.parse {text : String} (h : Text.OneLine text) : (parse text).OneLine := by
  refine OneLine.setAll ?_ (by intro e he; cases he)
  intro e he hc
  obtain ⟨word, hword, rfl⟩ := List.mem_map.mp he
  have hdata := (mem_of_mem_split (List.mem_filter.mp hword).1 (mem_readEntry hc)).1
  apply h
  apply mem_of_mem_trim
  -- The marker in front is taken away or not.
  cases hmarker : marker.toList.isPrefixOf? (trim text.toList) with
  | none => simpa [hmarker] using hdata
  | some rest =>
    rw [← List.isPrefixOf?_eq_some_iff_append_eq.mp hmarker]
    simp only [hmarker, Option.getD_some] at hdata
    exact List.mem_append_right _ hdata

theorem OneLine.ofComments? {texts : List String} (h : ∀ t ∈ texts, Text.OneLine t)
    {d : Directive} (hd : ofComments? texts = some d) : d.OneLine := by
  obtain ⟨t, ht, rfl⟩ := Option.map_eq_some_iff.mp hd
  obtain ⟨u, hu, rfl⟩ := List.mem_map.mp (List.mem_of_find?_eq_some ht)
  refine OneLine.parse ?_
  intro hc
  rw [String.toList_ofList] at hc
  exact h u hu (mem_of_mem_trim hc)

theorem OneLine.get? {d : Directive} (hd : d.OneLine) {key value : String}
    (h : d.get? key = some value) : Text.OneLine value := by
  have hmem : (key, value) ∈ d.entries := by
    obtain ⟨before, after, heq, -⟩ := List.lookup_eq_some_iff.mp h
    simp [heq]
  exact hd _ hmem

theorem OneLine.shell {d : Directive} (hd : d.OneLine) : Text.OneLine d.shell := by
  unfold Directive.shell
  cases h : d.get? "shell" with
  | none => simp [Text.OneLine]
  | some value => exact hd.get? h

theorem OneLine.disabledRules {d : Directive} (hd : d.OneLine) {rule : String}
    (h : rule ∈ d.disabledRules) : Text.OneLine rule := by
  unfold Directive.disabledRules at h
  split at h
  next value hvalue =>
    obtain ⟨piece, hpiece, rfl⟩ := List.mem_map.mp h
    obtain ⟨raw, hraw, rfl⟩ := List.mem_map.mp (List.mem_filter.mp hpiece).1
    intro hc
    rw [String.toList_ofList] at hc
    exact hd.get? hvalue (mem_of_mem_split hraw (mem_of_mem_trim hc)).1
  next => simp at h

theorem mem_unionRules {rules more : List String} {rule : String} :
    rule ∈ unionRules rules more ↔ rule ∈ rules ∨ rule ∈ more := by
  unfold unionRules
  induction more generalizing rules with
  | nil => simp
  | cons r more ih =>
    rw [List.foldl_cons, ih, List.mem_cons]
    split_ifs with hr
    · have hmem : r ∈ rules := by simpa using hr
      constructor
      · rintro (h | h)
        · exact .inl h
        · exact .inr (.inr h)
      · rintro (h | rfl | h)
        · exact .inl h
        · exact .inl hmem
        · exact .inr h
    · rw [List.mem_append, List.mem_singleton, or_assoc]

theorem OneLine.merge {d e : Directive} (hd : d.OneLine) (he : e.OneLine) :
    (d.merge e).OneLine := by
  have hvalues : (List.foldl (fun d e => d.set e.1 e.2) d
      (e.entries.filter fun x => !(x.1 == "shell" && x.2 == ""))).OneLine :=
    OneLine.setAll (fun x hx => he x (List.mem_filter.mp hx).1) hd
  unfold Directive.merge
  dsimp only
  split_ifs
  · refine hvalues.set "disable" (oneLine_joinStrings (by simp [Text.OneLine]) ?_)
    intro rule hrule
    rcases mem_unionRules.mp hrule with hrule | hrule
    · exact hd.disabledRules hrule
    · exact he.disabledRules hrule
  · exact hvalues

theorem OneLine.combine {d e : Option Directive} (hd : ∀ x ∈ d, x.OneLine)
    (he : ∀ x ∈ e, x.OneLine) : ∀ x ∈ combine d e, x.OneLine := by
  intro x hx
  cases d with
  | none => exact he x (by simpa [Directive.combine] using hx)
  | some a =>
    cases e with
    | none => exact hd x (by simpa [Directive.combine] using hx)
    | some b =>
      have heq : a.merge b = x := by simpa [Directive.combine] using hx
      exact heq ▸ (hd a rfl).merge (he b rfl)

end PipelineScripts.Script.Directive
