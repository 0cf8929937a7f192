import PipelineScripts.Proofs.OneLine
import PipelineScripts.Yaml.Tree
import Mathlib.Data.List.Basic
import Mathlib.Data.List.TakeWhile
import Mathlib.Order.Defs.LinearOrder

/-!
# Lines of a source

Lines that hold no break of their own are found again in the text that is made of them, and every
line of a block scalar's body is a line of the source without blanks in front.
-/
namespace PipelineScripts.Text

/-- A text without a line feed and without a carriage return. -/
structure Unbroken (l : List Char) : Prop where
  newline : '\n' ∉ l
  return_ : '\r' ∉ l

namespace Unbroken

theorem nil : Unbroken [] := ⟨by simp, by simp⟩

theorem of_subset {l m : List Char} (hm : Unbroken m) (h : ∀ c ∈ l, c ∈ m) : Unbroken l :=
  ⟨fun hc => hm.newline (h _ hc), fun hc => hm.return_ (h _ hc)⟩

theorem append {l m : List Char} (hl : Unbroken l) (hm : Unbroken m) : Unbroken (l ++ m) := by
  constructor
  · simp [hl.newline, hm.newline]
  · simp [hl.return_, hm.return_]

end Unbroken

theorem lines_cons {c : Char} (r : List Char) (h : Unbroken [c]) :
    lines (c :: r) = consFirst c (lines r) := by
  refine lines.eq_4 c r ?_ ?_
  · rintro rfl
    exact h.newline (by simp)
  · rintro rest rfl
    exact absurd (List.mem_singleton.mpr rfl) h.return_

/-- An unbroken text that a line break ends is a line. -/
theorem lines_append_break {l ended r : List Char} (h : Unbroken l)
    (hended : lines ended = [] :: lines r) : lines (l ++ ended) = l :: lines r := by
  induction l with
  | nil => exact hended
  | cons c l ih =>
    have hc : Unbroken [c] := h.of_subset (by simp)
    have hl : Unbroken l := h.of_subset fun d hd => List.mem_cons_of_mem c hd
    rw [List.cons_append, lines_cons _ hc, ih hl, consFirst]

theorem lines_append_newline {l : List Char} (h : Unbroken l) (r : List Char) :
    lines (l ++ '\n' :: r) = l :: lines r :=
  lines_append_break h rfl

theorem lines_append_crlf {l : List Char} (h : Unbroken l) (r : List Char) :
    lines (l ++ '\r' :: '\n' :: r) = l :: lines r :=
  lines_append_break h rfl

/-- An unbroken text that nothing ends is a line unless it is empty. -/
theorem lines_of_unbroken {l : List Char} (h : Unbroken l) :
    lines l = if l = [] then [] else [l] := by
  induction l with
  | nil => rfl
  | cons c l ih =>
    have hc : Unbroken [c] := h.of_subset (by simp)
    have hl : Unbroken l := h.of_subset fun d hd => List.mem_cons_of_mem c hd
    rw [lines_cons _ hc, ih hl, if_neg (List.cons_ne_nil c l)]
    split_ifs with hempty
    · rw [hempty, consFirst]
    · rw [consFirst]

/-- A text has no more lines than characters. -/
theorem length_lines_le (s : List Char) : (lines s).length ≤ s.length := by
  have hcons : ∀ (c : Char) (ls : List (List Char)), (consFirst c ls).length ≤ ls.length + 1 := by
    intro c ls
    cases ls <;> simp [consFirst]
  fun_induction lines s with
  | case1 => simp
  | case2 r ih => simp [ih]
  | case3 r ih =>
    simp only [List.length_cons]
    omega
  | case4 c r _ _ ih =>
    have hle := hcons c (lines r)
    simp only [List.length_cons]
    omega

theorem split_append {p : Char → Bool} {l : List Char} (h : ∀ c ∈ l, p c = false) (d : Char)
    (hd : p d = true) (r : List Char) : split p (l ++ d :: r) = l :: split p r := by
  induction l with
  | nil => simp [split, hd]
  | cons c l ih =>
    have hc : p c = false := h c (by simp)
    rw [List.cons_append, split, ih fun x hx => h x (List.mem_cons_of_mem c hx)]
    simp [hc, consFirst]

theorem split_of_forall {p : Char → Bool} {l : List Char} (h : ∀ c ∈ l, p c = false) :
    split p l = [l] := by
  induction l with
  | nil => rfl
  | cons c l ih =>
    have hc : p c = false := h c (by simp)
    rw [split, ih fun x hx => h x (List.mem_cons_of_mem c hx)]
    simp [hc, consFirst]

/-- A separator cuts a text into two that are split on their own. -/
theorem split_append_cons {p : Char → Bool} {d : Char} (hd : p d = true) (a b : List Char) :
    split p (a ++ d :: b) = split p a ++ split p b := by
  induction a with
  | nil => simp [split, hd]
  | cons c a ih =>
    rw [List.cons_append, split, split, ih]
    split_ifs
    · rfl
    · cases h : split p a with
      | nil => exact absurd h (split_ne_nil p a)
      | cons => rfl

/-! ### Joined pieces -/

@[simp] theorem join_singleton (sep l : List Char) : join sep [l] = l := by
  simp [join]

theorem join_cons_cons (sep l m : List Char) (ls : List (List Char)) :
    join sep (l :: m :: ls) = l ++ (sep ++ join sep (m :: ls)) := by
  simp [join]

theorem join_concat (sep : List Char) {ls : List (List Char)} (hne : ls ≠ []) (last : List Char) :
    join sep (ls ++ [last]) = join sep ls ++ (sep ++ last) := by
  induction ls with
  | nil => exact absurd rfl hne
  | cons l ls ih =>
    cases ls with
    | nil => simp [join_cons_cons]
    | cons m ls =>
      rw [List.cons_append, List.cons_append, join_cons_cons, join_cons_cons, ← List.cons_append,
        ih (by simp)]
      simp only [List.append_assoc]

/-- Pieces without the separator are found again in the text they are joined to. -/
theorem split_join {sep : Char} {pieces : List (List Char)} (hne : pieces ≠ [])
    (h : ∀ l ∈ pieces, sep ∉ l) : split (· == sep) (join [sep] pieces) = pieces := by
  induction pieces with
  | nil => exact absurd rfl hne
  | cons l pieces ih =>
    have hl : ∀ c ∈ l, (c == sep) = false := by
      intro c hc
      have hne : c ≠ sep := fun heq => h l (by simp) (heq ▸ hc)
      simpa using hne
    cases pieces with
    | nil => simpa using split_of_forall hl
    | cons m pieces =>
      rw [join_cons_cons, List.singleton_append, split_append hl sep (beq_self_eq_true sep),
        ih (by simp) fun x hx => h x (List.mem_cons_of_mem l hx)]

/-! ### Blanks at the ends -/

theorem trimStart_of_isAllBlank {l : List Char} (h : isAllBlank l = true) : trimStart l = [] := by
  rw [isAllBlank, List.all_eq_true] at h
  exact List.dropWhile_eq_nil_iff.mpr h

theorem trimStart_eq_nil_iff {l : List Char} : trimStart l = [] ↔ isAllBlank l = true := by
  rw [trimStart, List.dropWhile_eq_nil_iff, isAllBlank, List.all_eq_true]

theorem mem_of_mem_trimStart {l : List Char} {c : Char} (h : c ∈ trimStart l) : c ∈ l :=
  (List.dropWhile_sublist isBlank).mem h

end PipelineScripts.Text

namespace PipelineScripts.Yaml

open Text

/-- Spaces in front, a number of them at most. -/
theorem eq_replicate_append {l : List Char} {n : Nat} (h : n ≤ leadingSpaces l) :
    l = List.replicate n ' ' ++ l.drop n := by
  induction n generalizing l with
  | zero => simp
  | succ n ih =>
    cases l with
    | nil => simp [leadingSpaces] at h
    | cons c l =>
      have hspace : c = ' ' := by
        by_contra hc
        simp [leadingSpaces, hc] at h
      subst hspace
      have hn : n ≤ leadingSpaces l := by
        simp only [leadingSpaces, List.takeWhile_cons, beq_self_eq_true, if_true,
          List.length_cons] at h
        exact Nat.le_of_succ_le_succ h
      rw [List.replicate_succ, List.drop_succ_cons, List.cons_append, ← ih hn]

/-- Spaces in front are blanks in front. -/
theorem trimStart_drop {l : List Char} {n : Nat} (h : n ≤ leadingSpaces l) :
    trimStart (l.drop n) = trimStart l := by
  have hblank : ∀ c ∈ List.replicate n ' ', isBlank c = true := fun c hc =>
    List.eq_of_mem_replicate hc ▸ rfl
  calc trimStart (l.drop n) = trimStart (List.replicate n ' ' ++ l.drop n) :=
        (List.dropWhile_append_of_pos hblank).symm
    _ = trimStart l := by rw [← eq_replicate_append h]

/-- The body of a block scalar is made of lines that follow each other. -/
theorem trimStart_bodyLines (header : Nat) (indent : Option Nat) (ls : List (List Char)) :
    (bodyLines header indent ls).map trimStart <+: ls.map trimStart := by
  induction ls generalizing indent with
  | nil => simp [bodyLines]
  | cons l ls ih =>
    rw [bodyLines]
    split_ifs with hblank
    · split
      next => simp
      next body hne =>
        rw [List.map_cons, List.map_cons, trimStart_of_isAllBlank hblank]
        exact List.prefix_cons_inj _ |>.mpr (ih indent)
    · dsimp only
      split_ifs with hend
      · simp
      · simp only [Bool.or_eq_true, decide_eq_true_eq, not_or, not_lt] at hend
        rw [List.map_cons, List.map_cons, trimStart_drop hend.2]
        exact (List.prefix_cons_inj _).mpr (ih _)

theorem mem_of_mem_bodyLines {header : Nat} {indent : Option Nat} {ls : List (List Char)}
    {b : List Char} (h : b ∈ bodyLines header indent ls) :
    b = [] ∨ ∃ l ∈ ls, ∃ n, b = l.drop n := by
  induction ls generalizing indent with
  | nil => simp [bodyLines] at h
  | cons l ls ih =>
    have htail : ∀ {indent}, b ∈ bodyLines header indent ls →
        b = [] ∨ ∃ m ∈ l :: ls, ∃ n, b = m.drop n := by
      intro indent hb
      obtain hnil | ⟨m, hm, hdrop⟩ := ih hb
      · exact .inl hnil
      · exact .inr ⟨m, List.mem_cons_of_mem l hm, hdrop⟩
    rw [bodyLines] at h
    split_ifs at h with hblank
    · split at h
      next => simp at h
      next =>
        rcases List.mem_cons.mp h with rfl | h
        · exact .inl rfl
        · exact htail h
    · dsimp only at h
      split_ifs at h
      · simp at h
      · rcases List.mem_cons.mp h with rfl | h
        · exact .inr ⟨l, by simp, _, rfl⟩
        · exact htail h

namespace TreeSource

@[simp] theorem rawText_nil : rawText [] = [] := rfl

@[simp] theorem rawText_cons (l : List Char) (body : List (List Char)) :
    rawText (l :: body) = l ++ '\n' :: rawText body := by
  simp [rawText]

/-- The lines of a body are found again in its text. -/
theorem lines_rawText {body : List (List Char)} (h : ∀ l ∈ body, Unbroken l) :
    Text.lines (rawText body) = body := by
  induction body with
  | nil => rfl
  | cons l body ih =>
    rw [rawText_cons, lines_append_newline (h l (by simp)),
      ih fun m hm => h m (List.mem_cons_of_mem l hm)]

end TreeSource

end PipelineScripts.Yaml
