import PipelineScripts.Proofs.BlockBodies
import Mathlib.Data.List.DropRight

/-!
# Texts with the same lines

Two texts are compared line by line, without the blanks at the ends of their lines and without the
empty lines at the end. So the line breaks and the blank lines at the end of a text do not count.
-/
namespace PipelineScripts.Text

/-- Lines without blanks at their ends and without empty lines at the end. -/
def bare (ls : List (List Char)) : List (List Char) :=
  (ls.map trimEnd).rdropWhile List.isEmpty

/-- Two texts have the same lines, up to blanks at the ends of lines and empty lines at the end. -/
def SameLines (a b : String) : Prop := bare (lines a.toList) = bare (lines b.toList)

theorem trimEnd_eq_nil_iff {l : List Char} : trimEnd l = [] ↔ isAllBlank l = true := by
  rw [trimEnd, List.reverse_eq_nil_iff, List.dropWhile_eq_nil_iff, isAllBlank, List.all_eq_true]
  simp

theorem bare_append {ls tail : List (List Char)} (h : ∀ l ∈ tail, isAllBlank l = true) :
    bare (ls ++ tail) = bare ls := by
  induction tail using List.reverseRecOn with
  | nil => rw [List.append_nil]
  | append_singleton tail l ih =>
    have hl : (trimEnd l).isEmpty = true := by
      rw [List.isEmpty_iff, trimEnd_eq_nil_iff]
      exact h l (by simp)
    rw [← ih fun m hm => h m (by simp [hm]), bare, bare, ← List.append_assoc, List.map_append,
      List.map_singleton, List.rdropWhile_concat_pos _ _ _ hl]

/-- Nothing is left of blank lines, and something of others. -/
theorem bare_eq_nil_iff {ls : List (List Char)} :
    bare ls = [] ↔ ∀ l ∈ ls, isAllBlank l = true := by
  rw [bare, List.rdropWhile_eq_nil_iff]
  simp [trimEnd_eq_nil_iff]

/-- A line that is not blank stays where it is. -/
theorem getElem?_bare {ls : List (List Char)} {k : Nat} {l : List Char} (h : ls[k]? = some l)
    (hl : isAllBlank l = false) : (bare ls)[k]? = some (trimEnd l) := by
  induction ls using List.reverseRecOn with
  | nil => simp at h
  | append_singleton ls m ih =>
    by_cases hm : isAllBlank m = true
    · rw [bare_append (by simpa using hm)]
      refine ih ?_
      have hlt := (List.getElem?_eq_some_iff.mp h).1
      rw [List.length_append, List.length_singleton] at hlt
      rcases Nat.lt_succ_iff_lt_or_eq.mp hlt with hlt | rfl
      · rwa [List.getElem?_append_left hlt] at h
      · rw [List.getElem?_concat_length] at h
        cases h
        rw [hm] at hl
        cases hl
    · have hkeep : ¬ (trimEnd m).isEmpty = true := by
        rwa [List.isEmpty_iff, trimEnd_eq_nil_iff]
      rw [bare, List.map_append, List.map_singleton, List.rdropWhile_concat_neg _ _ _ hkeep,
        ← List.map_singleton, ← List.map_append, List.getElem?_map, h, Option.map_some]

theorem bare_nil : bare [] = [] := rfl

/-- One more line in front. -/
theorem bare_cons (l : List Char) (ls : List (List Char)) :
    bare (l :: ls) = if trimEnd l = [] ∧ bare ls = [] then [] else trimEnd l :: bare ls := by
  induction ls using List.reverseRecOn with
  | nil => simp [bare, List.rdropWhile_singleton]
  | append_singleton ls m ih =>
    by_cases hm : isAllBlank m = true
    · have hblank : ∀ x ∈ [m], isAllBlank x = true := by simpa using hm
      rw [← List.cons_append, bare_append hblank, bare_append hblank, ih]
    · have hkeep : ¬ (trimEnd m).isEmpty = true := by
        rwa [List.isEmpty_iff, trimEnd_eq_nil_iff]
      have hconcat : ∀ ms, bare (ms ++ [m]) = ms.map trimEnd ++ [trimEnd m] := by
        intro ms
        rw [bare, List.map_append, List.map_singleton, List.rdropWhile_concat_neg _ _ _ hkeep]
      rw [← List.cons_append, hconcat, hconcat]
      simp

theorem bare_append_congr {ps qs xs ys : List (List Char)}
    (hps : ps.map trimEnd = qs.map trimEnd) (h : bare xs = bare ys) :
    bare (ps ++ xs) = bare (qs ++ ys) := by
  induction ps generalizing qs with
  | nil =>
    rw [List.map_nil, eq_comm, List.map_eq_nil_iff] at hps
    rw [hps, List.nil_append, List.nil_append, h]
  | cons p ps ih =>
    cases qs with
    | nil => cases hps
    | cons q qs =>
      obtain ⟨hp, hps⟩ := List.cons.inj hps
      rw [List.cons_append, List.cons_append, bare_cons, bare_cons, ih hps, hp]

theorem isAllBlank_consFirst {c : Char} {ls : List (List Char)} :
    (∀ l ∈ consFirst c ls, isAllBlank l = true) ↔
      isBlank c = true ∧ ∀ l ∈ ls, isAllBlank l = true := by
  cases ls with
  | nil => simp [consFirst, isAllBlank]
  | cons l ls => simp [consFirst, isAllBlank, and_assoc]

/-- A text is blank if its lines are. -/
theorem isAllBlank_iff_lines (s : List Char) :
    (∀ l ∈ lines s, isAllBlank l = true) ↔ isAllBlank s = true := by
  have hbreak : isBlank '\n' = true ∧ isBlank '\r' = true := by decide
  fun_induction lines s with
  | case1 => simp [isAllBlank]
  | case2 r ih => simpa [isAllBlank, hbreak] using ih
  | case3 r ih => simpa [isAllBlank, hbreak] using ih
  | case4 c r _ _ ih =>
    refine isAllBlank_consFirst.trans ((and_congr_right fun _ => ih).trans ?_)
    simp [isAllBlank]

/-- A line feed at the end makes no line or an empty one. -/
theorem lines_append_singleton {s : List Char} (h : '\r' ∉ s) :
    lines (s ++ ['\n']) = lines s ∨ lines (s ++ ['\n']) = lines s ++ [[]] := by
  induction s with
  | nil => exact .inr rfl
  | cons c s ih =>
    have ih := ih fun hmem => h (List.mem_cons_of_mem c hmem)
    by_cases hc : c = '\n'
    · subst hc
      rw [List.cons_append, lines.eq_2, lines.eq_2]
      exact ih.imp (by rw [·]) (by rw [·]; rfl)
    · have hunbroken : Unbroken [c] := by
        refine ⟨by simpa using fun heq => hc heq.symm, ?_⟩
        simp only [List.mem_singleton]
        exact fun heq => h (heq ▸ List.mem_cons_self)
      rw [List.cons_append, lines_cons _ hunbroken, lines_cons _ hunbroken]
      cases hs : lines s with
      | nil =>
        rw [hs] at ih
        rcases ih with ih | ih <;> rw [ih] <;> exact .inl rfl
      | cons l ls =>
        rw [hs] at ih
        exact ih.imp (by rw [·]) (by rw [·]; rfl)

/-- Line feeds at the end do not count. -/
theorem bare_lines_of_append {s : List Char} {k : Nat} {ls : List (List Char)}
    (hls : ∀ l ∈ ls, Unbroken l)
    (h : s ++ List.replicate k '\n' = Yaml.TreeSource.rawText ls) : bare (lines s) = bare ls := by
  induction k generalizing s with
  | zero =>
    rw [List.replicate_zero, List.append_nil] at h
    rw [h, Yaml.TreeSource.lines_rawText hls]
  | succ k ih =>
    rw [List.replicate_succ, ← List.singleton_append, ← List.append_assoc] at h
    have hreturn : '\r' ∉ s := by
      intro hmem
      have hraw : '\r' ∈ Yaml.TreeSource.rawText ls := by
        rw [← h]
        simp [hmem]
      obtain ⟨l, hl, hr⟩ := List.mem_flatMap.mp hraw
      have hnone := (hls l hl).return_
      simp [hnone] at hr
    rw [← ih h]
    rcases lines_append_singleton hreturn with heq | heq
    · rw [heq]
    · rw [heq, bare_append (by simp [isAllBlank])]

theorem bare_lines_of_trailing {s : List Char} {j k : Nat} {ls : List (List Char)}
    (hls : ∀ l ∈ ls, Unbroken l)
    (h : s ++ List.replicate k '\n' = Yaml.TreeSource.rawText ls) :
    bare (lines (s ++ List.replicate j '\n')) = bare ls := by
  rcases Nat.le_total j k with hle | hle
  · refine bare_lines_of_append (k := k - j) hls ?_
    rw [← h, List.append_assoc, List.replicate_append_replicate, Nat.add_sub_cancel' hle]
  · have hmore : s ++ List.replicate j '\n' =
        Yaml.TreeSource.rawText (ls ++ List.replicate (j - k) []) := by
      rw [Yaml.rawText_append, Yaml.rawText_replicate_nil, ← h, List.append_assoc,
        List.replicate_append_replicate, Nat.add_sub_cancel' hle]
    rw [hmore, Yaml.TreeSource.lines_rawText]
    · exact bare_append (by simp [List.mem_replicate, isAllBlank])
    · intro l hl
      rcases List.mem_append.mp hl with hl | hl
      · exact hls l hl
      · rw [(List.mem_replicate.mp hl).2]
        exact .nil

end PipelineScripts.Text
