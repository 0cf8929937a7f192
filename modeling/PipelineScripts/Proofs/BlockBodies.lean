import PipelineScripts.Proofs.LinePlaces
import PipelineScripts.Proofs.ScalarMoves

/-!
# Bodies of block scalars, line by line

A block scalar is read character by character. In terms of lines, its body starts below the header
behind lines of spaces, and goes on as long as the lines are as deep as its indentation or hold
only spaces.
-/
namespace PipelineScripts.Yaml

open Text

/-- Whether a line holds only spaces. -/
def isSpaces (l : List Char) : Bool := l.all (· == ' ')

/-- Whether a line goes on with a body of some indentation. -/
def inBody (indent : Nat) (l : List Char) : Bool := isSpaces l || indent ≤ leadingSpaces l

theorem isSpaces_replicate (n : Nat) : isSpaces (List.replicate n ' ') = true := by
  simp [isSpaces]

theorem unbroken_replicate_space (n : Nat) : Unbroken (List.replicate n ' ') := by
  constructor <;> simp [List.mem_replicate]

/-- Behind all the spaces in front there is no space. -/
theorem headD_drop_leadingSpaces (l : List Char) :
    (l.drop (leadingSpaces l)).headD '\x00' ≠ ' ' := by
  induction l with
  | nil => decide
  | cons c l ih =>
    by_cases hc : c = ' '
    · subst hc
      simpa [leadingSpaces] using ih
    · simp [leadingSpaces, hc]

theorem leadingSpaces_replicate_append {n : Nat} {l : List Char} (h : l.headD '\x00' ≠ ' ') :
    leadingSpaces (List.replicate n ' ' ++ l) = n := by
  induction n with
  | zero =>
    cases l with
    | nil => rfl
    | cons c l =>
      have hc : c ≠ ' ' := h
      simp [leadingSpaces, hc]
  | succ n ih => simpa [leadingSpaces, List.replicate_succ] using ih

namespace Cursor

/-- A line break in front ends the line. -/
theorem lines_skipBreak {c : Cursor} {piece : List Char} (hpiece : Unbroken piece)
    (hbreak : isBreak c.peek = true) (hreturn : ∀ l ∈ lines (piece ++ c.rest), '\r' ∉ l) :
    lines (piece ++ c.rest) = piece :: lines c.skipBreak.rest ∧
      c.skipBreak.mark.line = c.mark.line + 1 ∧ c.skipBreak.mark.column = 0 ∧
      c.skipBreak.rest <:+ c.rest ∧ c.skipBreak.rest.length < c.rest.length := by
  have hne : c.peek ≠ '\x00' := fun heq => by simp [heq, isBreak] at hbreak
  have hrest := rest_eq_of_peek rfl hne
  simp only [isBreak, Bool.or_eq_true, decide_eq_true_eq] at hbreak
  obtain ⟨rest, mark, leading⟩ := c
  dsimp only at hrest hreturn ⊢
  generalize rest.drop 1 = r at hrest
  rcases hbreak with hd | hd
  · rw [hd] at hrest
    subst hrest
    exact ⟨lines_append_newline hpiece r, rfl, rfl, List.suffix_cons _ r, Nat.lt_succ_self _⟩
  · rw [hd] at hrest
    subst hrest
    have hnext : r.head? = some '\n' := by
      by_contra hr
      obtain ⟨l, hl, hmem⟩ := exists_return_of_lines hpiece hr
      exact hreturn l hl hmem
    obtain ⟨r, rfl⟩ := List.head?_eq_some_iff.mp hnext
    refine ⟨lines_append_crlf hpiece r, rfl, rfl, ?_, ?_⟩
    · exact (List.suffix_cons _ r).trans (List.suffix_cons _ _)
    · show r.length < r.length + 1 + 1
      omega

end Cursor

/-- Lines of spaces are passed over, and then spaces. -/
structure SkipsSpaces (c c' : Cursor) (blanks : List (List Char)) : Prop where
  lines_eq : lines c.rest = blanks ++ lines (List.replicate c'.mark.column ' ' ++ c'.rest)
  spaces : ∀ l ∈ blanks, isSpaces l = true
  line : c'.mark.line = c.mark.line + blanks.length
  break_ : isBreak c'.peek = false
  rest : c'.rest <:+ c.rest

/-- One more line of spaces. -/
theorem SkipsSpaces.cons {c c' : Cursor} {n : Nat} {blanks : List (List Char)}
    (hn : n ≤ leadingSpaces c.rest) (hbreak : isBreak (c.skip n).peek = true)
    (hreturn : ∀ l ∈ lines c.rest, '\r' ∉ l)
    (h : SkipsSpaces (c.skip n).skipBreak c' blanks) :
    SkipsSpaces c c' (List.replicate n ' ' :: blanks) := by
  have hrest : c.rest = List.replicate n ' ' ++ (c.skip n).rest := eq_replicate_append hn
  rw [hrest] at hreturn
  obtain ⟨hlines, hline, -, hsuffix, -⟩ :=
    Cursor.lines_skipBreak (unbroken_replicate_space n) hbreak hreturn
  refine ⟨?_, ?_, ?_, h.break_, ?_⟩
  · rw [hrest, hlines, h.lines_eq, List.cons_append]
  · intro l hl
    rcases List.mem_cons.mp hl with rfl | hl
    · exact isSpaces_replicate n
    · exact h.spaces l hl
  · rw [h.line, hline, List.length_cons]
    show c.mark.line + 1 + _ = _
    omega
  · exact (h.rest.trans hsuffix).trans (List.drop_suffix n _)

/-- No more line of spaces. -/
theorem SkipsSpaces.nil {c : Cursor} {n : Nat} (hn : n ≤ leadingSpaces c.rest)
    (hcolumn : c.mark.column = 0) (hbreak : isBreak (c.skip n).peek = false) :
    SkipsSpaces c (c.skip n) [] := by
  refine ⟨?_, by simp, rfl, hbreak, List.drop_suffix n _⟩
  have hmark : (c.skip n).mark.column = n := by
    show c.mark.column + n = n
    omega
  rw [List.nil_append, hmark]
  exact congrArg lines (eq_replicate_append hn)

theorem length_take_spaces (l : List Char) (n : Nat) :
    ((l.takeWhile (· == ' ')).take n).length = min n (leadingSpaces l) := List.length_take

theorem skipsSpaces_skipBlockIndent {indent fuel breaks breaks' : Nat} {c c' : Cursor}
    (h : skipBlockIndent indent fuel c breaks = (c', breaks')) (hcolumn : c.mark.column = 0)
    (hfuel : c.rest.length < fuel) (hreturn : ∀ l ∈ lines c.rest, '\r' ∉ l) :
    ∃ blanks, SkipsSpaces c c' blanks ∧ breaks' = breaks + blanks.length ∧
      (∀ l ∈ blanks, l.length ≤ indent) ∧ c'.mark.column ≤ indent ∧
      (c'.mark.column < indent → c'.peek ≠ ' ') := by
  induction fuel generalizing c breaks with
  | zero => omega
  | succ fuel ih =>
    rw [skipBlockIndent] at h
    simp only [length_take_spaces, hcolumn, Nat.sub_zero] at h
    generalize hn : min indent (leadingSpaces c.rest) = n at h
    have hle : n ≤ leadingSpaces c.rest := by omega
    split_ifs at h with hbreak
    · have hlines := hreturn
      rw [eq_replicate_append hle] at hlines
      obtain ⟨heq, -, hzero, -, hlt⟩ :=
        Cursor.lines_skipBreak (unbroken_replicate_space n) hbreak hlines
      have hshort : (c.skip n).rest.length ≤ c.rest.length := (List.drop_suffix n _).length_le
      obtain ⟨blanks, hskips, hbreaks, hblanks, hend⟩ := ih h hzero (by omega) fun l hl =>
        hlines l (heq ▸ List.mem_cons_of_mem _ hl)
      refine ⟨_, hskips.cons hle hbreak hreturn, ?_, ?_, hend⟩
      · rw [hbreaks, List.length_cons]
        omega
      · intro l hl
        rcases List.mem_cons.mp hl with rfl | hl
        · rw [List.length_replicate]
          omega
        · exact hblanks l hl
    · cases h
      have hmark : (c.skip n).mark.column = n := by
        show c.mark.column + n = n
        omega
      refine ⟨[], .nil hle hcolumn (Bool.eq_false_iff.mpr hbreak), rfl, by simp, ?_, fun hlt => ?_⟩
      · omega
      · have hall : n = leadingSpaces c.rest := by omega
        rw [hall]
        exact headD_drop_leadingSpaces c.rest

theorem skipsSpaces_skipFirstIndent {fuel deepest deepest' breaks breaks' : Nat} {c c' : Cursor}
    (h : skipFirstIndent fuel c deepest breaks = (c', deepest', breaks'))
    (hcolumn : c.mark.column = 0) (hfuel : c.rest.length < fuel)
    (hreturn : ∀ l ∈ lines c.rest, '\r' ∉ l) :
    ∃ blanks, SkipsSpaces c c' blanks ∧ breaks' = breaks + blanks.length ∧
      c'.mark.column ≤ deepest' ∧ c'.peek ≠ ' ' := by
  induction fuel generalizing c deepest breaks with
  | zero => omega
  | succ fuel ih =>
    rw [skipFirstIndent] at h
    have hskip : c.skipWhile (· == ' ') = c.skip (leadingSpaces c.rest) := rfl
    simp only [hskip] at h
    generalize hn : leadingSpaces c.rest = n at h
    have hle : n ≤ leadingSpaces c.rest := by omega
    split_ifs at h with hbreak
    · have hlines := hreturn
      rw [eq_replicate_append hle] at hlines
      obtain ⟨heq, -, hzero, -, hlt⟩ :=
        Cursor.lines_skipBreak (unbroken_replicate_space n) hbreak hlines
      have hshort : (c.skip n).rest.length ≤ c.rest.length := (List.drop_suffix n _).length_le
      obtain ⟨blanks, hskips, hbreaks, hend⟩ := ih h hzero (by omega) fun l hl =>
        hlines l (heq ▸ List.mem_cons_of_mem _ hl)
      refine ⟨_, hskips.cons hle hbreak hreturn, ?_, hend⟩
      rw [hbreaks, List.length_cons]
      omega
    · cases h
      refine ⟨[], .nil hle hcolumn (Bool.eq_false_iff.mpr hbreak), rfl, le_max_right _ _, ?_⟩
      rw [← hn]
      exact headD_drop_leadingSpaces c.rest

/-- Below a header, lines of spaces are passed over and then spaces up to the indentation. -/
theorem FirstLine.exists_skipsSpaces {header : BlockHeader} {parent : Int} {below first : Cursor}
    {indent breaks : Nat} (h : FirstLine header parent below first indent breaks)
    (hcolumn : below.mark.column = 0) (hreturn : ∀ l ∈ lines below.rest, '\r' ∉ l) :
    ∃ blanks, SkipsSpaces below first blanks ∧ breaks = blanks.length ∧
      first.mark.column ≤ indent ∧
      (first.mark.column < indent ∨ indent = 0 → first.peek ≠ ' ') := by
  cases h with
  | found hindent hskip =>
    obtain ⟨blanks, hskips, hbreaks, hdeepest, hspace⟩ :=
      skipsSpaces_skipFirstIndent hskip hcolumn (Nat.lt_succ_self _) hreturn
    exact ⟨blanks, hskips, by omega, hdeepest.trans (le_max_left _ _), fun _ => hspace⟩
  | given hindent hskip =>
    obtain ⟨blanks, hskips, hbreaks, -, hle, hspace⟩ :=
      skipsSpaces_skipBlockIndent hskip hcolumn (Nat.lt_succ_self _) hreturn
    exact ⟨blanks, hskips, by omega, hle, fun h => hspace (h.resolve_right (by omega))⟩

/-! ### Reading lines -/

/-- The text read so far, with the line breaks at its end. -/
def BlockBody.soFar (b : BlockBody) : List Char :=
  b.text.reverse ++ List.replicate (b.breaks + if b.broken then 1 else 0) '\n'

theorem rawText_append (a b : List (List Char)) :
    TreeSource.rawText (a ++ b) = TreeSource.rawText a ++ TreeSource.rawText b :=
  List.flatMap_append

theorem rawText_replicate_nil (n : Nat) :
    TreeSource.rawText (List.replicate n []) = List.replicate n '\n' := by
  induction n with
  | zero => rfl
  | succ n ih => rw [List.replicate_succ, TreeSource.rawText_cons, ih, List.replicate_succ]; rfl

/-- Behind the rest of a line there is its end. -/
theorem isLineEnd_headD_drop (r : List Char) :
    isLineEnd ((r.drop (r.takeWhile (!isLineEnd ·)).length).headD '\x00') = true := by
  induction r with
  | nil => decide
  | cons c r ih =>
    by_cases hc : isLineEnd c = true
    · simp [hc]
    · simpa [hc] using ih

theorem unbroken_takeWhile (r : List Char) : Unbroken (r.takeWhile (!isLineEnd ·)) := by
  constructor <;> intro hmem <;> exact absurd (List.mem_takeWhile_imp hmem) (by decide)

theorem eq_nil_of_isEnd {r : List Char} (h : isEnd (r.headD '\x00') = true) (hnul : '\x00' ∉ r) :
    r = [] := by
  cases r with
  | nil => rfl
  | cons c r =>
    rw [List.headD_cons, isEnd, decide_eq_true_eq] at h
    subst h
    simp at hnul

/-- An unbroken text is in front of the first line. -/
theorem exists_first_line {piece : List Char} (h : Unbroken piece) (hne : piece ≠ [])
    (r : List Char) : ∃ l ls, lines (piece ++ r) = (piece ++ l) :: ls := by
  induction piece with
  | nil => exact absurd rfl hne
  | cons c piece ih =>
    have hc : Unbroken [c] := h.of_subset (by simp)
    have hpiece : Unbroken piece := h.of_subset fun d hd => List.mem_cons_of_mem c hd
    rw [List.cons_append, lines_cons _ hc]
    by_cases hempty : piece = []
    · subst hempty
      cases hr : lines r with
      | nil => exact ⟨[], [], by simp [hr, consFirst]⟩
      | cons l ls => exact ⟨l, ls, by simp [hr, consFirst]⟩
    · obtain ⟨l, ls, hl⟩ := ih hpiece hempty
      exact ⟨l, ls, by rw [hl, consFirst, List.cons_append]⟩

/-- What follows a body that has ended: a line less deep, or nothing but spaces. -/
theorem takeWhile_inBody_of_end {indent column : Nat} {rest : List Char}
    (hbreak : isBreak (rest.headD '\x00') = false)
    (hend : rest = [] ∨ column < indent ∧ rest.headD '\x00' ≠ ' ') (hcolumn : column ≤ indent) :
    ∀ l ∈ ((lines (List.replicate column ' ' ++ rest)).takeWhile (inBody indent)).map
      (List.drop indent), l = [] := by
  cases rest with
  | nil =>
    rw [List.append_nil, lines_of_unbroken (unbroken_replicate_space column)]
    have hdrop : (List.replicate column ' ').drop indent = [] :=
      List.drop_eq_nil_of_le (by rw [List.length_replicate]; exact hcolumn)
    split_ifs
    · simp
    · intro l hl
      obtain ⟨m, hm, rfl⟩ := List.mem_map.mp hl
      rw [List.mem_singleton.mp ((List.takeWhile_sublist _).mem hm), hdrop]
  | cons d r =>
    obtain ⟨hlt, hspace⟩ := hend.resolve_left (by simp)
    rw [List.headD_cons] at hbreak hspace
    simp only [isBreak, Bool.or_eq_false_iff, decide_eq_false_iff_not] at hbreak
    have hpiece : Unbroken (List.replicate column ' ' ++ [d]) := by
      refine (unbroken_replicate_space column).append ⟨?_, ?_⟩
      · simpa using fun heq => hbreak.1 heq.symm
      · simpa using fun heq => hbreak.2 heq.symm
    obtain ⟨l, ls, hlines⟩ := exists_first_line hpiece (by simp) r
    rw [List.append_assoc, List.singleton_append] at hlines
    have hdepth : leadingSpaces (List.replicate column ' ' ++ [d] ++ l) = column := by
      rw [List.append_assoc]
      exact leadingSpaces_replicate_append hspace
    have hout : inBody indent (List.replicate column ' ' ++ [d] ++ l) = false := by
      rw [inBody, hdepth, Bool.or_eq_false_iff, decide_eq_false_iff_not]
      refine ⟨?_, by omega⟩
      simp [isSpaces, hspace]
    rw [hlines, List.takeWhile_cons, hout]
    simp

theorem inBody_replicate_append (indent : Nat) (l : List Char) :
    inBody indent (List.replicate indent ' ' ++ l) = true := by
  have hle : indent ≤ leadingSpaces (List.replicate indent ' ' ++ l) := by
    rw [leadingSpaces, List.takeWhile_append_of_pos (by simp [List.mem_replicate])]
    simp
  simp [inBody, hle]

theorem takeWhile_inBody_append {indent : Nat} {blanks : List (List Char)}
    (h : ∀ l ∈ blanks, isSpaces l = true) (ls : List (List Char)) :
    (blanks ++ ls).takeWhile (inBody indent) = blanks ++ ls.takeWhile (inBody indent) :=
  List.takeWhile_append_of_pos fun l hl => by simp [inBody, h l hl]

theorem takeWhile_append_skip {c : Cursor} {line : List Char}
    (h : c.rest.takeWhile (!isLineEnd ·) = line) : c.rest = line ++ (c.skip line.length).rest := by
  have hprefix : line <+: c.rest := h ▸ List.takeWhile_prefix _
  nth_rewrite 1 [← List.take_append_drop line.length c.rest]
  rw [← List.prefix_iff_eq_take.mp hprefix]
  rfl

/-- What is read before a line and the line itself. -/
theorem soFar_line {b : BlockBody} {done : List (List Char)}
    (hdone : b.soFar = TreeSource.rawText done)
    (line : List Char) (startsBlank : Bool) :
    (line.reverse ++ (b.joint false startsBlank ++ b.text)).reverse =
      TreeSource.rawText done ++ line := by
  rw [← hdone]
  simp [BlockBody.joint, BlockBody.soFar]

/-- Behind a line there are lines of spaces, and then spaces up to the indentation. -/
theorem exists_next_line {indent breaks : Nat} {c c' : Cursor} {line : List Char}
    (hline : c.rest.takeWhile (!isLineEnd ·) = line)
    (hbreak : isBreak (c.skip line.length).peek = true)
    (hreturn : ∀ l ∈ lines (List.replicate indent ' ' ++ c.rest), '\r' ∉ l)
    (hskip : skipBlockIndent indent ((c.skip line.length).rest.length + 1)
      (c.skip line.length).skipBreak 0 = (c', breaks)) :
    ∃ blanks, lines (List.replicate indent ' ' ++ c.rest) = (List.replicate indent ' ' ++ line) ::
        (blanks ++ lines (List.replicate c'.mark.column ' ' ++ c'.rest)) ∧
      (∀ l ∈ blanks, isSpaces l = true) ∧
      blanks.map (List.drop indent) = List.replicate breaks [] ∧
      isBreak c'.peek = false ∧ c'.rest <:+ c.rest ∧ c'.rest.length < c.rest.length ∧
      c'.mark.column ≤ indent ∧ (c'.mark.column < indent → c'.peek ≠ ' ') := by
  have hunbroken : Unbroken (List.replicate indent ' ' ++ line) :=
    (unbroken_replicate_space indent).append (hline ▸ unbroken_takeWhile c.rest)
  have hlines : lines (List.replicate indent ' ' ++ c.rest) =
      lines (List.replicate indent ' ' ++ line ++ (c.skip line.length).rest) := by
    rw [List.append_assoc, ← takeWhile_append_skip hline]
  rw [hlines] at hreturn ⊢
  obtain ⟨hfirst, -, hzero, hsuffix, hlt⟩ := Cursor.lines_skipBreak hunbroken hbreak hreturn
  rw [hfirst] at hreturn ⊢
  obtain ⟨blanks, hskips, hbreaks, hshort, hcolumn, hspace⟩ :=
    skipsSpaces_skipBlockIndent hskip hzero (by omega)
      fun l hl => hreturn l (List.mem_cons_of_mem _ hl)
  have hrest : (c.skip line.length).rest <:+ c.rest := List.drop_suffix line.length _
  have hlength := hskips.rest.length_le
  have hlength' := hrest.length_le
  refine ⟨blanks, by rw [hskips.lines_eq], hskips.spaces, ?_, hskips.break_,
    (hskips.rest.trans hsuffix).trans hrest, by omega, hcolumn, hspace⟩
  rw [hbreaks, Nat.zero_add]
  refine List.eq_replicate_iff.mpr ⟨List.length_map _, fun l hl => ?_⟩
  obtain ⟨m, hm, rfl⟩ := List.mem_map.mp hl
  exact List.drop_eq_nil_of_le (hshort m hm)

/-- A run reads the lines that are in the body, without their indentation. -/
theorem lines_run {indent fuel : Nat} (hindent : 0 < indent) {b : BlockBody}
    (hfuel : b.cursor.rest.length < fuel) (hcolumn : b.cursor.mark.column ≤ indent)
    (hspace : b.cursor.mark.column < indent → b.cursor.peek ≠ ' ')
    (hbreak : isBreak b.cursor.peek = false) (hnul : '\x00' ∉ b.cursor.rest)
    (hreturn : ∀ l ∈ lines (List.replicate b.cursor.mark.column ' ' ++ b.cursor.rest), '\r' ∉ l)
    {done : List (List Char)} (hdone : b.soFar = TreeSource.rawText done) :
    ∃ body breaks blanks, (∀ l ∈ blanks, l = []) ∧
      (BlockBody.run false indent fuel b).soFar ++ List.replicate breaks '\n' =
        TreeSource.rawText (done ++ body) ∧
      ((lines (List.replicate b.cursor.mark.column ' ' ++ b.cursor.rest)).takeWhile
        (inBody indent)).map (List.drop indent) = body ++ blanks := by
  induction fuel generalizing b done with
  | zero => omega
  | succ fuel ih =>
    rw [BlockBody.run]
    dsimp only
    split
    next hstop =>
      refine ⟨[], 0, _, takeWhile_inBody_of_end hbreak ?_ hcolumn, by simpa using hdone, rfl⟩
      simp only [ne_eq, Bool.or_eq_true, decide_eq_true_eq, Bool.and_eq_true] at hstop
      rcases hstop with (hne | hend) | ⟨hzero, -⟩
      · have hlt : b.cursor.mark.column < indent := by omega
        exact .inr ⟨hlt, hspace hlt⟩
      · exact .inl (eq_nil_of_isEnd hend hnul)
      · omega
    next hstop =>
      simp only [ne_eq, Bool.or_eq_true, decide_eq_true_eq, Bool.and_eq_true, not_or,
        not_not] at hstop
      obtain ⟨⟨hat, hend⟩, -⟩ := hstop
      rw [hat] at hreturn ⊢
      generalize hline : b.cursor.rest.takeWhile (!isLineEnd ·) = line
      have hdrop : (List.replicate indent ' ' ++ line).drop indent = line :=
        List.drop_left' (List.length_replicate ..)
      have htext := soFar_line hdone line (isSpaceOrTab b.cursor.peek)
      generalize line.reverse ++ (b.joint false _ ++ b.text) = text at htext ⊢
      split
      next hlast =>
        have hnil : (b.cursor.skip line.length).rest = [] :=
          eq_nil_of_isEnd hlast fun hmem => hnul (List.mem_of_mem_drop hmem)
        have hunbroken : Unbroken (List.replicate indent ' ' ++ line) :=
          (unbroken_replicate_space indent).append (hline ▸ unbroken_takeWhile b.cursor.rest)
        refine ⟨[line], 1, [], by simp, ?_, ?_⟩
        · simp [BlockBody.soFar, htext, rawText_append]
        · rw [takeWhile_append_skip hline, hnil, List.append_nil, lines_of_unbroken hunbroken,
            if_neg (by simp; omega), List.takeWhile_cons, inBody_replicate_append]
          simp [hdrop]
      next hlast =>
        have hatBreak : isBreak (b.cursor.skip line.length).peek = true := by
          have hlineEnd : isLineEnd (b.cursor.skip line.length).peek = true :=
            hline ▸ isLineEnd_headD_drop b.cursor.rest
          simpa [isLineEnd, hlast] using hlineEnd
        generalize hskip : skipBlockIndent indent _ _ 0 = skipped
        obtain ⟨c, breaks⟩ := skipped
        obtain ⟨blanks, hlines, hspaces, hdrops, hbreak', hsuffix, hlt, hcolumn', hspace'⟩ :=
          exists_next_line hline hatBreak hreturn hskip
        rw [hlines] at hreturn ⊢
        have hdone' : BlockBody.soFar ⟨c, text, true, breaks, isSpaceOrTab b.cursor.peek⟩ =
            TreeSource.rawText (done ++ line :: List.replicate breaks []) := by
          simp [BlockBody.soFar, htext, rawText_append, rawText_replicate_nil,
            List.replicate_succ]
        obtain ⟨body, ending, tail, htail, hsoFar, htake⟩ := ih
          (b := ⟨c, text, true, breaks, isSpaceOrTab b.cursor.peek⟩) (by dsimp only; omega)
          hcolumn' hspace' hbreak' (fun hmem => hnul (hsuffix.subset hmem))
          (fun l hl => hreturn l (List.mem_cons_of_mem _ (List.mem_append_right _ hl))) hdone'
        refine ⟨line :: (List.replicate breaks [] ++ body), ending, tail, htail, ?_, ?_⟩
        · rw [hsoFar]
          simp
        · rw [List.takeWhile_cons, inBody_replicate_append, if_pos rfl,
            takeWhile_inBody_append hspaces, List.map_cons, List.map_append, htake, hdrops, hdrop]
          simp

end PipelineScripts.Yaml
