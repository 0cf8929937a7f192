import PipelineScripts.Proofs.CursorMoves
import PipelineScripts.Proofs.SourceLines

/-!
# Places and lines

Where no carriage return stands alone, the lines that a cursor counts are the lines of the source:
its mark tells which line it is on and how much of that line is behind it.
-/
namespace PipelineScripts.Text

/-- Every carriage return belongs to a line break, and no NUL ends the text early. -/
structure Tidy (s : List Char) : Prop where
  return_ : ∀ l ∈ lines s, '\r' ∉ l
  nul : '\x00' ∉ s

/-- A carriage return that no line feed follows is left in its line. -/
theorem exists_return_of_lines {l : List Char} (h : Unbroken l) {r : List Char}
    (hr : r.head? ≠ some '\n') : ∃ m ∈ lines (l ++ '\r' :: r), '\r' ∈ m := by
  suffices hfirst : ∃ m ms, lines (l ++ '\r' :: r) = m :: ms ∧ '\r' ∈ m by
    obtain ⟨m, ms, heq, hm⟩ := hfirst
    exact ⟨m, heq ▸ List.mem_cons_self, hm⟩
  induction l with
  | nil =>
    have hcons : lines ('\r' :: r) = consFirst '\r' (lines r) := by
      refine lines.eq_4 '\r' r (by decide) ?_
      rintro rest - rfl
      exact hr rfl
    rw [List.nil_append, hcons]
    cases lines r with
    | nil => exact ⟨['\r'], [], rfl, by simp⟩
    | cons m ms => exact ⟨'\r' :: m, ms, rfl, by simp⟩
  | cons c l ih =>
    have hc : Unbroken [c] := h.of_subset (by simp)
    obtain ⟨m, ms, heq, hm⟩ := ih (h.of_subset fun d hd => List.mem_cons_of_mem c hd)
    rw [List.cons_append, lines_cons _ hc, heq]
    exact ⟨c :: m, ms, rfl, List.mem_cons_of_mem c hm⟩

end PipelineScripts.Text

namespace PipelineScripts.Yaml

open Text

namespace Cursor

/-- Behind what is left to read are whole lines and a piece of the line of the mark. -/
structure PlaceIn (source rest : List Char) (mark : Mark) (before piece : List Char) : Prop where
  source_eq : source = before ++ (piece ++ rest)
  lines_append : ∀ s, lines (before ++ s) = lines before ++ lines s
  line : mark.line = (lines before).length + 1
  unbroken : Unbroken piece
  column : mark.column = piece.length

/-- A line ends: it is the piece that is behind. -/
theorem PlaceIn.next {source rest : List Char} {mark : Mark} {before piece ending : List Char}
    (h : PlaceIn source (ending ++ rest) mark before piece) (index : Nat)
    (hending : ∀ s, lines (piece ++ (ending ++ s)) = piece :: lines s) :
    PlaceIn source rest ⟨index, mark.line + 1, 0⟩ (before ++ (piece ++ ending)) [] := by
  have hlines : ∀ s,
      lines (before ++ (piece ++ ending) ++ s) = lines before ++ piece :: lines s := by
    intro s
    rw [List.append_assoc, List.append_assoc, h.lines_append, hending]
  have hbefore : lines (before ++ (piece ++ ending)) = lines before ++ [piece] := by
    have hnil := hlines []
    rwa [List.append_nil] at hnil
  refine ⟨?_, fun s => ?_, ?_, .nil, rfl⟩
  · rw [h.source_eq]
    simp
  · rw [hlines, hbefore]
    simp
  · rw [hbefore, List.length_append, h.line]
    rfl

/-- Every place that is reached is a place in the lines of the source. -/
theorem Moves.exists_place {source rest : List Char} {mark : Mark}
    (h : ({ rest := source } : Cursor).Moves rest mark) (hreturn : ∀ l ∈ lines source, '\r' ∉ l) :
    ∃ before piece, PlaceIn source rest mark before piece := by
  induction h with
  | stay => exact ⟨[], [], rfl, fun s => rfl, rfl, .nil, rfl⟩
  | @char d r m _ hd ih =>
    obtain ⟨before, piece, hplace⟩ := ih
    simp only [isLineEnd, isBreak, isEnd, Bool.or_eq_false_iff, decide_eq_false_iff_not] at hd
    refine ⟨before, piece ++ [d], ?_, hplace.lines_append, hplace.line, ?_, ?_⟩
    · rw [hplace.source_eq]
      simp
    · refine hplace.unbroken.append ⟨?_, ?_⟩
      · simpa using fun heq => hd.1.1 heq.symm
      · simpa using fun heq => hd.1.2 heq.symm
    · rw [List.length_append, ← hplace.column]
      rfl
  | @crlf r m _ ih =>
    obtain ⟨before, piece, hplace⟩ := ih
    have hnext := @PlaceIn.next source r m before piece ['\r', '\n'] hplace (m.index + 2)
      fun s => lines_append_crlf hplace.unbroken s
    exact ⟨_, _, hnext⟩
  | @newline d r m _ hd hcrlf ih =>
    obtain ⟨before, piece, hplace⟩ := ih
    simp only [isBreak, Bool.or_eq_true, decide_eq_true_eq] at hd
    rcases hd with rfl | rfl
    · have hnext := @PlaceIn.next source r m before piece ['\n'] hplace (m.index + 1)
        fun s => lines_append_newline hplace.unbroken s
      exact ⟨_, _, hnext⟩
    · -- A carriage return alone is not there.
      obtain ⟨l, hl, hmem⟩ := exists_return_of_lines hplace.unbroken (hcrlf rfl)
      refine absurd hmem (hreturn l ?_)
      rw [hplace.source_eq, hplace.lines_append]
      exact List.mem_append_right _ hl

/-- The lines from the line of the mark on. -/
theorem PlaceIn.drop_lines {source rest : List Char} {mark : Mark} {before piece : List Char}
    (h : PlaceIn source rest mark before piece) :
    (lines source).drop (mark.line - 1) = lines (piece ++ rest) := by
  rw [h.source_eq, h.lines_append, h.line, Nat.add_sub_cancel, List.drop_left]

end Cursor

end PipelineScripts.Yaml
