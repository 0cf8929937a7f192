import PipelineScripts.Proofs.CursorMoves

/-!
# The marks of a text

The line and the column of an offset are counted from the breaks before it. A cursor that moves
through a text counts the same, so that every mark it comes to is that of its offset.
-/
namespace PipelineScripts.Yaml

/-- Whether the first character of a text ends a line. CRLF ends it with the line feed. -/
def endsLine : List Char → Bool
  | [] => false
  | d :: r => isBreak d && !(d = '\r' && r.head? = some '\n')

/-- The mark behind one more character. -/
def Mark.next (m : Mark) (ends : Bool) : Mark :=
  if ends then ⟨m.index + 1, m.line + 1, 0⟩ else ⟨m.index + 1, m.line, m.column + 1⟩

/-- The mark of an offset. An offset behind the text has the mark of its end. -/
def markAt (text : List Char) : Nat → Mark
  | 0 => {}
  | n + 1 =>
    if n < text.length then (markAt text n).next (endsLine (text.drop n)) else markAt text n

theorem markAt_succ {text r : List Char} {d : Char} {n : Nat} (h : text.drop n = d :: r) :
    markAt text (n + 1) = (markAt text n).next (endsLine (d :: r)) := by
  have hlt : n < text.length := by
    by_contra hle
    rw [List.drop_eq_nil_of_le (Nat.le_of_not_lt hle)] at h
    cases h
  rw [markAt, if_pos hlt, h]

theorem one_le_line_markAt (text : List Char) (n : Nat) : 1 ≤ (markAt text n).line := by
  induction n with
  | zero => exact le_rfl
  | succ n ih =>
    rw [markAt]
    split_ifs
    · unfold Mark.next
      split_ifs
      · exact Nat.le_succ_of_le ih
      · exact ih
    · exact ih

/-- A mark of a text: that of its offset, or at the end of the text the line below, where the
scanner puts what is missing there. -/
inductive Mark.IsOf (text : List Char) (m : Mark) : Prop
  | offset (hindex : m.index ≤ text.length) (h : m = markAt text m.index)
  | below (hindex : m.index ≤ text.length)
      (hend : isEnd ((text.drop m.index).headD '\x00') = true)
      (hline : m.line = (markAt text m.index).line + 1) (hcolumn : m.column = 0)

theorem Mark.IsOf.one_le_line {text : List Char} {m : Mark} (h : m.IsOf text) : 1 ≤ m.line := by
  cases h with
  | offset _ h =>
    rw [h]
    exact one_le_line_markAt text _
  | below _ _ hline => exact hline ▸ Nat.le_add_left 1 _

namespace Cursor

variable {source r : List Char} {m : Mark} {c c' : Cursor}

/-- A cursor that moves counts the breaks that it passes. -/
theorem Moves.eq_markAt (h : ({ rest := source } : Cursor).Moves r m) :
    m = markAt source m.index := by
  induction h with
  | stay => rfl
  | @char d r m h hd ih =>
    have hends : endsLine (d :: r) = false := by
      rw [isLineEnd, Bool.or_eq_false_iff] at hd
      rw [endsLine, hd.1, Bool.false_and]
    rw [markAt_succ h.drop_index, ← ih, hends]
    rfl
  | @crlf r m h ih =>
    -- The line ends with the second of the two characters.
    have hnext : source.drop (m.index + 1) = '\n' :: r := by
      rw [← List.drop_drop, h.drop_index]
      rfl
    rw [markAt_succ hnext, markAt_succ h.drop_index, ← ih]
    rfl
  | @newline d r m h hd hcrlf ih =>
    have hends : endsLine (d :: r) = true := by
      rw [endsLine, hd, Bool.true_and, Bool.not_eq_true', Bool.and_eq_false_imp]
      intro hreturn
      exact decide_eq_false (hcrlf (of_decide_eq_true hreturn))
    rw [markAt_succ h.drop_index, ← ih, hends]
    rfl

/-- A cursor on its way through a text: reached from the start of the text, or at the end with the
mark of the line below. -/
inductive In (source : List Char) (c : Cursor) : Prop
  | reached (h : ({ rest := source } : Cursor).Reaches c)
  | below {last : Cursor} (h : ({ rest := source } : Cursor).Reaches last)
      (hend : isEnd last.peek = true) (hrest : c.rest = last.rest)
      (hmark : c.mark = ⟨last.mark.index, last.mark.line + 1, 0⟩)

namespace In

theorem start (source : List Char) : ({ rest := source } : Cursor).In source := .reached (.refl _)

theorem reaches (h : c.In source) (hc : c.Reaches c') : c'.In source := by
  cases h with
  | reached h => exact .reached (h.trans hc)
  | below h hend hrest hmark =>
    have hpeek : isEnd c.peek = true := by
      rw [peek, hrest]
      exact hend
    -- Nothing is in front of the cursor any more.
    have hstay := Moves.rest_eq_of_isEnd hc hpeek
    have hmark' := (Moves.eq_of_length hc (by rw [hstay])).2
    exact .below h hend (hstay.trans hrest) (hmark'.trans hmark)

theorem isOf (h : c.In source) : c.mark.IsOf source := by
  have hoffset : ∀ {c : Cursor}, ({ rest := source } : Cursor).Reaches c →
      c.mark.index ≤ source.length := fun {c} hc => by
    have hlength : c.mark.index + c.rest.length = 0 + source.length := Moves.index_add_length hc
    omega
  cases h with
  | reached h => exact .offset (hoffset h) (Moves.eq_markAt h)
  | below h hend _ hmark =>
    rw [hmark]
    refine .below (hoffset h) ?_ (congrArg (·.line + 1) (Moves.eq_markAt h)) rfl
    rw [Moves.drop_index h]
    exact hend

/-- The end of a text is passed once. -/
theorem last (h : c.In source) (hend : isEnd c.peek = true) (hcolumn : c.mark.column ≠ 0) :
    ({ c with mark := { c.mark with line := c.mark.line + 1, column := 0 } } : Cursor).In
      source := by
  cases h with
  | reached h => exact .below h hend rfl rfl
  | below _ _ _ hmark => exact absurd (congrArg Mark.column hmark) hcolumn

end In

end Cursor

end PipelineScripts.Yaml
