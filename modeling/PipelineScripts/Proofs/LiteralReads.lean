import PipelineScripts.Proofs.SameLines
import PipelineScripts.Proofs.WrittenTokens

/-!
# What is read for a literal scalar

The scanner takes the lines below a header up to the first that is less deep than the content. The
value of a literal scalar has these lines without their indentation.
-/
namespace PipelineScripts.Yaml

open Text

theorem BlockHeader.line_of_read? {c c' : Cursor} {header : BlockHeader}
    (h : read? c = some (header, c')) : c'.mark.line = c.mark.line := by
  unfold read? at h
  dsimp only at h
  split at h
  next =>
    split_ifs at h <;> cases h <;> rfl
  next =>
    split_ifs at h
    · split at h <;> cases h <;> rfl
    · cases h
      rfl

theorem Cursor.line_of_skipBlanks? {c : Cursor} {b : Cursor.Blanks} (h : c.skipBlanks? = some b) :
    b.cursor.mark.line = c.mark.line := by
  unfold Cursor.skipBlanks? at h
  dsimp only at h
  split_ifs at h <;> cases h <;> rfl

theorem Cursor.mark_skipBreak {c : Cursor} (h : isBreak c.peek = true) :
    c.skipBreak.mark.line = c.mark.line + 1 ∧ c.skipBreak.mark.column = 0 := by
  have hne : c.peek ≠ '\x00' := fun heq => by simp [heq, isBreak] at h
  have hrest := rest_eq_of_peek rfl hne
  unfold skipBreak
  split
  · exact ⟨rfl, rfl⟩
  next d r _ heq =>
    rw [heq] at hrest
    rw [← (List.cons.inj hrest).1] at h
    rw [if_pos h]
    exact ⟨rfl, rfl⟩
  next heq =>
    rw [heq] at hrest
    cases hrest

/-- The line breaks at the end are all that chomping is about. -/
theorem exists_finish_eq (chomping : Chomping) (indent : Nat) (b : BlockBody) :
    ∃ k, b.finish chomping indent = b.text.reverse ++ List.replicate k '\n' := by
  have hnewlines : ∀ (p : Prop) [Decidable p],
      (if p then ['\n'] else []) = List.replicate (if p then 1 else 0) '\n' := by
    intro p _
    split_ifs <;> rfl
  unfold BlockBody.finish
  rw [hnewlines, hnewlines]
  cases chomping with
  | strip => exact ⟨0, by simp⟩
  | clip =>
    dsimp only
    rw [List.append_assoc, List.replicate_append_replicate]
    exact ⟨_, rfl⟩
  | keep =>
    dsimp only
    rw [List.append_assoc, List.append_assoc, List.replicate_append_replicate,
      List.replicate_append_replicate]
    exact ⟨_, rfl⟩

theorem isAllBlank_replicate_newline (k : Nat) : isAllBlank (List.replicate k '\n') = true := by
  rw [isAllBlank, List.all_eq_true]
  intro c hc
  rw [(List.mem_replicate.mp hc).2]
  decide

/-- A scalar without lines has line breaks only. -/
theorem exists_emptyBlock_eq (chomping : Chomping) (sameLine : Bool) (breaks : Nat) :
    ∃ n, emptyBlock chomping sameLine breaks = List.replicate n '\n' := by
  unfold emptyBlock
  split_ifs
  · exact ⟨0, rfl⟩
  · cases chomping with
    | strip => exact ⟨0, rfl⟩
    | clip => exact ⟨1, rfl⟩
    | keep => exact ⟨max breaks 1, rfl⟩

theorem isAllBlank_emptyBlock (chomping : Chomping) (sameLine : Bool) (breaks : Nat) :
    isAllBlank (emptyBlock chomping sameLine breaks) = true := by
  obtain ⟨n, hn⟩ := exists_emptyBlock_eq chomping sameLine breaks
  rw [hn, isAllBlank_replicate_newline]

theorem isAllBlank_of_isSpaces {l : List Char} (h : isSpaces l = true) : isAllBlank l = true := by
  rw [isSpaces, List.all_eq_true] at h
  rw [isAllBlank, List.all_eq_true]
  intro c hc
  rw [beq_iff_eq.mp (h c hc)]
  decide

theorem isAllBlank_drop {l : List Char} (h : isAllBlank l = true) (n : Nat) :
    isAllBlank (l.drop n) = true := by
  rw [isAllBlank, List.all_eq_true] at h ⊢
  exact fun c hc => h c (List.mem_of_mem_drop hc)

theorem map_trimEnd_drop_blanks {blanks : List (List Char)} (n : Nat)
    (h : ∀ m ∈ blanks, isAllBlank m = true) :
    (blanks.map (List.drop n)).map trimEnd =
      (List.replicate blanks.length []).map trimEnd := by
  rw [List.map_map, List.map_replicate]
  refine List.eq_replicate_iff.mpr ⟨List.length_map _, fun l hl => ?_⟩
  obtain ⟨m, hm, rfl⟩ := List.mem_map.mp hl
  exact trimEnd_eq_nil_iff.mpr (isAllBlank_drop (h m hm) n)

/-- A text in which lines can be told apart: tidy, and blank lines hold only spaces. -/
structure PlainText (source : List Char) : Prop extends Tidy source where
  blank : ∀ l ∈ lines source, isAllBlank l = true → isSpaces l = true

/-- The content of a scalar starts below lines of spaces. -/
structure ContentStart (source : List Char) (c first : Cursor) (blanks : List (List Char)) :
    Prop where
  lines_eq : (lines source).drop c.mark.line =
    blanks ++ lines (List.replicate first.mark.column ' ' ++ first.rest)
  spaces : ∀ l ∈ blanks, isSpaces l = true
  line : first.mark.line = c.mark.line + 1 + blanks.length
  break_ : isBreak first.peek = false
  nul : '\x00' ∉ first.rest

/-- The line break behind a header, and the lines below it. -/
theorem BlockStages.exists_below {source : List Char} (hreturn : ∀ l ∈ lines source, '\r' ∉ l)
    {c : Cursor} (hc : ({ rest := source } : Cursor).Reaches c)
    (hindicator : isLineEnd c.peek = false) {folded : Bool} {parent : Int} {b : BlockRead}
    (s : BlockStages folded parent c b) (hfirst : isEnd s.first.peek = false) :
    ∃ below, FirstLine s.header parent below s.first s.indent s.breaks ∧
      below.mark.line = c.mark.line + 1 ∧ below.mark.column = 0 ∧ below.rest <:+ source ∧
      lines below.rest = (lines source).drop c.mark.line := by
  have hafter : ({ rest := source } : Cursor).Reaches s.after.cursor :=
    ((hc.trans (Cursor.reaches_pass_one hindicator)).trans
      (BlockHeader.reaches_read? s.header_eq)).trans (Cursor.reaches_skipBlanks? s.after_eq)
  have hline := s.firstLine
  have hbreak : isBreak s.after.cursor.peek = true := by
    by_contra hnot
    have hend := s.lineEnd
    rw [isLineEnd, Bool.eq_false_iff.mpr hnot, Bool.false_or] at hend
    have hreach := hline.reaches
    rw [if_neg hnot] at hreach
    rw [hreach.isEnd_of_isEnd hend] at hfirst
    cases hfirst
  rw [if_pos hbreak] at hline
  obtain ⟨hnext, hcolumn⟩ := Cursor.mark_skipBreak hbreak
  rw [Cursor.line_of_skipBlanks? s.after_eq, BlockHeader.line_of_read? s.header_eq] at hnext
  obtain ⟨before, piece, hplace⟩ :=
    Cursor.Moves.exists_place (hafter.trans (Cursor.reaches_skipBreak _)) hreturn
  have hpiece : piece = [] := List.length_eq_zero_iff.mp (hplace.column.symm.trans hcolumn)
  have hdrop := hplace.drop_lines
  rw [hpiece, List.nil_append, hnext] at hdrop
  refine ⟨_, hline, hnext, hcolumn, ⟨before ++ piece, ?_⟩, hdrop.symm⟩
  rw [hplace.source_eq, List.append_assoc]

theorem BlockStages.exists_contentStart {source : List Char} (hsource : Tidy source) {c : Cursor}
    (hc : ({ rest := source } : Cursor).Reaches c) (hindicator : isLineEnd c.peek = false)
    {folded : Bool} {parent : Int} {b : BlockRead} (s : BlockStages folded parent c b)
    (hfirst : isEnd s.first.peek = false) : ∃ blanks, ContentStart source c s.first blanks ∧
      s.breaks = blanks.length ∧ (s.indent = 0 → s.first.peek ≠ ' ') := by
  obtain ⟨below, hfirstLine, hline, hcolumn, hsuffix, hlines⟩ :=
    s.exists_below hsource.return_ hc hindicator hfirst
  obtain ⟨blanks, hskips, hbreaks, -, hspace⟩ :=
    hfirstLine.exists_skipsSpaces hcolumn fun l hl =>
      hsource.return_ l (List.mem_of_mem_drop (hlines ▸ hl))
  refine ⟨blanks, ⟨?_, hskips.spaces, ?_, hskips.break_, ?_⟩, hbreaks, fun h => hspace (.inr h)⟩
  · rw [← hlines, hskips.lines_eq]
  · rw [hskips.line, hline]
  · exact fun hnul => hsource.nul ((hskips.rest.trans hsuffix).subset hnul)

namespace ContentStart

variable {source : List Char} {c first : Cursor} {blanks : List (List Char)}

theorem mem_lines (h : ContentStart source c first blanks) {l : List Char}
    (hl : l ∈ lines (List.replicate first.mark.column ' ' ++ first.rest)) : l ∈ lines source := by
  refine List.mem_of_mem_drop (i := c.mark.line) ?_
  rw [h.lines_eq]
  exact List.mem_append_right _ hl

/-- Content in a column right of the margin has the lines that reach that column. -/
theorem bare_body (h : ContentStart source c first blanks) (hreturn : ∀ l ∈ lines source, '\r' ∉ l)
    (hpos : 0 < first.mark.column) (chomping : Chomping) :
    bare (lines ((BlockBody.run false first.mark.column (first.rest.length + 1)
      { cursor := first, breaks := blanks.length }).finish chomping first.mark.column)) =
      bare ((((lines source).drop c.mark.line).takeWhile (inBody first.mark.column)).map
        (List.drop first.mark.column)) := by
  have hdone : BlockBody.soFar { cursor := first, breaks := blanks.length } =
      TreeSource.rawText (List.replicate blanks.length []) := by
    simp [BlockBody.soFar, rawText_replicate_nil]
  obtain ⟨ls, ending, tail, htail, hsoFar, htake⟩ := lines_run hpos
    (b := { cursor := first, breaks := blanks.length }) (Nat.lt_succ_self _) le_rfl
    (fun hlt => absurd hlt (lt_irrefl _)) h.break_ h.nul
    (fun l hl => hreturn l (h.mem_lines hl)) hdone
  dsimp only at htake hsoFar
  generalize hbody : BlockBody.run false first.mark.column _ _ = body at hsoFar ⊢
  obtain ⟨k, hfinish⟩ := exists_finish_eq chomping first.mark.column body
  have hunbroken : ∀ l ∈ List.replicate blanks.length [] ++ ls, Unbroken l := by
    intro l hl
    rcases List.mem_append.mp hl with hl | hl
    · rw [(List.mem_replicate.mp hl).2]
      exact .nil
    · have hmem : l ∈ ls ++ tail := List.mem_append_left _ hl
      rw [← htake] at hmem
      obtain ⟨m, hm, rfl⟩ := List.mem_map.mp hmem
      have hm := h.mem_lines ((List.takeWhile_sublist _).mem hm)
      have hunbroken : Unbroken m := ⟨newline_not_mem_of_mem_lines hm, hreturn m hm⟩
      exact hunbroken.of_subset fun _ => List.mem_of_mem_drop
  rw [BlockBody.soFar, List.append_assoc, List.replicate_append_replicate] at hsoFar
  calc bare (lines (body.finish chomping first.mark.column))
      = bare (List.replicate blanks.length [] ++ ls) := by
        rw [hfinish, bare_lines_of_trailing hunbroken hsoFar]
    _ = bare (blanks.map (List.drop first.mark.column) ++ ls) := by
        refine (bare_append_congr (map_trimEnd_drop_blanks _ fun l hl => ?_) rfl).symm
        exact isAllBlank_of_isSpaces (h.spaces l hl)
    _ = bare (blanks.map (List.drop first.mark.column) ++ ls ++ tail) := by
        refine (bare_append fun l hl => ?_).symm
        rw [htail l hl]
        rfl
    _ = bare ((((lines source).drop c.mark.line).takeWhile (inBody first.mark.column)).map
          (List.drop first.mark.column)) := by
        rw [h.lines_eq, takeWhile_inBody_append h.spaces, List.map_append, htake,
          List.append_assoc]

/-- Content at the margin has a first line that is not blank. -/
theorem exists_flush (h : ContentStart source c first blanks) (hsource : PlainText source)
    (hzero : first.mark.column = 0) (hend : isEnd first.peek = false) (hspace : first.peek ≠ ' ') :
    ∃ l, ((lines source).drop c.mark.line)[blanks.length]? = some l ∧ isAllBlank l = false ∧
      leadingSpaces l = 0 := by
  obtain ⟨l, ls, hlines⟩ : ∃ l ls, lines first.rest = (first.peek :: l) :: ls := by
    have hne : first.peek ≠ '\x00' := by simpa [isEnd] using hend
    have hbreak := h.break_
    simp only [isBreak, Bool.or_eq_false_iff, decide_eq_false_iff_not] at hbreak
    rw [Cursor.rest_eq_of_peek rfl hne]
    refine @exists_first_line [first.peek] ⟨?_, ?_⟩ (by simp) _
    · simpa using fun heq => hbreak.1 heq.symm
    · simpa using fun heq => hbreak.2 heq.symm
  have hmem : first.peek :: l ∈ lines source := h.mem_lines (by simp [hzero, hlines])
  refine ⟨first.peek :: l, ?_, ?_, by simp [leadingSpaces, hspace]⟩
  · rw [h.lines_eq, hzero, List.replicate_zero, List.nil_append, hlines,
      List.getElem?_append_right le_rfl, Nat.sub_self]
    rfl
  · by_contra hblank
    rw [Bool.not_eq_false] at hblank
    have hspaces := hsource.blank _ hmem hblank
    simp [isSpaces, hspace] at hspaces

end ContentStart

/-- A literal scalar that is not blank: where its content starts and which lines it has. -/
structure ReadsLines (source : List Char) (c : Cursor) (b : BlockRead) (breaks : Nat) : Prop where
  line : b.start.line = c.mark.line + 1 + breaks
  spaces : ∀ l ∈ ((lines source).drop c.mark.line).take breaks, isSpaces l = true
  body : 0 < b.start.column → bare (lines b.text) =
    bare ((((lines source).drop c.mark.line).takeWhile (inBody b.start.column)).map
      (List.drop b.start.column))
  flush : b.start.column = 0 → ∃ l, ((lines source).drop c.mark.line)[breaks]? = some l ∧
    isAllBlank l = false ∧ leadingSpaces l = 0

theorem exists_readsLines {source : List Char} (hsource : PlainText source) {c : Cursor}
    (hc : ({ rest := source } : Cursor).Reaches c) (hindicator : isLineEnd c.peek = false)
    {parent : Int} {b : BlockRead} (h : readBlock? false parent c = some b)
    (htext : isAllBlank b.text = false) : ∃ breaks, ReadsLines source c b breaks := by
  obtain ⟨s⟩ := exists_blockStages h
  obtain ⟨-, hb⟩ | ⟨hfirst, -, body, hbody, hb⟩ := s.result
  · -- The end of the text leaves nothing but line breaks.
    rw [hb, isAllBlank_emptyBlock] at htext
    cases htext
  rw [hb] at htext ⊢
  obtain ⟨blanks, hstart, hbreaks, hspace⟩ :=
    s.exists_contentStart hsource.toTidy hc hindicator hfirst
  have hindent : s.first.mark.column = s.indent := by
    by_contra hne
    have hstop : body = { cursor := s.first, breaks := s.breaks } := by
      rw [hbody, BlockBody.run, if_pos (by simp [hne])]
    obtain ⟨k, hfinish⟩ := exists_finish_eq s.header.chomping s.indent body
    dsimp only at htext
    rw [hfinish, hstop, List.reverse_nil, List.nil_append, isAllBlank_replicate_newline] at htext
    cases htext
  rw [← hindent, hbreaks] at hbody
  rw [← hindent]
  refine ⟨blanks.length, hstart.line, ?_, fun hpos => ?_, fun hzero => ?_⟩
  · rw [hstart.lines_eq, List.take_left]
    exact hstart.spaces
  · dsimp only at hpos ⊢
    rw [hbody]
    exact hstart.bare_body hsource.return_ hpos _
  · exact hstart.exists_flush hsource hzero hfirst (hspace (hindent.symm.trans hzero))

end PipelineScripts.Yaml
