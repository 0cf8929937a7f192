import PipelineScripts.Proofs.LiteralReads

/-!
# Values of folded scalars

A folded scalar is read like a literal one, line for line, and differs in the line breaks between
its lines only. So its value is made of the value that the same text has as a literal scalar: a
single break between two lines that start with no blank becomes a space, of more breaks the first
is dropped, and all other breaks stay.
-/
namespace PipelineScripts.Yaml

open Text

/-! ### Folding -/

/-- What line breaks in front of a line become. `last` is whether the line before them starts with
a blank; there may be none. -/
def foldBreaks (last : Option Bool) (startsBlank : Bool) (breaks : Nat) : List Char :=
  if last = some false && !startsBlank then
    if breaks = 1 then [' '] else List.replicate (breaks - 1) '\n'
  else List.replicate breaks '\n'

/-- Folds lines behind a number of line breaks. -/
def foldLines : Option Bool → Nat → List (List Char) → List Char
  | _, breaks, [] => List.replicate (breaks - 1) '\n'
  | last, breaks, [] :: rest => foldLines last (breaks + 1) rest
  | last, breaks, (c :: l) :: rest =>
    foldBreaks last (isSpaceOrTab c) breaks ++ c :: l ++ foldLines (some (isSpaceOrTab c)) 1 rest

/-- Folds the lines of a text. -/
def foldText (text : List Char) : List Char := foldLines none 0 (split (· == '\n') text)

theorem foldLines_replicate (last : Option Bool) (breaks n : Nat) (rest : List (List Char)) :
    foldLines last breaks (List.replicate n [] ++ rest) = foldLines last (breaks + n) rest := by
  induction n generalizing breaks with
  | zero => rfl
  | succ n ih =>
    rw [List.replicate_succ, List.cons_append, foldLines, ih]
    congr 1
    omega

theorem split_replicate_newline (n : Nat) (s : List Char) :
    split (· == '\n') (List.replicate n '\n' ++ s) =
      List.replicate n [] ++ split (· == '\n') s := by
  induction n with
  | zero => rfl
  | succ n ih => simp [List.replicate_succ, split, ih]

/-- A text is folded so far, up to a line that starts with a blank or not. What follows, from the
next line on, is folded behind that line. -/
def FoldsTo (last : Option Bool) (text folded : List Char) : Prop :=
  ∀ rest, foldLines none 0 (split (· == '\n') text ++ rest) = folded ++ foldLines last 1 rest

theorem FoldsTo.nil : FoldsTo none [] [] := fun _ => rfl

theorem split_append_newlines (text : List Char) {n : Nat} (hn : n ≠ 0) (s : List Char) :
    split (· == '\n') (text ++ (List.replicate n '\n' ++ s)) =
      split (· == '\n') text ++ (List.replicate (n - 1) [] ++ split (· == '\n') s) := by
  obtain ⟨n, rfl⟩ := Nat.exists_eq_succ_of_ne_zero hn
  rw [List.replicate_succ, List.cons_append, split_append_cons (by simp), split_replicate_newline]
  rfl

/-- One more line. Only in front of the first line there may be no break. -/
theorem FoldsTo.line {last : Option Bool} {text folded : List Char} (h : FoldsTo last text folded)
    {breaks : Nat} (hbreaks : breaks = 0 → text = [] ∧ folded = [] ∧ last = none) {c : Char}
    {l : List Char} (hl : '\n' ∉ c :: l) :
    FoldsTo (some (isSpaceOrTab c)) (text ++ (List.replicate breaks '\n' ++ c :: l))
      (folded ++ (foldBreaks last (isSpaceOrTab c) breaks ++ c :: l)) := by
  intro rest
  have hsplit : split (· == '\n') (c :: l) = [c :: l] :=
    split_of_forall fun d hd => beq_false_of_ne fun heq => hl (heq ▸ hd)
  by_cases hzero : breaks = 0
  · obtain ⟨rfl, rfl, rfl⟩ := hbreaks hzero
    subst hzero
    simp [hsplit, foldLines]
  · rw [split_append_newlines text hzero, hsplit, List.append_assoc, List.append_assoc, h,
      foldLines_replicate, List.singleton_append, foldLines,
      show 1 + (breaks - 1) = breaks by omega]
    simp

/-- The breaks at the end stay. -/
theorem FoldsTo.foldText_append {last : Option Bool} {text folded : List Char}
    (h : FoldsTo last text folded) (n : Nat) :
    foldText (text ++ List.replicate n '\n') = folded ++ List.replicate n '\n' := by
  have hsplit : split (· == '\n') (text ++ List.replicate n '\n') =
      split (· == '\n') text ++ (List.replicate n [] ++ []) := by
    rcases Nat.eq_zero_or_pos n with rfl | hn
    · simp
    · have hconcat : List.replicate n ([] : List Char) = List.replicate (n - 1) [] ++ [[]] := by
        rw [← List.replicate_succ', Nat.sub_add_cancel hn]
      rw [← List.append_nil (List.replicate n '\n'), split_append_newlines text (by omega),
        List.append_nil, hconcat]
      rfl
  rw [foldText, hsplit, h, foldLines_replicate, foldLines, Nat.add_sub_cancel_left]

/-! ### Reading lines -/

theorem Cursor.length_skipBreak {c : Cursor} (h : isBreak c.peek = true) :
    c.skipBreak.rest.length < c.rest.length := by
  have hne : c.peek ≠ '\x00' := fun heq => by simp [heq, isBreak] at h
  have hrest := rest_eq_of_peek rfl hne
  unfold skipBreak
  split
  next heq =>
    rw [heq]
    simp only [List.length_cons]
    omega
  next d r _ heq =>
    rw [heq] at hrest
    rw [← (List.cons.inj hrest).1] at h
    rw [if_pos h, heq]
    exact Nat.lt_succ_self _
  next heq =>
    rw [heq] at hrest
    cases hrest

/-- All blank lines are passed over. -/
theorem isBreak_skipBlockIndent {indent fuel breaks breaks' : Nat} {c c' : Cursor}
    (h : skipBlockIndent indent fuel c breaks = (c', breaks')) (hfuel : c.rest.length < fuel) :
    isBreak c'.peek = false := by
  fun_induction skipBlockIndent indent fuel c breaks with
  | case1 => omega
  | case2 fuel c breaks spaces after hbreak ih =>
    have hlt := Cursor.length_skipBreak hbreak
    have hle : after.rest.length ≤ c.rest.length := (List.drop_suffix spaces _).length_le
    exact ih h (by omega)
  | case3 fuel c breaks spaces after hbreak =>
    rw [← (Prod.mk.inj h).1]
    exact Bool.eq_false_iff.mpr hbreak

theorem isBreak_skipFirstIndent {fuel deepest deepest' breaks breaks' : Nat} {c c' : Cursor}
    (h : skipFirstIndent fuel c deepest breaks = (c', deepest', breaks'))
    (hfuel : c.rest.length < fuel) : isBreak c'.peek = false := by
  fun_induction skipFirstIndent fuel c deepest breaks with
  | case1 => omega
  | case2 fuel c _ breaks after _ hbreak ih =>
    have hlt := Cursor.length_skipBreak hbreak
    have hle : after.rest.length ≤ c.rest.length := (List.drop_suffix _ c.rest).length_le
    exact ih h (by omega)
  | case3 fuel c _ breaks after _ hbreak =>
    rw [← (Prod.mk.inj h).1]
    exact Bool.eq_false_iff.mpr hbreak

namespace BlockBody

/-- Whether the line that was read last starts with a blank, if there is one. -/
def lastLine (b : BlockBody) : Option Bool := if b.broken then some b.blankLine else none

theorem joint_true (b : BlockBody) (startsBlank : Bool) : b.joint true startsBlank =
    foldBreaks b.lastLine startsBlank (b.breaks + if b.broken then 1 else 0) := by
  unfold joint foldBreaks lastLine
  cases b.broken <;> cases b.blankLine <;> cases startsBlank <;> simp

theorem joint_false (b : BlockBody) (startsBlank : Bool) : b.joint false startsBlank =
    List.replicate (b.breaks + if b.broken then 1 else 0) '\n' := rfl

/-- Line breaks read the same backwards. -/
theorem reverse_joint (folded : Bool) (b : BlockBody) (startsBlank : Bool) :
    (b.joint folded startsBlank).reverse = b.joint folded startsBlank := by
  unfold joint
  split_ifs <;> simp

theorem reverse_line (folded : Bool) (b : BlockBody) (startsBlank : Bool) (line text : List Char) :
    (line.reverse ++ (b.joint folded startsBlank ++ text)).reverse =
      text.reverse ++ (b.joint folded startsBlank ++ line) := by
  simp [reverse_joint]

/-- The rest of a line that is not at its end. -/
theorem exists_line {c : Cursor} (hend : isEnd c.peek = false) (hbreak : isBreak c.peek = false) :
    ∃ l, c.rest.takeWhile (!isLineEnd ·) = c.peek :: l := by
  have hne : c.peek ≠ '\x00' := fun heq => by simp [heq, isEnd] at hend
  have hlineEnd : isLineEnd c.peek = false := by simp [isLineEnd, hend, hbreak]
  rw [Cursor.rest_eq_of_peek rfl hne, List.takeWhile_cons, if_pos (by simp [hlineEnd])]
  exact ⟨_, rfl⟩

/-- Both readings go in step: they end at the same place, and their texts differ by folding. -/
theorem run_true (indent fuel : Nat) (b : BlockBody) (folded : List Char)
    (h : FoldsTo b.lastLine b.text.reverse folded.reverse)
    (hstart : b.broken = false → b.text = [] ∧ folded = [])
    (hbreak : isBreak b.cursor.peek = false) :
    ∃ text, run true indent fuel { b with text := folded } =
        { run false indent fuel b with text } ∧
      ∀ n, foldText ((run false indent fuel b).text.reverse ++ List.replicate n '\n') =
        text.reverse ++ List.replicate n '\n' := by
  induction fuel generalizing b folded with
  | zero => exact ⟨folded, rfl, h.foldText_append⟩
  | succ fuel ih =>
    rw [run, run]
    dsimp only
    split
    next => exact ⟨folded, rfl, h.foldText_append⟩
    next hstop =>
      simp only [ne_eq, Bool.or_eq_true, not_or, Bool.not_eq_true] at hstop
      obtain ⟨l, hl⟩ := exists_line hstop.1.2 hbreak
      have hnewline : '\n' ∉ b.cursor.peek :: l := hl ▸ (unbroken_takeWhile b.cursor.rest).newline
      have hzero : (b.breaks + if b.broken then 1 else 0) = 0 →
          b.text.reverse = [] ∧ folded.reverse = [] ∧ b.lastLine = none := by
        intro hzero
        cases hbroken : b.broken with
        | false =>
          obtain ⟨htext, hfolded⟩ := hstart hbroken
          simp [htext, hfolded, lastLine, hbroken]
        | true => simp [hbroken] at hzero
      have hfolds := h.line hzero hnewline
      rw [← joint_true, ← b.joint_false (isSpaceOrTab b.cursor.peek), ← hl] at hfolds
      generalize b.cursor.rest.takeWhile (!isLineEnd ·) = line at hfolds ⊢
      rw [← reverse_line true b _ line folded, ← reverse_line false b _ line b.text] at hfolds
      have hjoint : joint true { b with text := folded } (isSpaceOrTab b.cursor.peek) =
          b.joint true (isSpaceOrTab b.cursor.peek) := rfl
      rw [hjoint]
      generalize line.reverse ++ (b.joint true _ ++ folded) = foldedText at hfolds ⊢
      generalize line.reverse ++ (b.joint false _ ++ b.text) = text at hfolds ⊢
      split
      next => exact ⟨foldedText, rfl, hfolds.foldText_append⟩
      next =>
        generalize hskip : skipBlockIndent indent _ _ 0 = skipped
        obtain ⟨c, breaks⟩ := skipped
        have hshort : (b.cursor.skip line.length).skipBreak.rest.length ≤
            (b.cursor.skip line.length).rest.length := (Cursor.reaches_skipBreak _).length_le
        exact ih ⟨c, text, true, breaks, isSpaceOrTab b.cursor.peek⟩ foldedText hfolds (by simp)
          (isBreak_skipBlockIndent hskip (Nat.lt_succ_of_le hshort))

/-- Chomping looks at the end of the body only. -/
theorem exists_finish_text (chomping : Chomping) (indent : Nat) (b : BlockBody) :
    ∃ n, ∀ text,
      finish chomping indent { b with text } = text.reverse ++ List.replicate n '\n' := by
  obtain ⟨n, hn⟩ := exists_finish_eq chomping indent { b with text := [] }
  refine ⟨n, fun text => ?_⟩
  rw [List.reverse_nil, List.nil_append] at hn
  rw [← hn]
  cases chomping <;> simp [finish]

end BlockBody

theorem foldText_replicate (n : Nat) : foldText (List.replicate n '\n') = List.replicate n '\n' :=
  FoldsTo.nil.foldText_append n

/-- A body without lines has nothing to fold. -/
theorem foldText_emptyBlock (chomping : Chomping) (sameLine : Bool) (breaks : Nat) :
    foldText (emptyBlock chomping sameLine breaks) = emptyBlock chomping sameLine breaks := by
  obtain ⟨n, hn⟩ := exists_emptyBlock_eq chomping sameLine breaks
  rw [hn, foldText_replicate]

/-- The content of a block scalar starts below all blank lines. -/
theorem FirstLine.isBreak_peek {header : BlockHeader} {parent : Int} {below first : Cursor}
    {indent breaks : Nat} (h : FirstLine header parent below first indent breaks) :
    isBreak first.peek = false := by
  cases h with
  | found _ hskip => exact isBreak_skipFirstIndent hskip (Nat.lt_succ_self _)
  | given _ hskip => exact isBreak_skipBlockIndent hskip (Nat.lt_succ_self _)

/-- A folded scalar has the value of a literal one with its lines folded. -/
theorem readBlock?_true (parent : Int) (c : Cursor) :
    readBlock? true parent c =
      (readBlock? false parent c).map fun b => { b with text := foldText b.text } := by
  unfold readBlock?
  cases hheader : BlockHeader.read? (c.pass 1) with
  | none => rfl
  | some read =>
    obtain ⟨header, inner⟩ := read
    dsimp only [Option.bind_eq_bind, Option.bind_some]
    cases hafter : inner.skipBlanks? with
    | none => rfl
    | some after =>
      dsimp only [Option.bind_some]
      generalize (if isBreak after.cursor.peek then after.cursor.skipBreak
        else after.cursor) = below
      generalize hstart : (if header.indent = 0 then _ else _ : Cursor × Nat × Nat) = start
      obtain ⟨first, indent, breaks⟩ := start
      have hfirst : FirstLine header parent below first indent breaks := by
        split_ifs at hstart with hindent
        · cases hstart
          exact .found hindent rfl
        · cases hstart
          exact .given hindent rfl
      obtain ⟨text, hrun, htext⟩ :=
        BlockBody.run_true indent (first.rest.length + 1) { cursor := first, breaks } [] .nil
          (fun _ => ⟨rfl, rfl⟩) hfirst.isBreak_peek
      dsimp only at hrun htext ⊢
      rw [hrun]
      generalize BlockBody.run false indent _ _ = body at htext ⊢
      obtain ⟨n, hfinish⟩ := body.exists_finish_text header.chomping indent
      have hvalue : BlockBody.finish header.chomping indent { body with text } =
          foldText (body.finish header.chomping indent) := by
        rw [hfinish, hfinish body.text, htext]
      simp only [Option.bind_none]
      split_ifs
      · rfl
      · rfl
      · -- The text ends in front of the first line.
        exact congrArg (fun t => some (BlockRead.mk first t c.mark)) (foldText_emptyBlock ..).symm
      · rfl
      · exact congrArg (fun t => some (BlockRead.mk body.cursor t first.mark)) hvalue

end PipelineScripts.Yaml
