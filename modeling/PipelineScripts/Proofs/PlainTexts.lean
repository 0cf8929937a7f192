import PipelineScripts.Proofs.ScalarMoves
import PipelineScripts.Text.Blank
import Mathlib.Data.List.Infix

/-!
# The text of a plain scalar

A plain scalar is its first word and what goes on with it. What goes on is set off by white space
and is read as such, so that a text without white space is that of the first word alone.
-/
namespace PipelineScripts.Yaml

open Cursor Text

/-! ### White space -/

theorem isBlank_of_isSpaceOrTab {d : Char} (h : isSpaceOrTab d = true) : isBlank d = true := by
  simp only [isSpaceOrTab, Bool.or_eq_true, decide_eq_true_eq] at h
  rcases h with rfl | rfl <;> decide

theorem isBlank_of_isBreak {d : Char} (h : isBreak d = true) : isBlank d = true := by
  simp only [isBreak, Bool.or_eq_true, decide_eq_true_eq] at h
  rcases h with rfl | rfl <;> decide

namespace Cursor

variable {c c' : Cursor}

theorem Moves.index_le {r : List Char} {m : Mark} (h : c.Moves r m) : c.mark.index ≤ m.index := by
  induction h with
  | stay => exact le_rfl
  | char _ _ ih | newline _ _ _ ih => exact ih.trans (Nat.le_succ _)
  | crlf _ ih => exact ih.trans (Nat.le_add_right _ 2)

theorem leading_skipBreak (h : isBreak c.peek = true) : c.skipBreak.leading = true := by
  unfold skipBreak
  split
  next => rfl
  next d r _ hrest =>
    rw [peek, hrest, List.headD_cons] at h
    rw [if_pos h]
  next hrest =>
    rw [peek, hrest] at h
    cases h

theorem length_skipBreak_lt (h : isBreak c.peek = true) :
    c.skipBreak.rest.length < c.rest.length := by
  unfold skipBreak
  split
  next r hrest =>
    rw [hrest, List.length_cons, List.length_cons]
    exact Nat.lt_add_of_pos_right (by decide : 0 < 2)
  next d r _ hrest =>
    rw [peek, hrest, List.headD_cons] at h
    rw [if_pos h, hrest]
    exact Nat.lt_succ_self _
  next hrest =>
    rw [peek, hrest] at h
    cases h

theorem length_skip_one_lt (h : isSpaceOrTab c.peek = true) :
    (c.skip 1).rest.length < c.rest.length := by
  have hrest := rest_eq_of_peek (c := c) rfl (by rintro heq; rw [heq] at h; cases h)
  rw [skip, hrest, List.length_cons]
  simp

theorem leading_skipBlanks? {b : Blanks} (h : c.skipBlanks? = some b) :
    b.cursor.leading = c.leading := by
  unfold skipBlanks? at h
  dsimp only at h
  split_ifs at h <;> cases h <;> rfl

theorem length_skipBlanks?_lt {b : Blanks} (hpeek : isSpaceOrTab c.peek = true)
    (h : c.skipBlanks? = some b) : b.cursor.rest.length < c.rest.length := by
  have hrest := rest_eq_of_peek (c := c) rfl (by rintro heq; rw [heq] at hpeek; cases hpeek)
  have hblanks : 0 < (c.rest.takeWhile isSpaceOrTab).length := by
    rw [hrest, List.takeWhile_cons_of_pos hpeek]
    exact Nat.succ_pos _
  have hlength : 0 < c.rest.length := by
    rw [hrest]
    exact Nat.succ_pos _
  unfold skipBlanks? at h
  dsimp only at h
  split_ifs at h
  all_goals
    cases h
    simp only [skipLine, skipWhile, skip, List.length_drop]
    omega

end Cursor

namespace PlainRead

variable {inFlow : Bool} {least : Int} {fuel : Nat} {p p' : PlainRead}

/-! ### Between two words -/

/-- White space was passed behind the last word. -/
structure Joined (p : PlainRead) : Prop where
  broken : p.cursor.leading = true → p.broken = true
  blanks : p.cursor.leading = false → p.blanks ≠ []
  space : ∀ d ∈ p.blanks, isSpaceOrTab d = true

/-- What was passed reads as white space. -/
theorem Joined.joint (h : p.Joined) : p.joint ≠ [] ∧ ∀ d ∈ p.joint, isBlank d = true := by
  unfold PlainRead.joint
  by_cases hleading : p.cursor.leading = true
  · rw [if_pos hleading, h.broken hleading, Bool.true_and]
    split_ifs with hbreaks
    · refine ⟨by simp, fun d hd => ?_⟩
      rw [List.mem_singleton.mp hd]
      decide
    · refine ⟨by simpa using hbreaks, fun d hd => ?_⟩
      rw [List.eq_of_mem_replicate hd]
      decide
  · rw [if_neg hleading]
    exact ⟨h.blanks (by simpa using hleading), fun d hd => isBlank_of_isSpaceOrTab (h.space d hd)⟩

theorem joined_skipBlanks? (h : p.skipBlanks? least fuel = some p') (hp : p.Joined) :
    p'.Joined := by
  fun_induction PlainRead.skipBlanks? least fuel p with
  | case1 | case9 =>
    cases h
    exact hp
  | case2 fuel p c hblank hleading ih =>
    refine ih h ⟨fun hl => ?_, fun _ => by simp, fun d hd => ?_⟩
    · rw [Bool.not_eq_true'] at hleading
      exact absurd (hleading.symm.trans hl) (by decide)
    · rcases List.mem_cons.mp hd with rfl | hd
      · exact hblank
      · exact hp.space d hd
  | case3 fuel p c _ _ _ b hb _ ih =>
    have hleading := leading_skipBlanks? hb
    exact ih h ⟨fun hl => hp.broken (hleading ▸ hl), fun hl => hp.blanks (hleading ▸ hl), hp.space⟩
  | case4 | case5 => cases h
  | case6 fuel p c _ _ _ ih => exact ih h ⟨hp.broken, hp.blanks, hp.space⟩
  | case7 fuel p c _ hbreak hleading ih =>
    refine ih h ⟨fun _ => hp.broken hleading, fun hl => ?_, hp.space⟩
    exact absurd ((leading_skipBreak hbreak).symm.trans hl) (by decide)
  | case8 fuel p c _ hbreak _ ih =>
    refine ih h ⟨fun _ => rfl, fun hl => ?_, by simp⟩
    exact absurd ((leading_skipBreak hbreak).symm.trans hl) (by decide)

/-- White space is passed behind a word. -/
theorem joined_of_skipBlanks? (hpeek : (isSpaceOrTab p.cursor.peek || isBreak p.cursor.peek) = true)
    (hleading : p.cursor.leading = false) (hblanks : p.blanks = [])
    (h : p.skipBlanks? least (fuel + 1) = some p') : p'.Joined := by
  rw [PlainRead.skipBlanks?] at h
  by_cases hblank : isSpaceOrTab p.cursor.peek = true
  · rw [if_pos hblank, hleading, if_pos (by decide)] at h
    refine joined_skipBlanks? h ⟨fun hl => ?_, fun _ => by simp, fun d hd => ?_⟩
    · exact absurd (hleading.symm.trans hl) (by decide)
    · rw [hblanks] at hd
      rw [List.mem_singleton.mp hd]
      exact hblank
  · have hbreak : isBreak p.cursor.peek = true := by simpa [hblank] using hpeek
    rw [if_neg hblank, if_pos hbreak, hleading, if_neg (by decide)] at h
    refine joined_skipBlanks? h ⟨fun _ => rfl, fun hl => ?_, by simp⟩
    exact absurd ((leading_skipBreak hbreak).symm.trans hl) (by decide)

/-- The text stays as it is, and all white space is passed. -/
theorem text_skipBlanks? (h : p.skipBlanks? least fuel = some p') :
    p'.text = p.text ∧ p'.stop = p.stop := by
  fun_induction PlainRead.skipBlanks? least fuel p with
  | case1 | case9 =>
    cases h
    exact ⟨rfl, rfl⟩
  | case4 | case5 => cases h
  | case2 _ _ _ _ _ ih | case3 _ _ _ _ _ _ _ _ _ ih | case6 _ _ _ _ _ _ ih
  | case7 _ _ _ _ _ _ ih | case8 _ _ _ _ _ _ ih => exact ih h

theorem peek_skipBlanks? (h : p.skipBlanks? least fuel = some p')
    (hfuel : p.cursor.rest.length < fuel) :
    (isSpaceOrTab p'.cursor.peek || isBreak p'.cursor.peek) = false := by
  fun_induction PlainRead.skipBlanks? least fuel p with
  | case1 => simp at hfuel
  | case4 | case5 => cases h
  | case2 fuel p c hblank _ ih | case6 fuel p c hblank _ _ ih =>
    have hlt := length_skip_one_lt hblank
    exact ih h (by dsimp only; omega)
  | case3 fuel p c hblank _ _ b hb _ ih =>
    have hlt := length_skipBlanks?_lt hblank hb
    exact ih h (by dsimp only; omega)
  | case7 fuel p c _ hbreak _ ih | case8 fuel p c _ hbreak _ ih =>
    have hlt := length_skipBreak_lt hbreak
    exact ih h (by dsimp only; omega)
  | case9 fuel p c hblank hbreak =>
    cases h
    simp [c, hblank, hbreak]

/-! ### Further words -/

theorem index_le_skipBlanks? (h : p.skipBlanks? least fuel = some p') :
    p.cursor.mark.index ≤ p'.cursor.mark.index := (reaches_skipBlanks? h).index_le

theorem text_addWord_suffix (p : PlainRead) (word : List Char) :
    p.text <:+ (p.addWord word).text := by
  rw [addWord, ← List.append_assoc]
  exact List.suffix_append _ _

/-- What goes on with a scalar stands in front of its text, which is kept backwards, and ends
behind the place read up to. -/
theorem grows_run (h : p.run inFlow least fuel = some p') :
    p.text <:+ p'.text ∧ (p'.stop = p.stop ∨ p.cursor.mark.index < p'.stop.index) := by
  induction fuel generalizing p with
  | zero =>
    cases h
    exact ⟨List.suffix_rfl, .inl rfl⟩
  | succ fuel ih =>
    rw [PlainRead.run] at h
    extract_lets word q d at h
    rcases of_ite_eq h with ⟨-, h⟩ | h
    · cases h
      exact ⟨List.suffix_rfl, .inl rfl⟩
    rcases of_ite_eq h with ⟨-, h⟩ | h
    · cases h
    have hq : p.text <:+ q.text ∧ p.cursor.mark.index ≤ q.cursor.mark.index ∧
        (q.stop = p.stop ∨ p.cursor.mark.index < q.stop.index) := by
      unfold q
      split_ifs with hword
      · exact ⟨List.suffix_rfl, le_rfl, .inl rfl⟩
      · have hlength : 0 < word.length := by
          simpa [List.length_pos_iff, List.isEmpty_iff] using hword
        exact ⟨p.text_addWord_suffix word, Nat.le_add_right _ _,
          .inr (Nat.lt_add_of_pos_right hlength)⟩
    obtain ⟨hsuffix, hindex, hstop⟩ := hq
    rcases of_ite_eq h with ⟨-, h⟩ | h
    · rw [← Option.some.inj h]
      exact ⟨hsuffix, hstop⟩
    split at h
    next => cases h
    next p₁ hskip =>
      obtain ⟨htext₁, hstop₁⟩ := text_skipBlanks? hskip
      have hindex₁ := hindex.trans (index_le_skipBlanks? hskip)
      rw [← htext₁] at hsuffix
      rw [← hstop₁] at hstop
      rcases of_ite_eq h with ⟨-, h⟩ | h
      · cases h
        exact ⟨hsuffix, hstop⟩
      · obtain ⟨hmore, hend⟩ := ih h
        refine ⟨hsuffix.trans hmore, ?_⟩
        rcases hend with hend | hend
        · rwa [hend]
        · exact .inr (hindex₁.trans_lt hend)

/-- Nothing more belongs to a scalar: a document marker, a comment or no word is in front. -/
def Stops (inFlow : Bool) (p : PlainRead) : Prop :=
  (p.cursor.leading && p.cursor.atDocumentIndicator) = true ∨ p.cursor.peek = '#' ∨
    plainWord inFlow p.cursor.rest = []

theorem run_of_stops (hp : p.Stops inFlow)
    (hpeek : (isSpaceOrTab p.cursor.peek || isBreak p.cursor.peek) = false)
    (h : p.run inFlow least (fuel + 1) = some p') : p' = p := by
  rw [PlainRead.run] at h
  extract_lets word q d at h
  by_cases hend : (p.cursor.leading && p.cursor.atDocumentIndicator || p.cursor.peek = '#') = true
  · rw [if_pos hend] at h
    cases h
    rfl
  rw [if_neg hend] at h
  rw [Bool.or_eq_true, decide_eq_true_eq, not_or] at hend
  have hword : word = [] := (hp.resolve_left hend.1).resolve_left hend.2
  have hq : q = p := by
    unfold q
    rw [hword]
    rfl
  have hd : (!(isSpaceOrTab d || isBreak d)) = true := by
    unfold d
    rw [hq, hpeek]
    rfl
  rcases of_ite_eq h with ⟨-, h⟩ | h
  · cases h
  · rw [if_pos hd, hq] at h
    cases h
    rfl

/-- Words were added behind white space. -/
structure Extends (p p' : PlainRead) : Prop where
  text : ∃ more d, isBlank d = true ∧ p'.text = more ++ d :: p.text
  stop : p.cursor.mark.index < p'.stop.index

theorem extends_run (hp : p.Joined) (hgoes : ¬ p.Stops inFlow)
    (h : p.run inFlow least (fuel + 1) = some p') : p.Extends p' := by
  rw [Stops, not_or, not_or] at hgoes
  obtain ⟨hmark, hcomment, hword⟩ := hgoes
  rw [PlainRead.run] at h
  extract_lets word q d at h
  rw [if_neg (by simp [hmark, hcomment])] at h
  rcases of_ite_eq h with ⟨-, h⟩ | h
  · cases h
  have hq : q = p.addWord word := if_neg (by simpa using hword)
  have hlength : 0 < word.length := List.length_pos_iff.mpr hword
  have hindex : p.cursor.mark.index < q.cursor.mark.index := by
    rw [hq]
    exact Nat.lt_add_of_pos_right hlength
  have hstop : p.cursor.mark.index < q.stop.index := by
    rw [hq]
    exact Nat.lt_add_of_pos_right hlength
  -- The joint is white space and stands next to the text so far.
  have htext : ∃ more d, isBlank d = true ∧ q.text = more ++ d :: p.text := by
    obtain ⟨hne, hblank⟩ := hp.joint
    refine ⟨word.reverse ++ p.joint.dropLast, p.joint.getLast hne,
      hblank _ (List.getLast_mem hne), ?_⟩
    conv_lhs => rw [hq, addWord, ← List.dropLast_append_getLast hne]
    simp
  have hmore : ∀ {more₁ : List Char}, q.text <:+ more₁ →
      ∃ more d, isBlank d = true ∧ more₁ = more ++ d :: p.text := by
    rintro more₁ ⟨front, rfl⟩
    obtain ⟨more, d, hd, htext⟩ := htext
    exact ⟨front ++ more, d, hd, by rw [htext, List.append_assoc]⟩
  rcases of_ite_eq h with ⟨-, h⟩ | h
  · rw [← Option.some.inj h]
    exact ⟨htext, hstop⟩
  split at h
  next => cases h
  next p₁ hskip =>
    obtain ⟨htext₁, hstop₁⟩ := text_skipBlanks? hskip
    rcases of_ite_eq h with ⟨-, h⟩ | h
    · cases h
      exact ⟨hmore (htext₁ ▸ List.suffix_rfl), hstop₁ ▸ hstop⟩
    · obtain ⟨hsuffix, hend⟩ := grows_run h
      refine ⟨hmore (htext₁ ▸ hsuffix), ?_⟩
      rcases hend with hend | hend
      · rwa [hend, hstop₁]
      · exact (hindex.trans_le (index_le_skipBlanks? hskip)).trans hend

/-! ### The first word -/

/-- A scalar of which the first word is read. -/
def firstWord (inFlow : Bool) (c : Cursor) : PlainRead :=
  addWord { cursor := c, stop := c.mark } (plainWord inFlow c.rest)

theorem text_firstWord (inFlow : Bool) (c : Cursor) :
    (firstWord inFlow c).text = (plainWord inFlow c.rest).reverse := by
  cases hleading : c.leading <;> simp [firstWord, addWord, joint, hleading]

/-- Something goes on with the scalar read up to `p`: white space follows, and behind it stands a
word that neither is too far left nor looks like a document marker or a comment. -/
structure GoesOn (inFlow : Bool) (least : Int) (p : PlainRead) : Prop where
  white : (isSpaceOrTab p.cursor.peek || isBreak p.cursor.peek) = true
  word : ∃ p', p.skipBlanks? least (p.cursor.rest.length + 1) = some p' ∧
    (inFlow = true ∨ least ≤ p'.cursor.mark.column) ∧ ¬ p'.Stops inFlow

end PlainRead

/-- A plain scalar is its first word, unless something goes on with it. -/
theorem readPlain?_cases {inFlow : Bool} {least : Int} {c : Cursor} {p : PlainRead}
    (h : readPlain? inFlow least c = some p) (hmark : c.atDocumentIndicator = false)
    (hcomment : c.peek ≠ '#') (hword : plainWord inFlow c.rest ≠ []) :
    (¬ (PlainRead.firstWord inFlow c).GoesOn inFlow least ∧
      p.text = (PlainRead.firstWord inFlow c).text ∧
      p.stop = (PlainRead.firstWord inFlow c).stop) ∨
    ((PlainRead.firstWord inFlow c).GoesOn inFlow least ∧
      (PlainRead.firstWord inFlow c).Extends p) := by
  obtain ⟨fuel, hfuel⟩ : ∃ fuel, c.rest.length = fuel + 1 := by
    refine Nat.exists_eq_succ_of_ne_zero fun hzero => hword ?_
    rw [List.length_eq_zero_iff.mp hzero]
    rfl
  unfold readPlain? at h
  rcases of_ite_eq h with ⟨-, h⟩ | h
  · cases h
  split at h
  next p' hrun =>
    rcases of_ite_eq h with ⟨-, h⟩ | h
    · cases h
    cases h
    rw [PlainRead.run] at hrun
    extract_lets word q d at hrun
    rw [if_neg (by simp [hmark, hcomment])] at hrun
    rcases of_ite_eq hrun with ⟨-, hrun⟩ | hrun
    · cases hrun
    have hq : q = PlainRead.firstWord inFlow c := if_neg (by simpa [word] using hword)
    clear_value q
    subst hq
    by_cases hwhite : (isSpaceOrTab d || isBreak d) = true
    · rw [if_neg (by simp [hwhite])] at hrun
      split at hrun
      next => cases hrun
      next p₁ hskip =>
        have hjoined := PlainRead.joined_of_skipBlanks? hwhite rfl rfl hskip
        have hpeek := PlainRead.peek_skipBlanks? hskip (Nat.lt_succ_self _)
        obtain ⟨htext, hstop⟩ := PlainRead.text_skipBlanks? hskip
        have hgoes : (PlainRead.firstWord inFlow c).GoesOn inFlow least ↔
            (inFlow = true ∨ least ≤ p₁.cursor.mark.column) ∧ ¬ p₁.Stops inFlow := by
          refine ⟨?_, fun hword => ⟨hwhite, p₁, hskip, hword⟩⟩
          rintro ⟨-, p₂, hskip₂, hword⟩
          rwa [Option.some.inj (hskip.symm.trans hskip₂)]
        by_cases hleft : (!inFlow && (p₁.cursor.mark.column < least : Bool)) = true
        · rw [if_pos hleft] at hrun
          cases hrun
          refine .inl ⟨fun hword => ?_, htext, hstop⟩
          simp only [Bool.and_eq_true, Bool.not_eq_true', decide_eq_true_eq] at hleft
          rcases (hgoes.mp hword).1 with hflow | hcolumn
          · simp [hflow] at hleft
          · omega
        · rw [if_neg hleft, hfuel] at hrun
          by_cases hstops : p₁.Stops inFlow
          · obtain rfl := PlainRead.run_of_stops hstops hpeek hrun
            exact .inl ⟨fun hword => (hgoes.mp hword).2 hstops, htext, hstop⟩
          · obtain ⟨hmore, hend⟩ := PlainRead.extends_run hjoined hstops hrun
            refine .inr ⟨hgoes.mpr ⟨?_, hstops⟩, ⟨htext ▸ hmore, ?_⟩⟩
            · by_cases hflow : inFlow = true
              · exact .inl hflow
              · refine .inr ?_
                simpa [hflow] using hleft
            · exact (PlainRead.index_le_skipBlanks? hskip).trans_lt hend
    · rw [if_pos (by simpa using hwhite)] at hrun
      cases hrun
      exact .inl ⟨fun hgoes => hwhite hgoes.white, rfl, rfl⟩
  next => cases h

theorem plainWord_prefix (inFlow : Bool) (rest : List Char) : plainWord inFlow rest <+: rest := by
  induction rest with
  | nil => exact List.prefix_rfl
  | cons d rest ih =>
    rw [plainWord]
    split_ifs
    · exact List.nil_prefix
    · exact List.cons_prefix_cons.mpr ⟨rfl, ih⟩

/-- The text of a plain scalar is a word without white space exactly if this is its first word and
nothing goes on with it. -/
theorem plainText_eq_iff {inFlow : Bool} {least : Int} {c : Cursor} {p : PlainRead}
    (h : readPlain? inFlow least c = some p) (hmark : c.atDocumentIndicator = false)
    (hcomment : c.peek ≠ '#') (hne : plainWord inFlow c.rest ≠ []) {word : List Char}
    (hword : ∀ d ∈ word, isBlank d = false) : p.text.reverse = word ↔
      plainWord inFlow c.rest = word ∧ ¬ (PlainRead.firstWord inFlow c).GoesOn inFlow least := by
  have hfirst := PlainRead.text_firstWord inFlow c
  rcases readPlain?_cases h hmark hcomment hne with
    ⟨hgoes, htext, -⟩ | ⟨hgoes, ⟨more, d, hd, htext⟩, -⟩
  · rw [htext, hfirst, List.reverse_reverse]
    exact ⟨fun heq => ⟨heq, hgoes⟩, And.left⟩
  · refine ⟨fun heq => ?_, fun hand => absurd hgoes hand.2⟩
    have hmem : d ∈ word := by
      rw [← heq, htext]
      simp
    exact absurd (hd.symm.trans (hword d hmem)) (by decide)

/-- The same holds of the source that a plain scalar covers. -/
theorem plainSource_eq_iff {inFlow : Bool} {least : Int} {c : Cursor} {p : PlainRead}
    (h : readPlain? inFlow least c = some p) (hmark : c.atDocumentIndicator = false)
    (hcomment : c.peek ≠ '#') (hne : plainWord inFlow c.rest ≠ []) {word : List Char}
    (hword : ∀ d ∈ word, isBlank d = false) :
    c.rest.take (p.stop.index - c.mark.index) = word ↔
      plainWord inFlow c.rest = word ∧ ¬ (PlainRead.firstWord inFlow c).GoesOn inFlow least := by
  have hprefix := plainWord_prefix inFlow c.rest
  have hstop : (PlainRead.firstWord inFlow c).stop.index =
      c.mark.index + (plainWord inFlow c.rest).length := rfl
  rcases readPlain?_cases h hmark hcomment hne with ⟨hgoes, -, hend⟩ | ⟨hgoes, hend⟩
  · rw [hend, hstop, Nat.add_sub_cancel_left, ← List.prefix_iff_eq_take.mp hprefix]
    exact ⟨fun heq => ⟨heq, hgoes⟩, And.left⟩
  · refine ⟨fun heq => ?_, fun hand => absurd hgoes hand.2⟩
    obtain ⟨rest, hrest⟩ := hprefix
    have hlt : c.mark.index + (plainWord inFlow c.rest).length < p.stop.index := hend.stop
    -- The white space behind the first word is covered too.
    have hwhite : isBlank (rest.headD '\x00') = true := by
      have hpeek : (PlainRead.firstWord inFlow c).cursor.peek = rest.headD '\x00' := by
        have hdrop := congrArg (List.drop (plainWord inFlow c.rest).length) hrest
        rw [List.drop_left] at hdrop
        exact congrArg (List.headD · '\x00') hdrop.symm
      have hgap := hgoes.white
      rw [hpeek, Bool.or_eq_true] at hgap
      exact hgap.elim isBlank_of_isSpaceOrTab isBlank_of_isBreak
    cases rest with
    | nil => exact absurd hwhite (by decide)
    | cons d rest =>
      have hmem : d ∈ word := by
        obtain ⟨n, hn⟩ : ∃ n, p.stop.index - c.mark.index =
            (plainWord inFlow c.rest).length + (n + 1) :=
          ⟨p.stop.index - c.mark.index - (plainWord inFlow c.rest).length - 1, by omega⟩
        have htake := congrArg (List.take ((plainWord inFlow c.rest).length + (n + 1))) hrest
        rw [List.take_length_add_append] at htake
        rw [← heq, hn, ← htake]
        simp
      exact absurd (hwhite.symm.trans (hword d hmem)) (by decide)

end PipelineScripts.Yaml
