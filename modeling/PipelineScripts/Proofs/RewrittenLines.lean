import PipelineScripts.Proofs.HeaderLines
import PipelineScripts.Proofs.InputTokens
import PipelineScripts.Proofs.SourceLines

/-!
# Lines of a rewritten script

Rewriting loses the line breaks inside tokens and no others. Where every token stands on one line,
the lines of a script are rewritten one by one, each in the state that the quote scanner has at its
start, and a finding about one is reported at the line of the pipeline file that it comes from.
-/
namespace PipelineScripts.Text

/-- The number of line breaks in a text. -/
def lineBreaks (s : List Char) : Nat := s.count '\n'

@[simp] theorem lineBreaks_append (s t : List Char) :
    lineBreaks (s ++ t) = lineBreaks s + lineBreaks t := List.count_append

/-- Puts a text in front of the first line. -/
def appendFirst (u : List Char) : List (List Char) → List (List Char)
  | [] => [u]
  | l :: ls => (u ++ l) :: ls

/-- A text without a line feed of which no return makes a break with what follows. -/
def StaysOpen (u s : List Char) : Prop :=
  '\n' ∉ u ∧ (u.getLast? ≠ some '\r' ∨ s.head? ≠ some '\n')

/-- What has no break of its own, and makes none, stands in front of the first line behind it. -/
theorem lines_append_eq {u s : List Char} (hne : u ≠ []) (h : StaysOpen u s) :
    lines (u ++ s) = appendFirst u (lines s) := by
  obtain ⟨hline, hreturn⟩ := h
  induction u with
  | nil => exact absurd rfl hne
  | cons c u ih =>
    have hc : c ≠ '\n' := fun h => hline (by simp [h])
    have hcons : lines (c :: (u ++ s)) = consFirst c (lines (u ++ s)) := by
      refine lines.eq_4 c (u ++ s) hc ?_
      rintro rest rfl heq
      cases u with
      | nil =>
        rw [List.nil_append] at heq
        simp [heq] at hreturn
      | cons d u =>
        obtain ⟨rfl, -⟩ := List.cons.inj heq
        simp at hline
    cases u with
    | nil =>
      rw [List.cons_append, hcons, List.nil_append]
      cases lines s <;> rfl
    | cons d u =>
      have hrest := ih (List.cons_ne_nil d u) (fun h => hline (List.mem_cons_of_mem c h))
        (by simpa using hreturn)
      rw [List.cons_append, hcons, hrest]
      cases lines s <;> rfl

/-- A return in front of a line feed is part of the break. -/
theorem lines_return_cons {s : List Char} (h : s.head? = some '\n') :
    lines ('\r' :: s) = lines s ∧ ∃ ls, lines s = [] :: ls := by
  obtain ⟨r, rfl⟩ := List.head?_eq_some_iff.mp h
  exact ⟨rfl, lines r, rfl⟩

/-- The first line is what a text starts with. -/
theorem prefix_of_lines_eq_cons {s l : List Char} {ls : List (List Char)} (h : lines s = l :: ls) :
    l <+: s := by
  fun_induction lines s generalizing l ls with
  | case1 => cases h
  | case2 r ih | case3 r ih =>
    cases h
    exact List.nil_prefix
  | case4 c r _ _ ih =>
    cases hlines : lines r with
    | nil =>
      rw [hlines] at h
      cases h
      exact ⟨r, rfl⟩
    | cons m ms =>
      rw [hlines] at h
      cases h
      exact List.prefix_cons_inj c |>.mpr (ih hlines)

end PipelineScripts.Text

namespace PipelineScripts.Script

open Text

/-! ### Breaks lost -/

/-- The line breaks that rewriting loses with a piece. -/
def Piece.lostBreaks : Piece → Nat
  | char _ => 0
  | token w => lineBreaks w.text

/-- The line breaks that rewriting loses with some pieces. -/
def lostBreaks : List Piece → Nat
  | [] => 0
  | p :: ps => p.lostBreaks + lostBreaks ps

/-- Every token stands on one line. -/
def TokensOnOneLine (ps : List Piece) : Prop := ∀ w, .token w ∈ ps → '\n' ∉ w.text

/-- A replacement has no line feed and no return. -/
theorem WrittenToken.unbroken_replacement (w : WrittenToken) (q : QuoteState) :
    Unbroken (w.token.replacement q) := by
  constructor <;> intro hmem <;> rcases w.mem_replacement hmem with hname | hmem
  · exact absurd hname (by decide)
  · exact absurd hmem (by decide)
  · exact absurd hname (by decide)
  · exact absurd hmem (by decide)

theorem Piece.lineBreaks_rewritten_add (p : Piece) (q : QuoteState) :
    lineBreaks (p.rewritten q) + p.lostBreaks = lineBreaks p.text := by
  cases p with
  | char c => rfl
  | token w =>
    have hnone : lineBreaks (w.token.replacement q) = 0 :=
      List.count_eq_zero_of_not_mem (w.unbroken_replacement q).newline
    simp [rewritten, lostBreaks, text, hnone]

/-- Rewriting loses the line breaks inside tokens and keeps all others. -/
theorem lineBreaks_rewritten_add (q : QuoteState) (ps : List Piece) :
    lineBreaks (rewritten q ps) + lostBreaks ps = lineBreaks (source ps) := by
  induction ps generalizing q with
  | nil => rfl
  | cons p ps ih =>
    have hpiece := p.lineBreaks_rewritten_add q
    have hrest := ih (q.run p.text)
    simp only [rewritten, source_cons, lineBreaks_append, lostBreaks]
    omega

theorem Piece.lostBreaks_eq_zero_iff {p : Piece} :
    p.lostBreaks = 0 ↔ ∀ w, p = .token w → '\n' ∉ w.text := by
  cases p with
  | char c => exact iff_of_true rfl fun w hw => by cases hw
  | token w =>
    refine List.count_eq_zero.trans ⟨fun h v hv => ?_, fun h => h w rfl⟩
    cases hv
    exact h

theorem lostBreaks_eq_zero_iff {ps : List Piece} : lostBreaks ps = 0 ↔ TokensOnOneLine ps := by
  induction ps with
  | nil => exact iff_of_true rfl fun w hw => by cases hw
  | cons p ps ih =>
    rw [lostBreaks, Nat.add_eq_zero_iff, ih, p.lostBreaks_eq_zero_iff]
    constructor
    · rintro ⟨hfirst, hrest⟩ w hw
      rcases List.mem_cons.mp hw with hw | hw
      · exact hfirst w hw.symm
      · exact hrest w hw
    · intro h
      exact ⟨fun w hw => h w (by simp [hw]), fun w hw => h w (List.mem_cons_of_mem p hw)⟩

/-- As many line breaks as before, and every replacement on the line on which its token starts. -/
def KeepsLines (ps : List Piece) : Prop :=
  lineBreaks (rewritten {} ps) = lineBreaks (source ps) ∧
    ∀ before w after, ps = before ++ .token w :: after →
      lineBreaks (rewritten {} before) = lineBreaks (source before)

theorem TokensOnOneLine.of_append {before after : List Piece}
    (h : TokensOnOneLine (before ++ after)) : TokensOnOneLine before :=
  fun w hw => h w (List.mem_append_left after hw)

theorem keepsLines_iff {ps : List Piece} : KeepsLines ps ↔ TokensOnOneLine ps := by
  have hkeep : ∀ {qs}, TokensOnOneLine qs →
      lineBreaks (rewritten {} qs) = lineBreaks (source qs) := by
    intro qs hqs
    rw [← lineBreaks_rewritten_add {} qs, lostBreaks_eq_zero_iff.mpr hqs, Nat.add_zero]
  constructor
  · rintro ⟨htotal, -⟩
    have hlost := lineBreaks_rewritten_add {} ps
    exact lostBreaks_eq_zero_iff.mp (by omega)
  · intro h
    refine ⟨hkeep h, ?_⟩
    rintro before w after rfl
    exact hkeep h.of_append

/-! ### Lines rewritten one by one -/

/-- The state of the quote scanner behind a line that is ended. -/
def QuoteState.endLine (q : QuoteState) (line : List Char) : QuoteState := (q.run line).step '\n'

/-- A return in front of a line feed changes nothing for the scanner. -/
theorem QuoteState.step_return_step (q : QuoteState) :
    (q.step '\r').step '\n' = q.step '\n' := by
  obtain ⟨quoting, afterBlank⟩ := q
  cases quoting <;> cases afterBlank <;> decide

/-- Rewrites lines one by one. -/
def rewriteLines (q : QuoteState) : List (List Char) → List (List Char)
  | [] => []
  | l :: ls => replaceFrom q 0 l :: rewriteLines (q.endLine l) ls

/-- A line is rewritten in the state in which the lines before it leave the scanner. -/
theorem getElem?_rewriteLines (q : QuoteState) (ls : List (List Char)) (k : Nat) :
    (rewriteLines q ls)[k]? =
      ls[k]?.map (replaceFrom ((ls.take k).foldl QuoteState.endLine q) 0) := by
  induction ls generalizing q k with
  | nil => rfl
  | cons l ls ih =>
    cases k with
    | zero => rfl
    | succ k => exact ih _ k

/-- Text without a break is rewritten with the line that it is in front of. -/
theorem lines_append_of_replaceFrom {q : QuoteState} {u r s t : List Char}
    (hu : u ≠ [] ∧ StaysOpen u s) (hr : r ≠ [] ∧ StaysOpen r t)
    (hrest : lines t = rewriteLines (q.run u) (lines s))
    (hfirst : replaceFrom q 0 (u ++ (lines s).headD []) =
      r ++ replaceFrom (q.run u) 0 ((lines s).headD [])) :
    lines (r ++ t) = rewriteLines q (lines (u ++ s)) := by
  rw [lines_append_eq hr.1 hr.2, lines_append_eq hu.1 hu.2, hrest]
  cases hlines : lines s with
  | nil =>
    rw [hlines] at hfirst
    simpa [appendFirst, rewriteLines, replaceFrom] using hfirst.symm
  | cons l ls =>
    rw [hlines] at hfirst
    simp only [List.headD_cons] at hfirst
    simp only [appendFirst, rewriteLines, hfirst, QuoteState.endLine, QuoteState.run_append]

/-- Rewriting makes no line feed at the front, and loses none. -/
theorem Reads.head?_rewritten {s : List Char} {ps : List Piece} (h : Reads s ps) (q : QuoteState) :
    (rewritten q ps).head? = some '\n' ↔ s.head? = some '\n' := by
  cases h with
  | nil => exact Iff.rfl
  | char _ _ => exact Iff.rfl
  | token w _ =>
    obtain ⟨c, r, hreplacement, hc⟩ := w.exists_replacement q
    have hc : c ≠ '\n' := by
      rcases hc with ⟨-, hname⟩ | rfl
      · rintro rfl
        exact absurd hname (by decide)
      · decide
    simp [rewritten, Piece.rewritten, hreplacement, hc, WrittenToken.text, openBrackets]

/-- A line is rewritten without what follows it. -/
theorem replaceFrom_char {c : Char} {s l : List Char} (hnone : inputToken? (c :: s) = none)
    (hl : l <+: s) (q : QuoteState) :
    replaceFrom q 0 (c :: l) = c :: replaceFrom (q.step c) 0 l := by
  have hline : inputToken? (c :: l) = none := by
    obtain ⟨rest, rfl⟩ := hl
    by_contra hsome
    obtain ⟨t, ht⟩ := Option.ne_none_iff_exists'.mp hsome
    have happend := inputToken?_append ht rest
    rw [List.cons_append, hnone] at happend
    cases happend
  rw [replaceFrom, hline]

theorem prefix_headD_lines (s : List Char) : (lines s).headD [] <+: s := by
  cases h : lines s with
  | nil => exact List.nil_prefix
  | cons l ls => exact prefix_of_lines_eq_cons h

/-- Where every token stands on one line, the lines are rewritten one by one. -/
theorem Reads.lines_rewritten {s : List Char} {ps : List Piece} (h : Reads s ps)
    (hline : TokensOnOneLine ps) (q : QuoteState) :
    lines (rewritten q ps) = rewriteLines q (lines s) := by
  induction h generalizing q with
  | nil => rfl
  | @char c s ps hnone hps ih =>
    have hrest := ih (fun w hw => hline w (List.mem_cons_of_mem _ hw)) (q.step c)
    have hhead := hps.head?_rewritten (q.step c)
    change lines (c :: rewritten (q.step c) ps) = _
    by_cases hfeed : c = '\n'
    · subst hfeed
      exact congrArg ([] :: ·) hrest
    by_cases hbreak : c = '\r' ∧ s.head? = some '\n'
    · obtain ⟨rfl, hs⟩ := hbreak
      obtain ⟨hlines, ls, hls⟩ := lines_return_cons hs
      rw [(lines_return_cons (hhead.mpr hs)).1, hrest, hlines, hls]
      simp only [rewriteLines, replaceFrom, QuoteState.endLine, QuoteState.run_nil,
        QuoteState.step_return_step]
    · have hopen : ∀ {t : List Char}, (t.head? = some '\n' ↔ s.head? = some '\n') →
          StaysOpen [c] t := by
        intro t ht
        refine ⟨by simpa using Ne.symm hfeed, ?_⟩
        by_cases hreturn : c = '\r'
        · exact .inr fun h => hbreak ⟨hreturn, ht.mp h⟩
        · exact .inl (by simpa using hreturn)
      exact lines_append_of_replaceFrom (u := [c]) (r := [c]) ⟨List.cons_ne_nil c [], hopen Iff.rfl⟩
        ⟨List.cons_ne_nil c [], hopen hhead⟩ hrest
        (replaceFrom_char hnone (prefix_headD_lines s) q)
  | @token w s ps hps ih =>
    have hrest := ih (fun v hv => hline v (List.mem_cons_of_mem _ hv)) (q.run w.text)
    have hfeed : '\n' ∉ w.text := hline w List.mem_cons_self
    have hne : w.token.replacement q ≠ [] := by
      obtain ⟨c, r, heq, -⟩ := w.exists_replacement q
      simp [heq]
    have hbracket : w.text.getLast? ≠ some '\r' := by
      simp [WrittenToken.text, closeBrackets]
    have hunbroken := w.unbroken_replacement q
    have hreturn : (w.token.replacement q).getLast? ≠ some '\r' := fun hlast =>
      hunbroken.return_ (List.mem_of_getLast? hlast)
    exact lines_append_of_replaceFrom ⟨w.text_ne_nil, hfeed, .inl hbracket⟩
      ⟨hne, hunbroken.newline, .inl hreturn⟩ hrest (replaceFrom_text_append q w _)

/-- Each line of a script is rewritten in the state in which the lines before it leave the
scanner. -/
theorem Reads.getElem?_lines {s : List Char} {ps : List Piece} (h : Reads s ps)
    (hline : TokensOnOneLine ps) (k : Nat) : (lines (replaceInputs s))[k]? =
      (lines s)[k]?.map (replaceFrom (((lines s).take k).foldl QuoteState.endLine {}) 0) := by
  rw [replaceInputs, h.replaceFrom_eq, h.lines_rewritten hline, getElem?_rewriteLines]

end PipelineScripts.Script

namespace PipelineScripts.Check

open Script Text

/-- Line breaks are kept, and replacements stand on the lines of their tokens, just if every token
stands on one line. Then each line is rewritten in its place, and a finding about it is reported
with the rewritten line at the place of the line in the pipeline file. -/
theorem rewritten_lines_stay_iff (s : List Char) : ∃ ps, Reads s ps ∧
    replaceInputs s = rewritten {} ps ∧ (KeepsLines ps ↔ TokensOnOneLine ps) ∧
    (TokensOnOneLine ps → ∀ k,
      let line := (lines s)[k]?.map
        (replaceFrom (((lines s).take k).foldl QuoteState.endLine {}) 0)
      (lines (replaceInputs s))[k]? = line ∧
      ∀ (map : BlockMap) (b : Block) (finding : Finding), map.lookup finding.file = some b →
        b.script.toList = replaceInputs s → finding.reason ∉ b.disabledRules →
        finding.line = b.headerLines + 1 + k → b.startLine + finding.line < wordSize →
        ∃ report : Report,
          (∀ before after, remap (before ++ finding :: after) map =
            remap before map ++ report :: remap after map) ∧
          report.line = b.startLine + k ∧ report.sourceLine = line.map String.ofList) := by
  obtain ⟨ps, hps⟩ := exists_reads s
  refine ⟨ps, hps, hps.replaceFrom_eq {}, keepsLines_iff, fun hline k => ?_⟩
  have hget := hps.getElem?_lines hline k
  refine ⟨hget, fun map b finding hfile hscript hrule hfinding hword => ?_⟩
  obtain ⟨report, hreport, hsource, hremap⟩ := remap_append_cons hfile hrule
  refine ⟨report, hremap, ?_, ?_⟩
  · rw [hreport, pipelineLine, Nat.mod_eq_of_lt hword]
    omega
  · have hk : finding.line - (1 + b.headerLines) = k := by omega
    rw [hsource, scriptLine?, if_neg (by omega), hk, hscript, hget]

/-- A script with a token that goes over two lines. -/
def brokenToken : String := "echo $[[\n inputs.a ]]\nls $b\n"

/-- The break in the token is lost, and the last line moves up. -/
theorem brokenToken_line_lost :
    replaceInputs brokenToken.toList = "echo $\x7bA\x7d\nls $b\n".toList ∧
      lineBreaks brokenToken.toList = 3 ∧ lineBreaks (replaceInputs brokenToken.toList) = 2 ∧
      (lines brokenToken.toList)[2]? = some "ls $b".toList ∧
      (lines (replaceInputs brokenToken.toList))[1]? = some "ls $b".toList := by
  decide +kernel

end PipelineScripts.Check
