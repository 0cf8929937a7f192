import PipelineScripts.Proofs.CursorMoves
import PipelineScripts.Proofs.Results
import PipelineScripts.Yaml.Scanner

/-!
# Scalars and tags are read in place

Each reader of a scalar, of a tag or of a directive leaves its cursor at a place that is reached
from where it started.
-/
namespace PipelineScripts.Yaml

open Cursor

/-! ### Plain scalars -/

theorem isLineEnd_peekAt_of_lt_plainWord {c : Cursor} {inFlow : Bool} {k : Nat}
    (hk : k < (plainWord inFlow c.rest).length) : isLineEnd (c.peekAt k) = false := by
  suffices h : ∀ (r : List Char) (k : Nat), k < (plainWord inFlow r).length →
      isLineEnd ((r.drop k).headD '\x00') = false from h c.rest k hk
  intro r
  induction r with
  | nil => intro k hk; simp [plainWord] at hk
  | cons d r ih =>
    intro k hk
    rw [plainWord] at hk
    split_ifs at hk with hgap
    · simp at hk
    · cases k with
      | zero =>
        simp only [Bool.or_eq_true, not_or, Bool.not_eq_true] at hgap
        exact isLineEnd_of_not_isGap hgap.1
      | succ k => exact ih k (Nat.lt_of_succ_lt_succ hk)

theorem PlainRead.reaches_addWord (p : PlainRead) (inFlow : Bool) :
    p.cursor.Reaches (p.addWord (plainWord inFlow p.cursor.rest)).cursor :=
  reaches_pass fun _ => isLineEnd_peekAt_of_lt_plainWord

theorem PlainRead.reaches_skipBlanks? {least : Int} {fuel : Nat} {p p' : PlainRead}
    (h : p.skipBlanks? least fuel = some p') : p.cursor.Reaches p'.cursor := by
  fun_induction PlainRead.skipBlanks? least fuel p with
  | case1 =>
    cases h
    exact .refl _
  | case2 fuel p c hblank _ ih | case6 fuel p c hblank _ _ ih =>
    exact (reaches_skip_one (isLineEnd_of_isSpaceOrTab hblank)).trans (ih h)
  | case3 fuel p c _ _ _ b hb _ ih => exact (Cursor.reaches_skipBlanks? hb).trans (ih h)
  | case4 | case5 => cases h
  | case7 fuel p c _ _ _ ih | case8 fuel p c _ _ _ ih => exact (reaches_skipBreak _).trans (ih h)
  | case9 =>
    cases h
    exact .refl _

theorem PlainRead.reaches_run {inFlow : Bool} {least : Int} {fuel : Nat} {p p' : PlainRead}
    (h : p.run inFlow least fuel = some p') : p.cursor.Reaches p'.cursor := by
  have hword : ∀ p : PlainRead, p.cursor.Reaches
      (if (plainWord inFlow p.cursor.rest).isEmpty then p
        else p.addWord (plainWord inFlow p.cursor.rest)).cursor := by
    intro p
    split_ifs
    · exact .refl _
    · exact p.reaches_addWord inFlow
  fun_induction PlainRead.run inFlow least fuel p with
  | case1 | case2 =>
    cases h
    exact .refl _
  | case3 | case5 => cases h
  | case4 =>
    rw [← Option.some.inj h]
    exact hword _
  | case6 _ _ _ _ _ _ _ _ _ _ hblanks =>
    rw [← Option.some.inj h]
    exact (hword _).trans (PlainRead.reaches_skipBlanks? hblanks)
  | case7 _ _ _ _ _ _ _ _ _ _ hblanks _ ih =>
    exact ((hword _).trans (PlainRead.reaches_skipBlanks? hblanks)).trans (ih h)

theorem reaches_readPlain? {inFlow : Bool} {least : Int} {c : Cursor} {p : PlainRead}
    (h : readPlain? inFlow least c = some p) : c.Reaches p.cursor := by
  unfold readPlain? at h
  split_ifs at h
  split at h
  next hrun =>
    split_ifs at h
    cases h
    exact PlainRead.reaches_run hrun
  next => cases h

/-- A plain scalar has text, so it does not start at the end. -/
theorem isEnd_of_readPlain? {inFlow : Bool} {least : Int} {c : Cursor} {p : PlainRead}
    (h : readPlain? inFlow least c = some p) : isEnd c.peek = false := by
  by_contra hend
  rw [Bool.not_eq_false, isEnd, decide_eq_true_eq] at hend
  have hword : plainWord inFlow c.rest = [] := by
    cases hrest : c.rest with
    | nil => rfl
    | cons d r =>
      rw [peek, hrest, List.headD_cons] at hend
      rw [plainWord, hend]
      rfl
  have hrun : PlainRead.run inFlow least (c.rest.length + 1) { cursor := c, stop := c.mark } =
      some { cursor := c, stop := c.mark } := by
    rw [PlainRead.run]
    simp [hword, hend, isSpaceOrTab, isBreak]
  simp [readPlain?, hrun] at h

/-! ### Quoted scalars -/

theorem isLineEnd_of_hexNumber? {digits : List Char} {n : Nat} (h : hexNumber? digits = some n)
    {d : Char} (hd : d ∈ digits) : isLineEnd d = false := by
  have hvalue : ∀ {d : Char}, (hexValue? d).isSome = true → isLineEnd d = false :=
    fun h => @isLineEnd_of_class (fun d => (hexValue? d).isSome) (by decide) (by decide)
      (by decide) _ h
  suffices hfold : ∀ (digits : List Char) (m n : Nat),
      digits.foldlM (fun n d => (hexValue? d).map (16 * n + ·)) m = some n →
        ∀ d ∈ digits, isLineEnd d = false from hfold digits 0 n h d hd
  intro digits
  induction digits with
  | nil => simp
  | cons x digits ih =>
    intro m n hfold d hd
    obtain ⟨m', hx, hrest⟩ := Option.bind_eq_some_iff.mp hfold
    obtain ⟨v, hv, -⟩ := Option.map_eq_some_iff.mp hx
    rcases List.mem_cons.mp hd with rfl | hd
    · exact hvalue (by rw [hv]; rfl)
    · exact ih _ _ hrest d hd

/-- An escape is written on one line. -/
theorem isLineEnd_of_escape? {s : List Char} {d : Char} {n : Nat} (h : escape? s = some (d, n))
    {k : Nat} (hk : k < n) : isLineEnd ((s.drop k).headD '\x00') = false := by
  have hhex : ∀ {c : Char} {r : List Char} {width : Nat}, isLineEnd c = false →
      hexEscape? width r = some (d, n) →
        isLineEnd (((c :: r).drop k).headD '\x00') = false := by
    intro c r width hc hescape
    unfold hexEscape? at hescape
    dsimp only at hescape
    split_ifs at hescape with hwidth
    · cases hescape
    obtain ⟨m, hm, hescape⟩ := Option.bind_eq_some_iff.mp hescape
    obtain ⟨x, -, hescape⟩ := Option.bind_eq_some_iff.mp hescape
    cases hescape
    rw [List.length_take, not_lt] at hwidth
    cases k with
    | zero => exact hc
    | succ k =>
      have hlt : k < r.length := by omega
      rw [List.drop_succ_cons, List.drop_eq_getElem_cons hlt, List.headD_cons]
      refine isLineEnd_of_hexNumber? hm (List.mem_iff_getElem.mpr ⟨k, ?_, List.getElem_take⟩)
      rw [List.length_take]
      omega
  have hone : ∀ {c : Char} {r : List Char}, isLineEnd c = false → n = 1 →
      isLineEnd (((c :: r).drop k).headD '\x00') = false := by
    intro c r hc hn
    rw [show k = 0 by omega]
    exact hc
  unfold escape? at h
  split at h
  next => cases h
  next c r =>
    split at h
    all_goals first
      | exact hhex (by decide) h
      | exact hone (by decide) (by cases h; rfl)
      | cases h

namespace QuotedRead

theorem reaches_readWord? {single escaped : Bool} {fuel : Nat} {q q' : QuotedRead}
    (h : readWord? single fuel q = some (q', escaped)) : q.cursor.Reaches q'.cursor := by
  fun_induction readWord? single fuel q with
  | case1 | case2 | case4 | case5 =>
    cases h
    exact .refl _
  | case3 fuel q c hgap _ hquote ih =>
    refine (reaches_pass fun k hk => ?_).trans (ih h)
    obtain rfl | rfl : k = 0 ∨ k = 1 := by omega
    · exact isLineEnd_of_not_isGap (Bool.eq_false_iff.mpr hgap)
    · rw [hquote]
      decide
  | case6 fuel q c hgap =>
    cases h
    exact (reaches_pass_one (isLineEnd_of_not_isGap (Bool.eq_false_iff.mpr hgap))).trans
      (reaches_skipBreak _)
  | case7 fuel q c hgap _ _ _ _ d n hescape ih =>
    refine (reaches_pass fun k hk => ?_).trans (ih h)
    cases k with
    | zero => exact isLineEnd_of_not_isGap (Bool.eq_false_iff.mpr hgap)
    | succ k =>
      have hend := isLineEnd_of_escape? hescape (Nat.lt_of_succ_lt_succ hk)
      rwa [List.drop_drop, Nat.add_comm] at hend
  | case8 => cases h
  | case9 fuel q c hgap _ _ _ ih =>
    exact (reaches_pass_one (isLineEnd_of_not_isGap (Bool.eq_false_iff.mpr hgap))).trans (ih h)

theorem reaches_readGap? {indent : Int} {blanks : List Char} {broken leading : Bool}
    {breaks fuel : Nat} {q q' : QuotedRead}
    (h : readGap? indent blanks broken breaks leading fuel q = some q') :
    q.cursor.Reaches q'.cursor := by
  fun_induction readGap? indent blanks broken breaks leading fuel q with
  | case1 =>
    cases h
    exact .refl _
  | case2 => cases h
  | case3 _ _ _ _ _ _ hblank _ ih | case4 _ _ _ _ _ _ _ hblank _ ih =>
    exact (reaches_skip_one (isLineEnd_of_isSpaceOrTab hblank)).trans (ih h)
  | case5 _ _ _ _ _ _ _ _ _ ih | case6 _ _ _ _ _ _ _ _ _ _ _ ih =>
    exact (reaches_skipBreak _).trans (ih h)
  | case7 =>
    cases h
    exact .refl _

theorem reaches_run {single : Bool} {indent : Int} {fuel : Nat} {q q' : QuotedRead}
    (h : run single indent fuel q = some q') :
    q.cursor.Reaches q'.cursor ∧ q'.cursor.peek = if single then '\'' else '"' := by
  fun_induction run single indent fuel q with
  | case1 | case2 | case3 | case4 | case5 | case7 => cases h
  | case6 _ _ _ _ _ _ _ hword hquote =>
    cases h
    exact ⟨reaches_readWord? hword, hquote⟩
  | case8 _ _ _ _ _ _ _ hword _ _ hgap ih =>
    obtain ⟨hreach, hquote⟩ := ih h
    exact ⟨((reaches_readWord? hword).trans (reaches_readGap? hgap)).trans hreach, hquote⟩

end QuotedRead

/-- A quoted scalar is read from its opening quote on. -/
theorem reaches_readQuoted? {single inFlow : Bool} {indent : Int} {c : Cursor} {q : QuotedRead}
    (hopen : isLineEnd c.peek = false) (h : readQuoted? single inFlow indent c = some q) :
    c.Reaches q.cursor := by
  obtain ⟨q', hrun, h⟩ := Option.bind_eq_some_iff.mp h
  obtain ⟨after, hafter, h⟩ := Option.bind_eq_some_iff.mp h
  split_ifs at h
  cases h
  obtain ⟨hreach, hquote⟩ := QuotedRead.reaches_run hrun
  have hclose : isLineEnd q'.cursor.peek = false := by
    rw [hquote]
    cases single <;> decide
  exact (((reaches_pass_one hopen).trans hreach).trans (reaches_pass_one hclose)).trans
    (reaches_skipBlanks? hafter)

/-! ### Block scalars -/

theorem isLineEnd_of_chomping? {d : Char} {chomping : Chomping}
    (h : BlockHeader.chomping? d = some chomping) : isLineEnd d = false := by
  unfold BlockHeader.chomping? at h
  split_ifs at h with hplus hminus
  · rw [hplus]
    decide
  · rw [hminus]
    decide

theorem BlockHeader.reaches_read? {c c' : Cursor} {header : BlockHeader}
    (h : read? c = some (header, c')) : c.Reaches c' := by
  unfold read? at h
  dsimp only at h
  split at h
  next hchomp =>
    have hfirst := reaches_pass_one (isLineEnd_of_chomping? hchomp)
    split_ifs at h with hdigit
    · cases h
      exact hfirst.trans (reaches_pass_one (isLineEnd_of_isDigit hdigit))
    · cases h
      exact hfirst
  next =>
    split_ifs at h with hdigit
    · have hfirst := reaches_pass_one (isLineEnd_of_isDigit hdigit)
      split at h
      next hchomp =>
        cases h
        exact hfirst.trans (reaches_pass_one (isLineEnd_of_chomping? hchomp))
      next =>
        cases h
        exact hfirst
    · cases h
      exact .refl c

/-- Spaces in front, a number of them at most. -/
theorem reaches_skip_spaces (c : Cursor) (n : Nat) :
    c.Reaches (c.skip ((c.rest.takeWhile (· == ' ')).take n).length) := by
  refine reaches_skip fun k hk => ?_
  rw [List.length_take] at hk
  have hlt : k < (c.rest.takeWhile (· == ' ')).length := by omega
  exact isLineEnd_of_beq_space (peekAt_of_lt_takeWhile hlt)

theorem reaches_skipBlockIndent {indent fuel breaks breaks' : Nat} {c c' : Cursor}
    (h : skipBlockIndent indent fuel c breaks = (c', breaks')) : c.Reaches c' := by
  fun_induction skipBlockIndent indent fuel c breaks with
  | case1 =>
    cases h
    exact .refl _
  | case2 fuel c breaks spaces after _ ih =>
    exact ((reaches_skip_spaces c _).trans (reaches_skipBreak _)).trans (ih h)
  | case3 fuel c breaks spaces after =>
    rw [← (Prod.mk.inj h).1]
    exact reaches_skip_spaces c _

theorem reaches_skipFirstIndent {fuel deepest deepest' breaks breaks' : Nat} {c c' : Cursor}
    (h : skipFirstIndent fuel c deepest breaks = (c', deepest', breaks')) : c.Reaches c' := by
  have hspaces : ∀ c : Cursor, c.Reaches (c.skipWhile (· == ' ')) :=
    fun c => reaches_skipWhile fun _ => isLineEnd_of_beq_space
  fun_induction skipFirstIndent fuel c deepest breaks with
  | case1 =>
    cases h
    exact .refl _
  | case2 fuel c _ breaks after _ _ ih =>
    exact ((hspaces c).trans (reaches_skipBreak _)).trans (ih h)
  | case3 fuel c _ breaks after =>
    rw [← (Prod.mk.inj h).1]
    exact hspaces c

theorem BlockBody.reaches_run {folded : Bool} {indent fuel : Nat} {b : BlockBody} :
    b.cursor.Reaches (run folded indent fuel b).cursor := by
  have hline : ∀ c : Cursor, c.Reaches (c.skip (c.rest.takeWhile (!isLineEnd ·)).length) :=
    fun c => reaches_skip_takeWhile fun d hd => by simpa using hd
  fun_induction run folded indent fuel b with
  | case1 | case2 => exact .refl _
  | case3 => exact hline _
  | case4 _ _ _ _ _ _ _ _ _ _ _ hskip ih =>
    exact (((hline _).trans (reaches_skipBreak _)).trans (reaches_skipBlockIndent hskip)).trans ih

/-- Where the body of a block scalar starts, below its header: the cursor, the indentation and the
number of blank lines before it. -/
inductive FirstLine (header : BlockHeader) (parent : Int) (below : Cursor) :
    Cursor → Nat → Nat → Prop
  | found {first : Cursor} {deepest breaks : Nat} (hindent : header.indent = 0)
      (hskip : skipFirstIndent (below.rest.length + 1) below 0 0 = (first, deepest, breaks)) :
      FirstLine header parent below first (max deepest (parent + 1).toNat) breaks
  | given {first : Cursor} {breaks : Nat} (hindent : header.indent ≠ 0)
      (hskip : skipBlockIndent (parent.toNat + header.indent) (below.rest.length + 1) below 0 =
        (first, breaks)) :
      FirstLine header parent below first (parent.toNat + header.indent) breaks

/-- How a block scalar is read: its header to the end of the line, the blank lines below it, and
the body unless the text ends there. -/
structure BlockStages (folded : Bool) (parent : Int) (c : Cursor) (b : BlockRead) where
  header : BlockHeader
  inner : Cursor
  after : Blanks
  first : Cursor
  indent : Nat
  breaks : Nat
  header_eq : BlockHeader.read? (c.pass 1) = some (header, inner)
  after_eq : inner.skipBlanks? = some after
  lineEnd : isLineEnd after.cursor.peek = true
  firstLine : FirstLine header parent
    (if isBreak after.cursor.peek then after.cursor.skipBreak else after.cursor) first indent breaks
  result : isEnd first.peek = true ∧
      b = ⟨first, emptyBlock header.chomping (first.mark.line = c.mark.line) breaks, c.mark⟩ ∨
    isEnd first.peek = false ∧ (first.mark.column < indent → (first.mark.column : Int) ≤ parent) ∧
      ∃ body, body =
          BlockBody.run folded indent (first.rest.length + 1) { cursor := first, breaks } ∧
        b = ⟨body.cursor, body.finish header.chomping indent, first.mark⟩

theorem exists_blockStages {folded : Bool} {parent : Int} {c : Cursor} {b : BlockRead}
    (h : readBlock? folded parent c = some b) : Nonempty (BlockStages folded parent c b) := by
  unfold readBlock? at h
  obtain ⟨⟨header, inner⟩, hheader, h⟩ := Option.bind_eq_some_iff.mp h
  obtain ⟨after, hafter, h⟩ := Option.bind_eq_some_iff.mp h
  dsimp only at h
  obtain ⟨hend, h⟩ := of_guard_eq_some h
  rw [Bool.not_eq_true', Bool.not_eq_false] at hend
  generalize hbelow : (if isBreak after.cursor.peek then after.cursor.skipBreak
    else after.cursor) = below at h
  obtain ⟨-, h⟩ := of_guard_eq_some h
  generalize hstart : (if header.indent = 0 then _ else _ : Cursor × Nat × Nat) = start at h
  obtain ⟨first, indent, breaks⟩ := start
  have hfirst : FirstLine header parent below first indent breaks := by
    split_ifs at hstart with hindent
    · cases hstart
      exact .found hindent rfl
    · cases hstart
      exact .given hindent rfl
  dsimp only at h
  split_ifs at h with hempty hleft
  · exact ⟨⟨header, inner, after, first, indent, breaks, hheader, hafter, hend,
      hbelow ▸ hfirst,
      .inl ⟨hempty, (Option.some.inj h).symm⟩⟩⟩
  · cases h
  · simp only [Bool.and_eq_true, decide_eq_true_eq, not_and] at hleft
    exact ⟨⟨header, inner, after, first, indent, breaks, hheader, hafter, hend,
      hbelow ▸ hfirst,
      .inr ⟨Bool.eq_false_iff.mpr hempty, fun hlt => Int.not_lt.mp (hleft hlt), _, rfl,
        (Option.some.inj h).symm⟩⟩⟩

theorem FirstLine.reaches {header : BlockHeader} {parent : Int} {below first : Cursor}
    {indent breaks : Nat} (h : FirstLine header parent below first indent breaks) :
    below.Reaches first := by
  cases h with
  | found _ hskip => exact reaches_skipFirstIndent hskip
  | given _ hskip => exact reaches_skipBlockIndent hskip

/-- What is read first of the body stands behind the indicator. -/
theorem BlockStages.reaches_first {folded : Bool} {parent : Int} {c : Cursor} {b : BlockRead}
    (s : BlockStages folded parent c b) (hindicator : isLineEnd c.peek = false) :
    c.Reaches s.first := by
  have hafter : c.Reaches s.after.cursor :=
    ((reaches_pass_one hindicator).trans (BlockHeader.reaches_read? s.header_eq)).trans
      (reaches_skipBlanks? s.after_eq)
  have hbelow : c.Reaches
      (if isBreak s.after.cursor.peek then s.after.cursor.skipBreak else s.after.cursor) := by
    split_ifs
    · exact hafter.trans (reaches_skipBreak _)
    · exact hafter
  exact hbelow.trans s.firstLine.reaches

/-- A block scalar is read from its indicator on. -/
theorem reaches_readBlock? {folded : Bool} {parent : Int} {c : Cursor} {b : BlockRead}
    (hindicator : isLineEnd c.peek = false) (h : readBlock? folded parent c = some b) :
    c.Reaches b.cursor := by
  obtain ⟨s⟩ := exists_blockStages h
  have hfirst := s.reaches_first hindicator
  obtain ⟨-, hb⟩ | ⟨-, -, body, hbody, hb⟩ := s.result
  · rw [hb]
    exact hfirst
  · rw [hb, hbody]
    exact hfirst.trans
      (@BlockBody.reaches_run folded s.indent _ ⟨s.first, [], false, s.breaks, false⟩)

/-! ### Tags and directives -/

/-- An escaped byte is `%` and two digits. -/
theorem reaches_pass_byte {c : Cursor} {n : Nat}
    (h : (if c.peek ≠ '%' then (none : Option Unit) >>= fun _ => hexNumber? [c.peekAt 1, c.peekAt 2]
      else hexNumber? [c.peekAt 1, c.peekAt 2]) = some n) : c.Reaches (c.pass 3) := by
  obtain ⟨hpercent, h⟩ := of_guard_eq_some h
  refine reaches_pass fun k hk => ?_
  obtain rfl | rfl | rfl : k = 0 ∨ k = 1 ∨ k = 2 := by omega
  · rw [peekAt_zero, not_not.mp hpercent]
    decide
  · exact isLineEnd_of_hexNumber? h (by simp)
  · exact isLineEnd_of_hexNumber? h (by simp)

theorem reaches_foldlM {α β : Type} {step : Cursor × β → α → Option (Cursor × β)}
    (hstep : ∀ x a y, step x a = some y → x.1.Reaches y.1) {l : List α} {x y : Cursor × β}
    (h : l.foldlM step x = some y) : x.1.Reaches y.1 := by
  induction l generalizing x with
  | nil =>
    cases h
    exact .refl _
  | cons a l ih =>
    obtain ⟨x', hx, h⟩ := Option.bind_eq_some_iff.mp h
    exact (hstep x a x' hx).trans (ih h)

theorem reaches_skipUriEscape? {c c' : Cursor} (h : skipUriEscape? c = some c') :
    c.Reaches c' := by
  unfold skipUriEscape? at h
  obtain ⟨first, hfirst, h⟩ := Option.bind_eq_some_iff.mp h
  dsimp only at h
  -- However many bytes the character has, they are read in the same way.
  split_ifs at h
  all_goals
    obtain ⟨width, -, h⟩ := Option.bind_eq_some_iff.mp h
    obtain ⟨x, hbytes, h⟩ := Option.bind_eq_some_iff.mp h
    obtain ⟨_, -, h⟩ := Option.bind_eq_some_iff.mp h
    cases h
    refine (reaches_pass_byte hfirst).trans (reaches_foldlM ?_ hbytes)
    intro y i z hstep
    obtain ⟨n, hbyte, hstep⟩ := Option.bind_eq_some_iff.mp hstep
    split_ifs at hstep
    cases hstep
    exact reaches_pass_byte hbyte

theorem reaches_skipUri? {p : Char → Bool} (hp : ∀ d, p d = true → isLineEnd d = false)
    {fuel : Nat} {c c' : Cursor} (h : skipUri? p fuel c = some c') : c.Reaches c' := by
  fun_induction skipUri? p fuel c with
  | case1 | case2 =>
    cases h
    exact .refl _
  | case3 _ _ _ _ _ hescape ih => exact (reaches_skipUriEscape? hescape).trans (ih h)
  | case4 => cases h
  | case5 _ _ hpeek _ ih => exact (reaches_pass_one (hp _ (by simpa using hpeek))).trans (ih h)

theorem reaches_readHandle? {c c' : Cursor} {handle : List Char}
    (h : readHandle? c = some (handle, c')) : c.Reaches c' := by
  have hbang : ∀ c : Cursor, c.peek = '!' → c.Reaches (c.pass 1) := by
    intro c hc
    refine reaches_pass_one ?_
    rw [hc]
    decide
  unfold readHandle? at h
  dsimp only at h
  split_ifs at h with hfirst hlast
  · have hword : c.Reaches ((c.pass 1).skip ((c.pass 1).rest.takeWhile isWordChar).length) :=
      (hbang c (not_not.mp hfirst)).trans (reaches_skip_takeWhile fun _ => isLineEnd_of_isWordChar)
    cases h
    exact hword.trans (hbang _ hlast)
  · cases h
    exact (hbang c (not_not.mp hfirst)).trans
      (reaches_skip_takeWhile fun _ => isLineEnd_of_isWordChar)

/-- A tag is read from its exclamation mark on. -/
theorem reaches_readTag? {inFlow : Bool} {c c' : Cursor} {handle : List Char}
    (hbang : c.peek = '!') (h : readTag? inFlow c = some (handle, c')) : c.Reaches c' := by
  have hfinish : ∀ {c₁ : Cursor} {found : List Char},
      (if isGap c₁.peek || (inFlow && isFlowChar c₁.peek) then some (found, c₁) else none) =
        some (handle, c') → c₁ = c' := by
    intro c₁ found hread
    split_ifs at hread
    cases hread
    rfl
  unfold readTag? at h
  split_ifs at h with huri
  · obtain ⟨c₂, hskip, h⟩ := Option.bind_eq_some_iff.mp h
    split_ifs at h with hclose
    swap
    · cases h
    rw [← hfinish h]
    refine ((reaches_pass fun k hk => ?_).trans
      (reaches_skipUri? (fun _ => isLineEnd_of_isUriChar) hskip)).trans (reaches_pass_one ?_)
    · obtain rfl | rfl : k = 0 ∨ k = 1 := by omega
      · rw [peekAt_zero, hbang]
        decide
      · rw [huri]
        decide
    · rw [hclose]
      decide
  · obtain ⟨⟨handle₁, c₂⟩, hhandle, h⟩ := Option.bind_eq_some_iff.mp h
    obtain ⟨after, hskip, h⟩ := Option.bind_eq_some_iff.mp h
    have hreach := (reaches_readHandle? hhandle).trans
      (reaches_skipUri? (fun _ => isLineEnd_of_isTagChar) hskip)
    suffices heq : after = c' from heq ▸ hreach
    split_ifs at h
    · cases h
    · exact hfinish h
    · exact hfinish h
    · exact hfinish h

theorem reaches_skipVersionNumber? {c c' : Cursor} (h : skipVersionNumber? c = some c') :
    c.Reaches c' := by
  unfold skipVersionNumber? at h
  dsimp only at h
  split_ifs at h
  cases h
  exact reaches_pass_takeWhile fun _ => isLineEnd_of_isDigit

theorem reaches_skipVersion? {c c' : Cursor} (h : skipVersion? c = some c') : c.Reaches c' := by
  obtain ⟨c₁, hmajor, h⟩ := Option.bind_eq_some_iff.mp h
  split_ifs at h with hdot
  refine ((reaches_skipWhile fun _ => isLineEnd_of_isSpaceOrTab).trans
    (reaches_skipVersionNumber? hmajor)).trans
      ((reaches_pass_one ?_).trans (reaches_skipVersionNumber? h))
  rw [hdot]
  decide

theorem reaches_readTagDirective? {c c' : Cursor} {handle : List Char}
    (h : readTagDirective? c = some (handle, c')) : c.Reaches c' := by
  have hblanks : ∀ c : Cursor, c.Reaches (c.skipWhile isSpaceOrTab) :=
    fun c => reaches_skipWhile fun _ => isLineEnd_of_isSpaceOrTab
  obtain ⟨⟨found, c₁⟩, hhandle, h⟩ := Option.bind_eq_some_iff.mp h
  have hstart := ((hblanks c).trans (reaches_readHandle? hhandle)).trans (hblanks c₁)
  have hfinish : ∀ {c₂ : Cursor}, (skipUri? isUriChar (c₂.rest.length + 1) c₂).bind
      (fun c₃ => if isGap c₃.peek then some (found, c₃) else none) = some (handle, c') →
        c₂.Reaches c' := by
    intro c₂ hread
    obtain ⟨c₃, huri, hread⟩ := Option.bind_eq_some_iff.mp hread
    split_ifs at hread
    cases hread
    exact reaches_skipUri? (fun _ => isLineEnd_of_isUriChar) huri
  dsimp only at h
  obtain ⟨-, h⟩ := of_guard_eq_some h
  split_ifs at h with hbang htag
  · refine (hstart.trans (reaches_pass_one ?_)).trans (hfinish h)
    rw [hbang]
    decide
  · cases h
  · obtain ⟨c₂, hescape, h⟩ := Option.bind_eq_some_iff.mp h
    exact (hstart.trans (reaches_skipUriEscape? hescape)).trans (hfinish h)
  · exact (hstart.trans (reaches_pass_one (isLineEnd_of_isTagChar (by simpa using htag)))).trans
      (hfinish h)

end PipelineScripts.Yaml
