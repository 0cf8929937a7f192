import PipelineScripts.Proofs.MaskedCursors
import PipelineScripts.Proofs.ScalarMoves

/-!
# Scalars and tags in front of a placeholder

What is read and ends in front of a `*` reads the same with a placeholder there.
-/
namespace PipelineScripts.Yaml

open Cursor

variable {n : Nat}

/-! ### Plain scalars -/

theorem plainWord_maskStar {inFlow : Bool} {l : List Char}
    (h : n < (l.drop (plainWord inFlow l).length).length) :
    plainWord inFlow (maskStar n l) = plainWord inFlow l := by
  induction l with
  | nil => rfl
  | cons d r ih =>
    have hnext : isPlainChar inFlow d ((maskStar n r).headD '\x00') =
        isPlainChar inFlow d (r.headD '\x00') :=
      headD_maskStar (g := isPlainChar inFlow d) rfl n r
    rw [plainWord] at h ⊢
    by_cases hstop : (isGap d || !isPlainChar inFlow d (r.headD '\x00')) = true
    · have hd : d ≠ '*' := by
        rintro rfl
        simp [isGap, isSpaceOrTab, isLineEnd, isBreak, isEnd, isPlainChar, isFlowChar] at hstop
      rw [if_pos hstop, maskStar, if_neg (by simp [hd]), plainWord, hnext, if_pos hstop]
    · rw [if_neg hstop, List.length_cons, List.drop_succ_cons] at h
      have hlt : n < r.length := h.trans_le (by rw [List.length_drop]; omega)
      rw [if_neg hstop, maskStar_cons_of_lt hlt, plainWord, hnext, if_neg hstop, ih h]

namespace PlainRead

def mask (n : Nat) (p : PlainRead) : PlainRead := { p with cursor := p.cursor.mask n }

variable {inFlow : Bool} {least : Int} {fuel : Nat} {p p' : PlainRead}

@[simp] theorem cursor_mask : (p.mask n).cursor = p.cursor.mask n := by rw [mask]

theorem skipBlanks?_mask (least : Int) (fuel : Nat) (p : PlainRead) :
    (p.mask n).skipBlanks? least fuel = (p.skipBlanks? least fuel).map (mask n) := by
  induction fuel generalizing p with
  | zero => rfl
  | succ fuel ih =>
    rw [PlainRead.skipBlanks?, PlainRead.skipBlanks?]
    simp only [apply_ite (Option.map (mask n)), mask, skip_mask, skipBreak_mask,
      Cursor.skipBlanks?_mask]
    refine ite_congr (by simp) (fun hblank => ite_congr (by simp) (fun _ => ?_) fun _ =>
      ite_congr (by simp) (fun _ => ?_) fun _ => ?_) fun _ => ite_congr (by simp) (fun _ =>
        ite_congr (by simp) (fun _ => ?_) fun _ => ?_) fun _ => rfl
    · have hpeek : (p.cursor.mask n).peek = p.cursor.peek := by
        refine peek_mask_of_ne ?_
        rintro heq
        rw [heq] at hblank
        cases hblank
      rw [hpeek]
      exact ih { p with cursor := p.cursor.skip 1, blanks := p.cursor.peek :: p.blanks }
    · cases p.cursor.skipBlanks? with
      | none => rfl
      | some b =>
        simp only [Option.map_some, Blanks.mask, isLineEnd_peek_mask]
        split_ifs
        · exact ih { p with cursor := b.cursor }
        · rfl
    · exact ih { p with cursor := p.cursor.skip 1 }
    · exact ih { p with cursor := p.cursor.skipBreak, breaks := p.breaks + 1 }
    · exact ih { p with cursor := p.cursor.skipBreak, blanks := [], broken := true }

theorem addWord_mask (p : PlainRead) (word : List Char) :
    (p.mask n).addWord word = (p.addWord word).mask n := by
  have hpass : (p.mask n).cursor.pass word.length = (p.cursor.pass word.length).mask n :=
    pass_mask _
  have hjoint : (p.mask n).joint = p.joint := rfl
  simp only [addWord, hpass, hjoint]
  rfl

/-- A scalar that ends in front of the `*` is read on in the same way. -/
theorem run_mask (h : p.run inFlow least fuel = some p') (hn : n < p'.cursor.rest.length) :
    (p.mask n).run inFlow least fuel = some (p'.mask n) := by
  induction fuel generalizing p with
  | zero =>
    cases h
    rfl
  | succ fuel ih =>
    have hend : ((p.mask n).cursor.leading && (p.mask n).cursor.atDocumentIndicator ||
        (p.mask n).cursor.peek = '#') = (p.cursor.leading && p.cursor.atDocumentIndicator ||
          p.cursor.peek = '#') := by simp
    have hdash : (inFlow && (p.mask n).cursor.peek = '-' &&
        isFlowChar ((p.mask n).cursor.peekAt 1)) =
          (inFlow && p.cursor.peek = '-' && isFlowChar (p.cursor.peekAt 1)) := by simp
    rw [PlainRead.run] at h ⊢
    rw [hend, hdash]
    split_ifs at h ⊢
    · cases h
      rfl
    extract_lets word q d at h
    have hrest : q.cursor.rest = p.cursor.rest.drop word.length := by
      unfold q
      split_ifs with hempty
      · rw [List.isEmpty_iff.mp hempty]
        rfl
      · rfl
    have hlength : n < q.cursor.rest.length := by
      rcases of_ite_eq h with ⟨-, h⟩ | h
      · rwa [Option.some.inj h]
      split at h
      next => cases h
      next p₁ hskip =>
        have hle := (PlainRead.reaches_skipBlanks? hskip).length_le
        rcases of_ite_eq h with ⟨-, h⟩ | h
        · cases h
          exact hn.trans_le hle
        · exact hn.trans_le ((PlainRead.reaches_run h).length_le.trans hle)
    have hword : plainWord inFlow (p.mask n).cursor.rest = word :=
      plainWord_maskStar (hrest ▸ hlength)
    have hq : (if word.isEmpty then p.mask n else (p.mask n).addWord word) = q.mask n := by
      unfold q
      split_ifs
      · rfl
      · exact addWord_mask p word
    simp only [hword]
    simp only [hq]
    simp only [cursor_mask, isSpaceOrTab_peek_mask, isBreak_peek_mask, length_mask,
      skipBlanks?_mask]
    by_cases hd : (!(isSpaceOrTab d || isBreak d)) = true
    · rw [if_pos hd] at h ⊢
      rw [Option.some.inj h]
    · rw [if_neg hd] at h ⊢
      cases hskip : PlainRead.skipBlanks? least (q.cursor.rest.length + 1) q with
      | none =>
        rw [hskip] at h
        cases h
      | some p₁ =>
        rw [hskip] at h
        dsimp only at h
        simp only [Option.map_some, cursor_mask, mark_mask]
        split_ifs at h ⊢
        · cases h
          rfl
        · exact ih h

end PlainRead

theorem readPlain?_mask {inFlow : Bool} {least : Int} {c : Cursor} {p : PlainRead}
    (h : readPlain? inFlow least c = some p) (hn : n < p.cursor.rest.length) :
    readPlain? inFlow least (c.mask n) = some (p.mask n) := by
  unfold readPlain? at h ⊢
  rw [mark_mask, length_mask]
  split_ifs at h ⊢
  split at h
  next p' hrun =>
    split_ifs at h with htext
    cases h
    have hmask : PlainRead.run inFlow least (c.rest.length + 1)
        { cursor := c.mask n, stop := c.mark } = some (p.mask n) := PlainRead.run_mask hrun hn
    rw [hmask]
    exact if_neg htext
  next => cases h

/-! ### Quoted scalars -/

theorem hexEscape?_maskStar {l : List Char} {width k : Nat} {d : Char}
    (h : hexEscape? width l = some (d, k)) (hn : n + k ≤ l.length) :
    hexEscape? width (maskStar n l) = some (d, k) := by
  have hk : k = width + 1 := by
    unfold hexEscape? at h
    dsimp only at h
    rcases of_ite_eq h with ⟨-, h⟩ | h
    · cases h
    obtain ⟨m, -, h⟩ := Option.bind_eq_some_iff.mp h
    obtain ⟨x, -, h⟩ := Option.bind_eq_some_iff.mp h
    cases h
    rfl
  rw [hexEscape?, take_maskStar (by rw [List.length_drop]; omega)]
  exact h

/-- The character of an escape is no `*`. -/
theorem escape?_maskStar {l : List Char} {k : Nat} {d : Char} (h : escape? l = some (d, k))
    (hn : n < (l.drop k).length) : escape? (maskStar n l) = some (d, k) := by
  cases l with
  | nil => cases h
  | cons x r =>
    have hx : x ≠ '*' := by
      rintro rfl
      cases h
    have hlength : n + k ≤ r.length := by
      rw [List.length_drop, List.length_cons] at hn
      omega
    have hhex : ∀ {width : Nat}, hexEscape? width r = some (d, k) →
        hexEscape? width (maskStar n r) = some (d, k) := fun hescape =>
      hexEscape?_maskStar hescape hlength
    rw [maskStar, if_neg (by simp [hx])]
    simp only [escape?] at h ⊢
    split at h
    all_goals first | exact hhex h | exact h

namespace QuotedRead

def mask (n : Nat) (q : QuotedRead) : QuotedRead := { q with cursor := q.cursor.mask n }

variable {single escaped : Bool} {indent : Int} {fuel : Nat} {q q' : QuotedRead}

@[simp] theorem cursor_mask : (q.mask n).cursor = q.cursor.mask n := by rw [mask]

theorem readWord?_mask (h : readWord? single fuel q = some (q', escaped))
    (hn : n < q'.cursor.rest.length) :
    readWord? single fuel (q.mask n) = some (q'.mask n, escaped) := by
  induction fuel generalizing q with
  | zero =>
    cases h
    rfl
  | succ fuel ih =>
    have hpass : ∀ {k : Nat} {text : List Char},
        readWord? single fuel ⟨q.cursor.pass k, text⟩ = some (q', escaped) →
          readWord? single fuel ⟨(q.mask n).cursor.pass k, text⟩ = some (q'.mask n, escaped) := by
      intro k text hrest
      rw [cursor_mask, pass_mask]
      exact ih hrest
    have hstop : ∀ {b : Bool}, some (q, b) = some (q', escaped) →
        some (q.mask n, b) = some (q'.mask n, escaped) := by
      rintro b heq
      cases heq
      rfl
    rw [readWord?] at h ⊢
    refine ite_follows (by simp) h (fun _ => hstop) fun _ h => ?_
    refine ite_follows (by simp) h (fun _ h => ?_) fun _ h => ?_
    · exact ite_follows (by simp) h (fun _ => hpass) fun _ => hstop
    refine ite_follows (by simp) h (fun _ => hstop) fun _ h => ?_
    refine ite_follows (by simp) h (fun _ h => ?_) fun _ h => ?_
    · refine ite_follows (by simp) h (fun _ h => ?_) fun _ h => ?_
      · cases h
        simp [mask]
      · split at h
        next d k hread =>
          have hlength := (reaches_readWord? h).length_le
          have hrest : (q.mask n).cursor.rest.drop 1 = maskStar n (q.cursor.rest.drop 1) :=
            drop_maskStar n 1 _
          rw [hrest, escape?_maskStar hread]
          · exact hpass h
          · rw [List.drop_drop, Nat.add_comm]
            exact hn.trans_le hlength
        next => cases h
    · have hlength : q'.cursor.rest.length ≤ (q.cursor.rest.drop 1).length :=
        (reaches_readWord? h).length_le
      have hpeek : (q.mask n).cursor.peek = q.cursor.peek := by
        rw [List.length_drop] at hlength
        rw [cursor_mask]
        exact peek_mask_of_lt (by omega)
      rw [hpeek]
      exact hpass h

theorem readGap?_mask (indent : Int) (blanks : List Char) (broken : Bool) (breaks : Nat)
    (leading : Bool) (fuel : Nat) (q : QuotedRead) :
    readGap? indent blanks broken breaks leading fuel (q.mask n) =
      (readGap? indent blanks broken breaks leading fuel q).map (mask n) := by
  induction fuel generalizing q blanks broken breaks leading with
  | zero => rfl
  | succ fuel ih =>
    rw [readGap?, readGap?]
    simp only [apply_ite (Option.map (mask n)), mask, skip_mask, skipBreak_mask]
    refine ite_congr (by simp) (fun hblank => ite_congr rfl (fun _ => ?_) fun _ => ?_) fun _ =>
      ite_congr (by simp) (fun _ => ite_congr rfl (fun _ => ?_) fun _ => ?_) fun _ => rfl
    · refine ite_congr (by simp) (fun _ => rfl) fun _ => ?_
      exact ih blanks broken breaks leading { q with cursor := q.cursor.skip 1 }
    · have hpeek : (q.cursor.mask n).peek = q.cursor.peek := by
        refine peek_mask_of_ne ?_
        rintro heq
        rw [heq] at hblank
        cases hblank
      rw [hpeek]
      exact ih (q.cursor.peek :: blanks) broken breaks leading { q with cursor := q.cursor.skip 1 }
    · exact ih blanks broken (breaks + 1) leading { q with cursor := q.cursor.skipBreak }
    · exact ih [] true breaks true { q with cursor := q.cursor.skipBreak }

theorem run_mask (h : run single indent fuel q = some q') (hn : n < q'.cursor.rest.length) :
    run single indent fuel (q.mask n) = some (q'.mask n) := by
  induction fuel generalizing q with
  | zero => cases h
  | succ fuel ih =>
    rw [run] at h ⊢
    refine ite_follows (by simp) h (fun _ h => by cases h) fun _ h => ?_
    refine ite_follows (by simp) h (fun _ h => by cases h) fun _ h => ?_
    refine ite_follows (by simp) h (fun _ h => by cases h) fun _ h => ?_
    split at h
    next => cases h
    next q₁ escaped hword =>
      have hlength : n < q₁.cursor.rest.length := by
        rcases of_ite_eq h with ⟨-, h⟩ | h
        · cases h
          exact hn
        split at h
        next => cases h
        next q₂ hgap =>
          exact hn.trans_le ((reaches_run h).1.length_le.trans (reaches_readGap? hgap).length_le)
      simp only [cursor_mask, length_mask, readWord?_mask hword hlength]
      refine ite_follows (by cases single <;> simp) h (fun _ h => ?_) fun _ h => ?_
      · cases h
        rfl
      · rw [readGap?_mask]
        split at h
        next => cases h
        next q₂ hgap =>
          rw [hgap]
          exact ih h

end QuotedRead

theorem readQuoted?_mask {single inFlow : Bool} {indent : Int} {c : Cursor} {q : QuotedRead}
    (h : readQuoted? single inFlow indent c = some q) (hn : n < q.cursor.rest.length) :
    readQuoted? single inFlow indent (c.mask n) = some (q.mask n) := by
  obtain ⟨q₁, hrun, h⟩ := Option.bind_eq_some_iff.mp h
  obtain ⟨after, hafter, h⟩ := Option.bind_eq_some_iff.mp h
  have hrest : n < after.cursor.rest.length := by
    split_ifs at h
    cases h
    exact hn
  have hlength : n < q₁.cursor.rest.length := by
    have hle : after.cursor.rest.length ≤ (q₁.cursor.rest.drop 1).length :=
      (Cursor.reaches_skipBlanks? hafter).length_le
    rw [List.length_drop] at hle
    omega
  have hmask : (q₁.mask n).cursor.pass 1 = (q₁.cursor.pass 1).mask n := pass_mask 1
  refine Option.bind_eq_some_iff.mpr ⟨q₁.mask n, ?_, Option.bind_eq_some_iff.mpr
    ⟨after.mask n, ?_, ?_⟩⟩
  · rw [length_mask, pass_mask]
    exact QuotedRead.run_mask hrun hlength
  · rw [hmask, Cursor.skipBlanks?_mask, hafter]
    rfl
  · have hfollow : mayFollowQuoted inFlow (c.mark.line = after.cursor.mark.line)
        (after.cursor.mask n).peek =
          mayFollowQuoted inFlow (c.mark.line = after.cursor.mark.line) after.cursor.peek :=
      peek_mask rfl
    refine ite_follows ?_ h (fun _ h => ?_) fun _ h => by cases h
    · simp only [Blanks.mask, mark_mask, hfollow]
    · cases h
      rfl

/-! ### Block scalars -/

theorem BlockHeader.read?_mask (c : Cursor) :
    read? (c.mask n) = (read? c).map (Prod.map id (Cursor.mask n)) := by
  have hchomping : ∀ c : Cursor, chomping? (c.mask n).peek = chomping? c.peek :=
    fun _ => peek_mask rfl
  have hdigit : ∀ {c : Cursor}, c.peek.isDigit = true → (c.mask n).peek = c.peek := by
    refine fun {c} hc => peek_mask_of_ne ?_
    rintro heq
    rw [heq] at hc
    cases hc
  unfold read?
  simp only [hchomping, pass_mask]
  cases chomping? c.peek with
  | some chomping =>
    simp only [apply_ite (Option.map (Prod.map id (Cursor.mask n)))]
    refine ite_congr (by simp) (fun hc => ?_) fun _ => rfl
    rw [hdigit hc]
    exact ite_congr rfl (fun _ => rfl) fun _ => rfl
  | none =>
    simp only [apply_ite (Option.map (Prod.map id (Cursor.mask n)))]
    refine ite_congr (by simp) (fun hc => ?_) fun _ => rfl
    rw [hdigit hc]
    refine ite_congr rfl (fun _ => rfl) fun _ => ?_
    cases chomping? (c.pass 1).peek <;> rfl

theorem skipBlockIndent_mask (indent fuel : Nat) (c : Cursor) (breaks : Nat) :
    skipBlockIndent indent fuel (c.mask n) breaks =
      (skipBlockIndent indent fuel c breaks).map (Cursor.mask n) id := by
  induction fuel generalizing c breaks with
  | zero => rfl
  | succ fuel ih =>
    have hspaces : (c.mask n).rest.takeWhile (· == ' ') = c.rest.takeWhile (· == ' ') :=
      takeWhile_maskStar_of_not (by decide) (by decide) n c.rest
    rw [skipBlockIndent, skipBlockIndent]
    simp only [hspaces, mark_mask, skip_mask, apply_ite (Prod.map (Cursor.mask n) id)]
    refine ite_congr (by simp) (fun _ => ?_) fun _ => rfl
    rw [skipBreak_mask]
    exact ih _ _

theorem skipFirstIndent_mask (fuel : Nat) (c : Cursor) (deepest breaks : Nat) :
    skipFirstIndent fuel (c.mask n) deepest breaks =
      (skipFirstIndent fuel c deepest breaks).map (Cursor.mask n) id := by
  induction fuel generalizing c deepest breaks with
  | zero => rfl
  | succ fuel ih =>
    have hskip : (c.mask n).skipWhile (· == ' ') = (c.skipWhile (· == ' ')).mask n :=
      skipWhile_mask (by decide)
    rw [skipFirstIndent, skipFirstIndent]
    simp only [hskip, mark_mask, apply_ite (Prod.map (Cursor.mask n) id)]
    refine ite_congr (by simp) (fun _ => ?_) fun _ => rfl
    rw [skipBreak_mask]
    exact ih _ _ _

namespace BlockBody

def mask (n : Nat) (b : BlockBody) : BlockBody := { b with cursor := b.cursor.mask n }

variable {folded : Bool} {indent fuel : Nat} {b : BlockBody}

@[simp] theorem cursor_mask : (b.mask n).cursor = b.cursor.mask n := by rw [mask]

/-- A body that ends in front of the `*`. -/
theorem run_mask (hn : n < (b.run folded indent fuel).cursor.rest.length) :
    (b.mask n).run folded indent fuel = (b.run folded indent fuel).mask n := by
  induction fuel generalizing b with
  | zero => rfl
  | succ fuel ih =>
    rw [run] at hn ⊢
    rw [run]
    simp only [apply_ite (mask n), cursor_mask, mark_mask]
    refine ite_congr (by simp) (fun _ => rfl) fun hgoes => ?_
    rw [if_neg hgoes] at hn
    extract_lets startsBlank line text c at hn
    rcases hskip : skipBlockIndent indent (c.rest.length + 1) c.skipBreak 0 with ⟨next, breaks⟩
    have hline : n < (b.cursor.rest.drop line.length).length := by
      rw [hskip] at hn
      split_ifs at hn with hend
      · exact hn
      · exact hn.trans_le (reaches_run.length_le.trans
          ((reaches_skipBlockIndent hskip).length_le.trans (reaches_skipBreak c).length_le))
    have hsame : (b.cursor.mask n).rest.takeWhile (!isLineEnd ·) = line :=
      takeWhile_maskStar (by decide) hline
    have hc : (b.cursor.mask n).skip line.length = c.mask n := skip_mask _
    simp only [hsame, hc, isSpaceOrTab_peek_mask, isEnd_peek_mask, length_mask, skipBreak_mask,
      skipBlockIndent_mask, hskip]
    refine ite_congr rfl (fun _ => rfl) fun hmore => ?_
    rw [if_neg hmore, hskip] at hn
    exact ih hn

theorem finish_mask (chomping : Chomping) (indent : Nat) (b : BlockBody) :
    (b.mask n).finish chomping indent = b.finish chomping indent := by
  have hend : (isEnd (b.mask n).cursor.peek && max indent 1 ≤ (b.mask n).cursor.mark.column) =
      (isEnd b.cursor.peek && max indent 1 ≤ b.cursor.mark.column) := by simp
  unfold finish
  simp only [hend]
  rfl

end BlockBody

def BlockRead.mask (n : Nat) (b : BlockRead) : BlockRead := { b with cursor := b.cursor.mask n }

theorem readBlock?_mask {folded : Bool} {parent : Int} {c : Cursor} {b : BlockRead}
    (h : readBlock? folded parent c = some b) (hn : n < b.cursor.rest.length) :
    readBlock? folded parent (c.mask n) = some (b.mask n) := by
  unfold readBlock? at h ⊢
  obtain ⟨⟨header, inner⟩, hheader, h⟩ := Option.bind_eq_some_iff.mp h
  obtain ⟨after, hafter, h⟩ := Option.bind_eq_some_iff.mp h
  refine Option.bind_eq_some_iff.mpr ⟨(header, inner.mask n), ?_,
    Option.bind_eq_some_iff.mpr ⟨after.mask n, ?_, ?_⟩⟩
  · rw [pass_mask, BlockHeader.read?_mask, hheader]
    rfl
  · rw [Cursor.skipBlanks?_mask, hafter]
    rfl
  dsimp only at h ⊢
  refine guard_follows (by simp [Blanks.mask]) h fun h => ?_
  generalize hbelow : (if isBreak after.cursor.peek then after.cursor.skipBreak
    else after.cursor) = below at h
  have hmask : (if isBreak (after.mask n).cursor.peek then (after.mask n).cursor.skipBreak
      else (after.mask n).cursor) = below.mask n := by
    rw [← hbelow, apply_ite (Cursor.mask n)]
    simp [Blanks.mask]
  rw [hmask]
  refine guard_follows (by simp) h fun h => ?_
  generalize hstart : (if header.indent = 0 then _ else _ : Cursor × Nat × Nat) = start at h
  generalize hstart' : (if header.indent = 0 then _ else _ : Cursor × Nat × Nat) = start'
  obtain ⟨first, indent, breaks⟩ := start
  have hfirst : start' = (first.mask n, indent, breaks) := by
    rw [← hstart', length_mask, skipFirstIndent_mask, skipBlockIndent_mask]
    split_ifs at hstart ⊢
    · cases hstart
      rfl
    · cases hstart
      rfl
  rw [hfirst]
  dsimp only at h ⊢
  refine ite_follows (by simp) h (fun _ h => ?_) fun _ h => ?_
  · cases h
    rfl
  refine guard_follows (by simp) h fun h => ?_
  cases h
  have hbody : BlockBody.run folded indent (first.rest.length + 1)
      { cursor := first.mask n, breaks } = _ := BlockBody.run_mask hn
  rw [length_mask, hbody, BlockBody.finish_mask, mark_mask]
  rfl

end PipelineScripts.Yaml
