import PipelineScripts.Proofs.MaskedScalars

/-!
# Tags and directives in front of a placeholder

A placeholder may belong to the word of a tag's handle, where a `*` does not; but then the `*`
belongs to the tag too. A tag or a directive that ends in front of the `*` reads the same.
-/
namespace PipelineScripts.Yaml

open Cursor

variable {n : Nat}

/-! ### Escapes -/

theorem hexNumber?_mask (c : Cursor) : hexNumber? [(c.mask n).peekAt 1, (c.mask n).peekAt 2] =
    hexNumber? [c.peekAt 1, c.peekAt 2] := by
  have hvalue : ∀ k, hexValue? ((c.mask n).peekAt k) = hexValue? (c.peekAt k) :=
    peekAt_mask (by decide)
  simp only [hexNumber?, List.foldlM_cons, List.foldlM_nil, hvalue]

/-- The byte of one escape. -/
def uriByte? (c : Cursor) : Option Nat :=
  if c.peek ≠ '%' then (none : Option Unit) >>= fun _ => hexNumber? [c.peekAt 1, c.peekAt 2]
  else hexNumber? [c.peekAt 1, c.peekAt 2]

/-- How many bytes a character has whose first byte is known. -/
def uriWidth? (first : Nat) : Option Nat :=
  if first < 0x80 then some 1
  else if 0xC0 ≤ first && first < 0xE0 then some 2
  else if 0xE0 ≤ first && first < 0xF0 then some 3
  else if 0xF0 ≤ first && first < 0xF8 then some 4
  else none

/-- Adds a further byte to the code of a character. -/
def addUriByte? (x : Cursor × Nat) : Option (Cursor × Nat) :=
  (uriByte? x.1).bind fun b =>
    if 0x80 ≤ b && b < 0xC0 then some (x.1.pass 3, x.2 * 256 + b) else none

theorem skipUriEscape?_eq (c : Cursor) : skipUriEscape? c =
    (uriByte? c).bind fun first => (uriWidth? first).bind fun width =>
      ((List.range (width - 1)).foldlM (fun x _ => addUriByte? x) (c.pass 3, first)).bind fun x =>
        (charOfCode? x.2).bind fun _ => some x.1 := by
  refine congrArg (Option.bind (uriByte? c)) (funext fun first => ?_)
  unfold uriWidth?
  split_ifs <;> rfl

theorem uriByte?_mask (c : Cursor) : uriByte? (c.mask n) = uriByte? c := by
  rw [uriByte?, hexNumber?_mask]
  exact ite_congr (by simp) (fun _ => rfl) fun _ => rfl

theorem addUriByte?_mask (x : Cursor × Nat) :
    addUriByte? (x.map (mask n) id) = (addUriByte? x).map (Prod.map (mask n) id) := by
  rw [addUriByte?, addUriByte?, Prod.map_fst, uriByte?_mask, Option.map_bind]
  refine congrArg (Option.bind (uriByte? x.1)) (funext fun b => ?_)
  rw [Function.comp_apply, apply_ite (Option.map (Prod.map (mask n) id)), pass_mask]
  rfl

theorem foldlM_addUriByte?_mask (l : List Nat) (x : Cursor × Nat) :
    l.foldlM (fun x _ => addUriByte? x) (x.map (mask n) id) =
      (l.foldlM (fun x _ => addUriByte? x) x).map (Prod.map (mask n) id) := by
  induction l generalizing x with
  | nil => rfl
  | cons a l ih =>
    rw [List.foldlM_cons, List.foldlM_cons, addUriByte?_mask]
    cases addUriByte? x with
    | none => rfl
    | some y => exact ih y

theorem skipUriEscape?_mask (c : Cursor) :
    skipUriEscape? (c.mask n) = (skipUriEscape? c).map (mask n) := by
  rw [skipUriEscape?_eq, skipUriEscape?_eq, uriByte?_mask, pass_mask]
  cases uriByte? c with
  | none => rfl
  | some first =>
    simp only [Option.bind_some]
    cases uriWidth? first with
    | none => rfl
    | some width =>
      have hbytes := @foldlM_addUriByte?_mask n (List.range (width - 1)) (c.pass 3, first)
      rw [Prod.map_apply, id] at hbytes
      simp only [Option.bind_some, hbytes]
      cases (List.range (width - 1)).foldlM (fun x _ => addUriByte? x) (c.pass 3, first) with
      | none => rfl
      | some x => cases h : charOfCode? x.2 <;> simp [h]

theorem skipUri?_mask {p : Char → Bool} (hp : p '*' = p aliasPlaceholder) (fuel : Nat)
    (c : Cursor) :
    skipUri? p fuel (c.mask n) = (skipUri? p fuel c).map (mask n) := by
  induction fuel generalizing c with
  | zero => rfl
  | succ fuel ih =>
    rw [skipUri?, skipUri?, peek_mask hp, skipUriEscape?_mask, pass_mask]
    simp only [apply_ite (Option.map (mask n))]
    refine ite_congr rfl (fun _ => rfl) fun _ => ite_congr (by simp) (fun _ => ?_) fun _ => ih _
    cases skipUriEscape? c with
    | none => rfl
    | some c₁ => exact ih c₁

/-! ### Handles and tags -/

theorem takeWhile_maskStar_of_stop {p : Char → Bool} {l : List Char}
    (hlength : n < (l.drop (l.takeWhile p).length).length)
    (hstop : p ((maskStar n (l.drop (l.takeWhile p).length)).headD '\x00') = false) :
    (maskStar n l).takeWhile p = l.takeWhile p := by
  induction l with
  | nil => rfl
  | cons d r ih =>
    by_cases hd : p d = true
    · rw [List.takeWhile_cons_of_pos hd, List.length_cons, List.drop_succ_cons] at hlength hstop
      have hlt : n < r.length := hlength.trans_le (by rw [List.length_drop]; omega)
      rw [maskStar_cons_of_lt hlt, List.takeWhile_cons_of_pos hd, List.takeWhile_cons_of_pos hd,
        ih hlength hstop]
    · rw [List.takeWhile_cons_of_neg hd, List.length_nil, List.drop_zero] at hstop
      rw [List.takeWhile_cons_of_neg hd]
      cases hmask : maskStar n (d :: r) with
      | nil => rfl
      | cons d' r' =>
        rw [hmask, List.headD_cons] at hstop
        rw [List.takeWhile_cons_of_neg (by simp [hstop])]

theorem headD_drop_takeWhile {p : Char → Bool} (hend : p '\x00' = false) (l : List Char) :
    p ((l.drop (l.takeWhile p).length).headD '\x00') = false := by
  induction l with
  | nil => exact hend
  | cons d r ih =>
    by_cases hd : p d = true
    · rwa [List.takeWhile_cons_of_pos hd, List.length_cons, List.drop_succ_cons]
    · rw [List.takeWhile_cons_of_neg hd]
      exact Bool.eq_false_iff.mpr hd

/-- A handle is the same if the character behind it is. -/
theorem readHandle?_mask {c c' : Cursor} {handle : List Char}
    (h : readHandle? c = some (handle, c'))
    (hn : n < c'.rest.length) (hpeek : (c'.mask n).peek = c'.peek) :
    readHandle? (c.mask n) = some (handle, c'.mask n) := by
  unfold readHandle? at h ⊢
  rw [pass_mask]
  refine ite_follows (by simp) h (fun _ h => by cases h) fun _ h => ?_
  extract_lets inner word d at h
  have hstop : isWordChar d.peek = false := headD_drop_takeWhile (by decide) inner.rest
  have hd : n < d.rest.length ∧ isWordChar (d.mask n).peek = false := by
    rcases of_ite_eq h with ⟨hbang, h⟩ | h
    · cases h
      have hle : n < (d.rest.drop 1).length := hn
      rw [List.length_drop] at hle
      refine ⟨by omega, ?_⟩
      rw [(peek_mask_eq (by decide) (by decide)).mpr hbang]
      decide
    · obtain ⟨-, rfl⟩ := Prod.mk.inj (Option.some.inj h)
      rw [hpeek]
      exact ⟨hn, hstop⟩
  have hword : ((c.pass 1).mask n).rest.takeWhile isWordChar = word :=
    takeWhile_maskStar_of_stop hd.1 hd.2
  have hskip : ((c.pass 1).mask n).skip word.length = d.mask n := skip_mask _
  dsimp only
  rw [hword, hskip]
  refine ite_follows (by simp) h (fun _ h => ?_) fun _ h => ?_
  · cases h
    rw [pass_mask]
  · obtain ⟨rfl, rfl⟩ := Prod.mk.inj (Option.some.inj h)
    rfl

/-- A tag whose URI goes on where its handle ends does not end at a `*`. -/
theorem lt_of_skipUri? {p : Char → Bool} (hp : p '*' = true) {fuel : Nat} {c c' : Cursor}
    (h : skipUri? p (fuel + 1) c = some c') (hn : n < c'.rest.length)
    (hreach : ∀ {fuel : Nat} {c c' : Cursor}, skipUri? p fuel c = some c' → c.Reaches c') :
    n < c.rest.length ∧ (c.mask n).peek = c.peek := by
  have hlength := hn.trans_le (hreach h).length_le
  refine ⟨hlength, ?_⟩
  by_cases hstar : c.peek = '*'
  · rw [skipUri?, hstar, hp] at h
    have hrest := (hreach h).length_le
    refine peek_mask_of_lt ?_
    have hdrop : (c.pass 1).rest.length = c.rest.length - 1 := List.length_drop ..
    omega
  · exact peek_mask_of_ne hstar

theorem readTag?_mask {inFlow : Bool} {c c' : Cursor} {handle : List Char}
    (h : readTag? inFlow c = some (handle, c')) (hn : n < c'.rest.length) :
    readTag? inFlow (c.mask n) = some (handle, c'.mask n) := by
  have hfinish : ∀ {c₁ : Cursor} {found : List Char},
      (if isGap c₁.peek || (inFlow && isFlowChar c₁.peek) then some (found, c₁) else none) =
        some (handle, c') →
      c₁ = c' ∧ (if isGap (c₁.mask n).peek || (inFlow && isFlowChar (c₁.mask n).peek) then
        some (found, c₁.mask n) else none) = some (handle, c'.mask n) := by
    intro c₁ found hread
    rw [isGap_peek_mask, isFlowChar_peek_mask]
    split_ifs at hread ⊢
    cases hread
    exact ⟨rfl, rfl⟩
  unfold readTag? at h ⊢
  refine ite_follows (by simp) h (fun _ h => ?_) fun _ h => ?_
  · obtain ⟨c₂, hskip, h⟩ := Option.bind_eq_some_iff.mp h
    refine Option.bind_eq_some_iff.mpr ⟨c₂.mask n, ?_, ?_⟩
    · rw [length_mask, pass_mask, skipUri?_mask (by decide), hskip]
      rfl
    · refine ite_follows (by simp) h (fun _ h => ?_) fun _ h => by cases h
      rw [pass_mask]
      exact (hfinish h).2
  · obtain ⟨⟨handle₁, c₂⟩, hhandle, h⟩ := Option.bind_eq_some_iff.mp h
    obtain ⟨after, hskip, h⟩ := Option.bind_eq_some_iff.mp h
    have hafter : after = c' := by
      split_ifs at h
      · cases h
      · exact (hfinish h).1
      · exact (hfinish h).1
      · exact (hfinish h).1
    obtain ⟨hlength, hpeek⟩ := lt_of_skipUri? (by decide) hskip (hafter ▸ hn)
      (reaches_skipUri? fun _ => isLineEnd_of_isTagChar)
    refine Option.bind_eq_some_iff.mpr ⟨(handle₁, c₂.mask n),
      readHandle?_mask hhandle hlength hpeek, Option.bind_eq_some_iff.mpr ⟨after.mask n, ?_, ?_⟩⟩
    · rw [length_mask, skipUri?_mask (by decide), hskip]
      rfl
    · refine ite_follows Iff.rfl h (fun _ h => ?_) fun _ h => ?_
      · exact ite_follows (by simp) h (fun _ h => by cases h) fun _ h => (hfinish h).2
      · exact ite_follows (by simp) h (fun _ h => (hfinish h).2) fun _ h => (hfinish h).2

/-! ### Directives -/

theorem skipVersionNumber?_mask (c : Cursor) :
    skipVersionNumber? (c.mask n) = (skipVersionNumber? c).map (mask n) := by
  have hdigits : ((c.mask n).rest.takeWhile Char.isDigit).length =
      (c.rest.takeWhile Char.isDigit).length := length_takeWhile_maskStar (by decide) n c.rest
  unfold skipVersionNumber?
  dsimp only
  rw [hdigits, pass_mask]
  split_ifs <;> rfl

theorem skipVersion?_mask (c : Cursor) :
    skipVersion? (c.mask n) = (skipVersion? c).map (mask n) := by
  unfold skipVersion?
  rw [skipWhile_mask (by decide), skipVersionNumber?_mask]
  cases skipVersionNumber? (c.skipWhile isSpaceOrTab) with
  | none => rfl
  | some c₁ =>
    simp only [Option.map_some, Option.bind_eq_bind, Option.bind_some, pass_mask,
      skipVersionNumber?_mask, apply_ite (Option.map (mask n)), Option.map_none]
    exact ite_congr (by simp) (fun _ => rfl) fun _ => rfl

theorem skipWhile_of_not {p : Char → Bool} {c : Cursor} (h : p c.peek = false) :
    (c.skipWhile p).peek = c.peek := by
  unfold peek at h
  unfold skipWhile skip peek
  cases hrest : c.rest with
  | nil => rfl
  | cons d r =>
    rw [hrest, List.headD_cons] at h
    rw [List.takeWhile_cons_of_neg (by simp [h])]
    rfl

theorem isWordChar_of_isGap {d : Char} (h : isGap d = true) : isWordChar d = false := by
  simp only [isGap, isSpaceOrTab, isLineEnd, isBreak, isEnd, Bool.or_eq_true,
    decide_eq_true_eq] at h
  rcases h with (rfl | rfl) | (rfl | rfl) | rfl <;> decide

theorem readTagDirective?_mask {c c' : Cursor} {handle : List Char}
    (h : readTagDirective? c = some (handle, c')) (hn : n < c'.rest.length) :
    readTagDirective? (c.mask n) = some (handle, c'.mask n) := by
  have hblanks : ∀ c : Cursor, (c.mask n).skipWhile isSpaceOrTab =
      (c.skipWhile isSpaceOrTab).mask n := fun c => skipWhile_mask (by decide)
  obtain ⟨⟨found, c₁⟩, hhandle, h⟩ := Option.bind_eq_some_iff.mp h
  have hfinish : ∀ {c₂ : Cursor}, (skipUri? isUriChar (c₂.rest.length + 1) c₂).bind
      (fun c₃ => if isGap c₃.peek then some (found, c₃) else none) = some (handle, c') →
        n < c₂.rest.length ∧ (skipUri? isUriChar ((c₂.mask n).rest.length + 1) (c₂.mask n)).bind
          (fun c₃ => if isGap c₃.peek then some (found, c₃) else none) =
            some (handle, c'.mask n) := by
    intro c₂ hread
    obtain ⟨c₃, huri, hread⟩ := Option.bind_eq_some_iff.mp hread
    rw [length_mask, skipUri?_mask (by decide), huri]
    have hle := (reaches_skipUri? (fun _ => isLineEnd_of_isUriChar) huri).length_le
    split_ifs at hread with hgap
    cases hread
    exact ⟨hn.trans_le hle, by simp [hgap]⟩
  dsimp only at h
  obtain ⟨hclosed, h⟩ := of_guard_eq_some h
  have hpass : ∀ {d : Cursor}, n < (d.pass 1).rest.length → n + 1 < d.rest.length := by
    intro d hlength
    have hdrop : (d.pass 1).rest.length = d.rest.length - 1 := List.length_drop ..
    omega
  -- The prefix of the handle goes on with a `*`.
  have hprefix : n + 1 < (c₁.skipWhile isSpaceOrTab).rest.length ∨
      (c₁.skipWhile isSpaceOrTab).peek = '%' ∧ n < (c₁.skipWhile isSpaceOrTab).rest.length := by
    split_ifs at h with hbang htag hescape
    · exact .inl (hpass (hfinish h).1)
    · cases h
    · obtain ⟨c₂, hskip, h⟩ := Option.bind_eq_some_iff.mp h
      exact .inr ⟨hescape, (hfinish h).1.trans_le (reaches_skipUriEscape? hskip).length_le⟩
    · exact .inl (hpass (hfinish h).1)
  have hle : (c₁.skipWhile isSpaceOrTab).rest.length ≤ c₁.rest.length := by
    rw [skipWhile, skip, List.length_drop]
    omega
  have hc₁ : n < c₁.rest.length ∧ (c₁.mask n).peek = c₁.peek := by
    refine ⟨by omega, ?_⟩
    by_cases hstar : c₁.peek = '*'
    · refine peek_mask_of_lt ?_
      rcases hprefix with hlength | ⟨hescape, -⟩
      · omega
      · have hstay : (c₁.skipWhile isSpaceOrTab).peek = c₁.peek := skipWhile_of_not (by
          rw [hstar]
          decide)
        rw [hstay, hstar] at hescape
        cases hescape
    · exact peek_mask_of_ne hstar
  refine Option.bind_eq_some_iff.mpr ⟨(found, c₁.mask n), ?_, ?_⟩
  · rw [hblanks]
    exact readHandle?_mask hhandle hc₁.1 hc₁.2
  dsimp only
  rw [if_neg hclosed, hblanks]
  refine ite_follows (by simp) h (fun _ h => ?_) fun _ h => ?_
  · exact (pass_mask (c := c₁.skipWhile isSpaceOrTab) (n := n) 1) ▸ (hfinish h).2
  refine ite_follows (by rw [peek_mask (g := isTagChar) (by decide)]) h (fun _ h => by cases h)
    fun _ h => ?_
  refine ite_follows (by simp) h (fun _ h => ?_) fun _ h => ?_
  · obtain ⟨c₂, hescape, h⟩ := Option.bind_eq_some_iff.mp h
    refine Option.bind_eq_some_iff.mpr ⟨c₂.mask n, ?_, (hfinish h).2⟩
    rw [skipUriEscape?_mask, hescape]
    rfl
  · exact (pass_mask (c := c₁.skipWhile isSpaceOrTab) (n := n) 1) ▸ (hfinish h).2

/-- The name of a directive ends at a gap, and so not in front of a `*`. -/
theorem readDirective?_mask {c c' : Cursor} {kind : TokenKind}
    (h : Scanner.readDirective? c = some (kind, c')) (hn : n < c'.rest.length) :
    Scanner.readDirective? (c.mask n) = some (kind, c'.mask n) := by
  unfold Scanner.readDirective? at h
  extract_lets name d at h
  obtain ⟨hname, hread⟩ := of_guard_eq_some h
  rw [Bool.or_eq_true, not_or, Bool.not_eq_true', Bool.not_eq_false] at hname
  have hd : n < d.rest.length := by
    rcases of_ite_eq hread with ⟨-, hread⟩ | hread
    · obtain ⟨c₁, hversion, hread⟩ := Option.bind_eq_some_iff.mp hread
      cases hread
      exact hn.trans_le (reaches_skipVersion? hversion).length_le
    rcases of_ite_eq hread with ⟨-, hread⟩ | hread
    · obtain ⟨⟨handle, c₁⟩, htag, hread⟩ := Option.bind_eq_some_iff.mp hread
      cases hread
      exact hn.trans_le (reaches_readTagDirective? htag).length_le
    · cases hread
      exact hn.trans_le (reaches_skipLine d).length_le
  have hword : (c.mask n).rest.takeWhile isWordChar = name := by
    refine takeWhile_maskStar_of_stop hd ?_
    have hgap : isGap (d.mask n).peek = true := by
      rw [isGap_peek_mask, hname.2]
    exact isWordChar_of_isGap hgap
  have hskip : (c.mask n).skip name.length = d.mask n := skip_mask _
  unfold Scanner.readDirective?
  dsimp only
  rw [hword, hskip]
  refine guard_follows (by simp) h fun h => ?_
  refine ite_follows Iff.rfl h (fun _ h => ?_) fun _ h => ?_
  · obtain ⟨c₁, hversion, h⟩ := Option.bind_eq_some_iff.mp h
    cases h
    rw [skipVersion?_mask, hversion]
    rfl
  refine ite_follows Iff.rfl h (fun _ h => ?_) fun _ h => ?_
  · obtain ⟨⟨handle, c₁⟩, htag, h⟩ := Option.bind_eq_some_iff.mp h
    cases h
    rw [readTagDirective?_mask htag hn]
    rfl
  · cases h
    rw [skipLine_mask]
    rfl

end PipelineScripts.Yaml
