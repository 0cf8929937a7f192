import PipelineScripts.Proofs.CursorMoves
import PipelineScripts.Yaml.Reading
import Mathlib.Data.List.Infix

/-!
# A placeholder further on in the text

Writing a placeholder over a `*` changes one character of the text that is still to be read. A `*`
and a placeholder are in the same classes of characters, but for those of words, so that what is
passed over is the same with and without the placeholder.
-/
namespace PipelineScripts.Yaml

section Checks

variable {α β : Type} {p p' : Prop} [Decidable p] [Decidable p']

/-- Two checks that agree, on two runs of which the second follows the first. -/
theorem ite_of_ite (Q : β → Prop) {a b x : α} {a' b' : β} (hp : p' ↔ p)
    (h : (if p then a else b) = x) (ha : p → a = x → Q a') (hb : ¬ p → b = x → Q b') :
    Q (if p' then a' else b') := by
  by_cases hcheck : p
  · rw [if_pos (hp.mpr hcheck)]
    exact ha hcheck (by rwa [if_pos hcheck] at h)
  · rw [if_neg (mt hp.mp hcheck)]
    exact hb hcheck (by rwa [if_neg hcheck] at h)

theorem ite_follows {a b x : α} {a' b' y : β} (hp : p' ↔ p) (h : (if p then a else b) = x)
    (ha : p → a = x → a' = y) (hb : ¬ p → b = x → b' = y) : (if p' then a' else b') = y :=
  ite_of_ite (· = y) hp h ha hb

/-- The same of two checks that only go on where they fail. -/
theorem guard_follows {γ γ' : Type} {f : γ → Option α} {f' : γ' → Option β} {b : Option α}
    {b' : Option β} {x : α} {y : β} (hp : p' ↔ p) (h : (if p then none >>= f else b) = some x)
    (hb : b = some x → b' = some y) : (if p' then none >>= f' else b') = some y :=
  ite_follows hp h (fun _ h => by cases h) fun _ => hb

end Checks

/-! ### Texts -/

/-- A text with a placeholder over the `*` that stands in front of its last `n` characters. -/
def maskStar (n : Nat) : List Char → List Char
  | [] => []
  | d :: r => if r.length = n ∧ d = '*' then aliasPlaceholder :: r else d :: maskStar n r

section Texts

variable {n k : Nat} {l : List Char} {p : Char → Bool}

@[simp] theorem length_maskStar (n : Nat) (l : List Char) : (maskStar n l).length = l.length := by
  induction l with
  | nil => rfl
  | cons d r ih =>
    rw [maskStar]
    split_ifs
    · rfl
    · rw [List.length_cons, List.length_cons, ih]

theorem maskStar_of_length_le (h : l.length ≤ n) : maskStar n l = l := by
  induction l with
  | nil => rfl
  | cons d r ih =>
    rw [List.length_cons] at h
    rw [maskStar, if_neg (by omega), ih (by omega)]

/-- The `*` is further on. -/
theorem maskStar_cons_of_lt {d : Char} (h : n < l.length) :
    maskStar n (d :: l) = d :: maskStar n l := by
  rw [maskStar, if_neg (by omega)]

theorem drop_maskStar (n k : Nat) (l : List Char) :
    (maskStar n l).drop k = maskStar n (l.drop k) := by
  induction l generalizing k with
  | nil => simp [maskStar]
  | cons d r ih =>
    cases k with
    | zero => rfl
    | succ k =>
      rw [maskStar, List.drop_succ_cons]
      split_ifs with hstar
      · rw [List.drop_succ_cons, maskStar_of_length_le (by rw [List.length_drop]; omega)]
      · rw [List.drop_succ_cons, ih]

/-- What tells no `*` from a placeholder tells no text from its masked one in front. -/
theorem headD_maskStar {α : Type} {g : Char → α} (hg : g '*' = g aliasPlaceholder) (n : Nat)
    (l : List Char) : g ((maskStar n l).headD '\x00') = g (l.headD '\x00') := by
  cases l with
  | nil => rfl
  | cons d r =>
    rw [maskStar]
    split_ifs with hstar
    · rw [List.headD_cons, List.headD_cons, hstar.2, hg]
    · rfl

/-- In front of the `*` nothing changes. -/
theorem take_maskStar (h : n < (l.drop k).length) : (maskStar n l).take k = l.take k := by
  induction k generalizing l with
  | zero => rw [List.take_zero, List.take_zero]
  | succ k ih =>
    cases l with
    | nil => rfl
    | cons d r =>
      rw [List.drop_succ_cons] at h
      have hlt : n < r.length := h.trans_le (by rw [List.length_drop]; omega)
      rw [maskStar_cons_of_lt hlt, List.take_succ_cons, List.take_succ_cons, ih h]

theorem length_takeWhile_maskStar (hp : p '*' = p aliasPlaceholder) (n : Nat) (l : List Char) :
    ((maskStar n l).takeWhile p).length = (l.takeWhile p).length := by
  induction l with
  | nil => rfl
  | cons d r ih =>
    rw [maskStar]
    split_ifs with hstar
    · rw [hstar.2, List.takeWhile_cons, List.takeWhile_cons, hp]
      split_ifs <;> rfl
    · rw [List.takeWhile_cons, List.takeWhile_cons]
      split_ifs
      · rw [List.length_cons, List.length_cons, ih]
      · rfl

/-- A word in front of the `*` is the same. -/
theorem takeWhile_maskStar (hp : p '*' = p aliasPlaceholder)
    (h : n < (l.drop (l.takeWhile p).length).length) :
    (maskStar n l).takeWhile p = l.takeWhile p := by
  rw [List.prefix_iff_eq_take.mp (List.takeWhile_prefix p), length_takeWhile_maskStar hp,
    take_maskStar h, ← List.prefix_iff_eq_take.mp (List.takeWhile_prefix p)]

theorem takeWhile_maskStar_of_not (hp : p '*' = false) (hp' : p aliasPlaceholder = false) (n : Nat)
    (l : List Char) : (maskStar n l).takeWhile p = l.takeWhile p := by
  induction l with
  | nil => rfl
  | cons d r ih =>
    rw [maskStar]
    split_ifs with hstar
    · rw [hstar.2, List.takeWhile_cons_of_neg (by simp [hp']),
        List.takeWhile_cons_of_neg (by simp [hp])]
    · rw [List.takeWhile_cons, List.takeWhile_cons, ih]

/-- A placeholder is written over a `*` of a source. -/
theorem set_eq_maskStar {star : Nat} (h : l[star]? = some '*') :
    l.set star aliasPlaceholder = maskStar (l.length - star - 1) l := by
  induction l generalizing star with
  | nil => cases h
  | cons d r ih =>
    cases star with
    | zero =>
      obtain rfl : d = '*' := by simpa using h
      rw [maskStar, if_pos ⟨by simp, rfl⟩]
      rfl
    | succ star =>
      have hlt : star < r.length := Nat.lt_of_succ_lt_succ (List.getElem?_eq_some_iff.mp h).1
      rw [List.set_cons_succ, ih h, List.length_cons, maskStar_cons_of_lt (by omega)]
      congr 2
      omega

end Texts

/-! ### Cursors -/

namespace Cursor

variable {n : Nat} {c c' : Cursor}

/-- A cursor with a placeholder over the `*` in front of the last `n` characters. -/
def mask (n : Nat) (c : Cursor) : Cursor := { c with rest := maskStar n c.rest }

-- These are not proved by `rfl`, so that `simp` takes the instances along that depend on them.
@[simp] theorem mark_mask : (c.mask n).mark = c.mark := by rw [mask]

@[simp] theorem leading_mask : (c.mask n).leading = c.leading := by rw [mask]

@[simp] theorem length_mask : (c.mask n).rest.length = c.rest.length := length_maskStar n c.rest

@[simp] theorem skip_mask (k : Nat) : (c.mask n).skip k = (c.skip k).mask n := by
  simp [skip, mask, drop_maskStar]

@[simp] theorem pass_mask (k : Nat) : (c.mask n).pass k = (c.pass k).mask n := by
  simp [pass, skip, mask, drop_maskStar]

theorem peekAt_mask {α : Type} {g : Char → α} (hg : g '*' = g aliasPlaceholder) (k : Nat) :
    g ((c.mask n).peekAt k) = g (c.peekAt k) := by
  rw [peekAt, mask, drop_maskStar]
  exact headD_maskStar hg n _

theorem peek_mask {α : Type} {g : Char → α} (hg : g '*' = g aliasPlaceholder) :
    g (c.mask n).peek = g c.peek := headD_maskStar hg n c.rest

@[simp] theorem peekAt_mask_eq {d : Char} (k : Nat) (hd : d ≠ '*') (hd' : d ≠ '_') :
    ((c.mask n).peekAt k = d) ↔ c.peekAt k = d :=
  iff_of_eq (peekAt_mask (g := (· = d)) (by simp [aliasPlaceholder, hd.symm, hd'.symm]) k)

@[simp] theorem peek_mask_eq {d : Char} (hd : d ≠ '*') (hd' : d ≠ '_') :
    ((c.mask n).peek = d) ↔ c.peek = d := peekAt_mask_eq 0 hd hd'

/-- A character other than `*` is never masked. -/
theorem peek_mask_of_ne (h : c.peek ≠ '*') : (c.mask n).peek = c.peek := by
  unfold peek mask at *
  cases hrest : c.rest with
  | nil => rfl
  | cons d r =>
    rw [hrest, List.headD_cons] at h
    simp [maskStar, h]

/-- The `*` is further on. -/
theorem peek_mask_of_lt (h : n + 1 < c.rest.length) : (c.mask n).peek = c.peek := by
  unfold peek mask
  cases hrest : c.rest with
  | nil => rfl
  | cons d r =>
    rw [hrest, List.length_cons] at h
    rw [maskStar_cons_of_lt (by omega), List.headD_cons, List.headD_cons]

/-- The placeholder is in front. -/
theorem peek_mask_of_star (h : c.peek = '*') (hlength : c.rest.length = n + 1) :
    (c.mask n).peek = '_' := by
  rw [rest_eq_of_peek h (by decide), List.length_cons] at hlength
  rw [mask, rest_eq_of_peek h (by decide), peek, maskStar, if_pos ⟨Nat.succ.inj hlength, rfl⟩]
  rfl

@[simp] theorem isGap_peekAt_mask (k : Nat) : isGap ((c.mask n).peekAt k) = isGap (c.peekAt k) :=
  peekAt_mask (by decide) k

@[simp] theorem isGap_peek_mask : isGap (c.mask n).peek = isGap c.peek := peek_mask (by decide)

@[simp] theorem isFlowChar_peekAt_mask (k : Nat) :
    isFlowChar ((c.mask n).peekAt k) = isFlowChar (c.peekAt k) := peekAt_mask (by decide) k

@[simp] theorem isFlowChar_peek_mask : isFlowChar (c.mask n).peek = isFlowChar c.peek :=
  peek_mask (by decide)

@[simp] theorem isBreak_peekAt_mask (k : Nat) :
    isBreak ((c.mask n).peekAt k) = isBreak (c.peekAt k) := peekAt_mask (by decide) k

@[simp] theorem isBreak_peek_mask :
    isBreak (c.mask n).peek = isBreak c.peek := peek_mask (by decide)

@[simp] theorem isSpaceOrTab_peek_mask : isSpaceOrTab (c.mask n).peek = isSpaceOrTab c.peek :=
  peek_mask (by decide)

@[simp] theorem isLineEnd_peek_mask : isLineEnd (c.mask n).peek = isLineEnd c.peek :=
  peek_mask (by decide)

@[simp] theorem isEnd_peek_mask : isEnd (c.mask n).peek = isEnd c.peek := peek_mask (by decide)

@[simp] theorem isDigit_peek_mask :
    (c.mask n).peek.isDigit = c.peek.isDigit := peek_mask (by decide)

/-- Passing over a class of characters. -/
theorem skipWhile_mask {p : Char → Bool} (hp : p '*' = p aliasPlaceholder) :
    (c.mask n).skipWhile p = (c.skipWhile p).mask n := by
  have hlength : ((c.mask n).rest.takeWhile p).length = (c.rest.takeWhile p).length :=
    length_takeWhile_maskStar hp n c.rest
  rw [skipWhile, hlength, skip_mask]
  rfl

@[simp] theorem skipLine_mask :
    (c.mask n).skipLine = c.skipLine.mask n := skipWhile_mask (by decide)

theorem skipBreak_eq (c : Cursor) : c.skipBreak =
    if c.peek = '\r' ∧ c.peekAt 1 = '\n' then
      ⟨c.rest.drop 2, ⟨c.mark.index + 2, c.mark.line + 1, 0⟩, true⟩
    else if isBreak c.peek then ⟨c.rest.drop 1, ⟨c.mark.index + 1, c.mark.line + 1, 0⟩, true⟩
    else c := by
  unfold skipBreak
  split
  next r hrest => simp [peek, peekAt, hrest]
  next d r hcrlf hrest =>
    have hne : ¬ (c.peek = '\r' ∧ c.peekAt 1 = '\n') := by
      rintro ⟨hd, hnext⟩
      rw [peek, hrest, List.headD_cons] at hd
      cases r with
      | nil => simp [peekAt, hrest] at hnext
      | cons x r =>
        simp only [peekAt, hrest, List.drop_succ_cons, List.drop_zero, List.headD_cons] at hnext
        exact hcrlf r hd (by rw [hnext])
    rw [if_neg hne]
    simp [peek, hrest]
  next hrest => simp [peek, hrest, isBreak]

@[simp] theorem skipBreak_mask : (c.mask n).skipBreak = c.skipBreak.mask n := by
  rw [skipBreak_eq, skipBreak_eq]
  simp only [peek_mask_eq, peekAt_mask_eq, isBreak_peek_mask, ne_eq, Char.reduceEq,
    not_false_eq_true, mark_mask]
  split_ifs
  · exact congrArg (Cursor.mk · _ _) (drop_maskStar n 2 c.rest)
  · exact congrArg (Cursor.mk · _ _) (drop_maskStar n 1 c.rest)
  · rfl

theorem atTriple_mask {d : Char} (hd : d ≠ '*') (hd' : d ≠ '_') :
    (c.mask n).atTriple d = c.atTriple d := by
  simp [atTriple, hd, hd']

@[simp] theorem atDocumentStart_mask : (c.mask n).atDocumentStart = c.atDocumentStart :=
  atTriple_mask (by decide) (by decide)

@[simp] theorem atDocumentEnd_mask : (c.mask n).atDocumentEnd = c.atDocumentEnd :=
  atTriple_mask (by decide) (by decide)

@[simp] theorem atDocumentIndicator_mask :
    (c.mask n).atDocumentIndicator = c.atDocumentIndicator := by
  simp [atDocumentIndicator]

def Blanks.mask (n : Nat) (b : Blanks) : Blanks := { b with cursor := b.cursor.mask n }

@[simp] theorem skipBlanks?_mask : (c.mask n).skipBlanks? = c.skipBlanks?.map (Blanks.mask n) := by
  unfold skipBlanks?
  have hblanks : (c.mask n).rest.takeWhile isSpaceOrTab = c.rest.takeWhile isSpaceOrTab :=
    takeWhile_maskStar_of_not (by decide) (by decide) n c.rest
  dsimp only
  rw [hblanks]
  simp only [skip_mask, skipLine_mask, peek_mask_eq, ne_eq, Char.reduceEq, not_false_eq_true]
  split_ifs <;> rfl

end Cursor

end PipelineScripts.Yaml
