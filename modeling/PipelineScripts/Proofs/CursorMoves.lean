import PipelineScripts.Yaml.Scanner
import Mathlib.Data.List.Basic
import Mathlib.Data.List.TakeWhile

/-!
# Moves of a cursor

Whatever is read, the cursor passes over the text in front of it, character by character and break
by break, and counts as it goes. So every mark is a place in the source.
-/
namespace PipelineScripts.Yaml

namespace Cursor

/-- A place that is reached from a cursor: what is left to read there, and its mark. -/
inductive Moves (c : Cursor) : List Char → Mark → Prop
  | stay : Moves c c.rest c.mark
  | char {d : Char} {r : List Char} {m : Mark} (h : Moves c (d :: r) m)
      (hd : isLineEnd d = false) : Moves c r ⟨m.index + 1, m.line, m.column + 1⟩
  | crlf {r : List Char} {m : Mark} (h : Moves c ('\r' :: '\n' :: r) m) :
      Moves c r ⟨m.index + 2, m.line + 1, 0⟩
  | newline {d : Char} {r : List Char} {m : Mark} (h : Moves c (d :: r) m)
      (hd : isBreak d = true) (hcrlf : d = '\r' → r.head? ≠ some '\n') :
      Moves c r ⟨m.index + 1, m.line + 1, 0⟩

/-- One cursor is reached from another. -/
def Reaches (c c' : Cursor) : Prop := c.Moves c'.rest c'.mark

theorem Reaches.refl (c : Cursor) : c.Reaches c := .stay

theorem Reaches.trans {a b c : Cursor} (hab : a.Reaches b) (hbc : b.Reaches c) : a.Reaches c := by
  suffices h : ∀ r m, b.Moves r m → a.Moves r m from h _ _ hbc
  intro r m h
  induction h with
  | stay => exact hab
  | char _ hd ih => exact ih.char hd
  | crlf _ ih => exact ih.crlf
  | newline _ hd hcrlf ih => exact ih.newline hd hcrlf

/-- The index of a mark tells how much of the text is behind it. -/
theorem Moves.drop_index {source r : List Char} {m : Mark}
    (h : ({ rest := source } : Cursor).Moves r m) : source.drop m.index = r := by
  have htail : ∀ {n : Nat} {d : Char} {r : List Char}, source.drop n = d :: r →
      source.drop (n + 1) = r := by
    intro n d r hdrop
    rw [← List.drop_drop, hdrop]
    rfl
  induction h with
  | stay => rfl
  | char _ _ ih => exact htail ih
  | crlf _ ih => exact htail (htail ih)
  | newline _ _ _ ih => exact htail ih

/-- Nothing is reached behind the end. -/
theorem Moves.rest_eq_of_isEnd {c : Cursor} {r : List Char} {m : Mark} (h : c.Moves r m)
    (hend : isEnd c.peek = true) : r = c.rest := by
  rw [peek, isEnd, decide_eq_true_eq] at hend
  induction h with
  | stay => rfl
  | char _ hd ih =>
    rw [← ih, List.headD_cons] at hend
    rw [hend] at hd
    cases hd
  | crlf _ ih =>
    rw [← ih] at hend
    cases hend
  | newline _ hd _ ih =>
    rw [← ih, List.headD_cons] at hend
    rw [hend] at hd
    cases hd

theorem Reaches.isEnd_of_isEnd {c c' : Cursor} (h : c.Reaches c') (hend : isEnd c.peek = true) :
    isEnd c'.peek = true := by
  rw [peek, Moves.rest_eq_of_isEnd h hend]
  exact hend

/-- Nothing is reached that was not in front. -/
theorem Moves.length_le {c : Cursor} {r : List Char} {m : Mark} (h : c.Moves r m) :
    r.length ≤ c.rest.length := by
  induction h with
  | stay => exact le_rfl
  | char _ _ ih | newline _ _ _ ih | crlf _ ih =>
    simp only [List.length_cons] at ih
    omega

/-- A mark and what is left to read make up the text. -/
theorem Moves.index_add_length {c : Cursor} {r : List Char} {m : Mark} (h : c.Moves r m) :
    m.index + r.length = c.mark.index + c.rest.length := by
  induction h with
  | stay => rfl
  | char _ _ ih | newline _ _ _ ih | crlf _ ih =>
    simp only [List.length_cons] at ih
    rw [← ih]
    dsimp only
    omega

/-- Where as much is left to read, nothing was passed. -/
theorem Moves.eq_of_length {c : Cursor} {r : List Char} {m : Mark} (h : c.Moves r m)
    (hlength : c.rest.length ≤ r.length) : r = c.rest ∧ m = c.mark := by
  cases h with
  | stay => exact ⟨rfl, rfl⟩
  | char h _ | newline h _ _ | crlf h =>
    have hle := h.length_le
    simp only [List.length_cons] at hle
    omega

/-! ### Characters in front -/

theorem peekAt_zero (c : Cursor) : c.peekAt 0 = c.peek := rfl

theorem isLineEnd_nul : isLineEnd '\x00' = true := by decide

/-- A character in front that does not end the text is the first of it. -/
theorem rest_eq_of_peek {c : Cursor} {d : Char} (h : c.peek = d) (hd : d ≠ '\x00') :
    c.rest = d :: c.rest.drop 1 := by
  unfold peek at h
  cases hrest : c.rest with
  | nil =>
    rw [hrest] at h
    exact absurd h.symm hd
  | cons x r =>
    rw [hrest, List.headD_cons] at h
    rw [h]
    rfl

theorem drop_eq_of_peekAt {c : Cursor} {n : Nat} (h : isLineEnd (c.peekAt n) = false) :
    c.rest.drop n = c.peekAt n :: c.rest.drop (n + 1) := by
  have hne : c.peekAt n ≠ '\x00' := fun heq => by simp [heq, isLineEnd_nul] at h
  have hrest := @rest_eq_of_peek { c with rest := c.rest.drop n } _ rfl hne
  simpa [peek, peekAt, Nat.add_comm] using hrest

/-- Passing over characters of a line. -/
theorem reaches_skip {c : Cursor} {n : Nat} (h : ∀ k < n, isLineEnd (c.peekAt k) = false) :
    c.Reaches (c.skip n) := by
  suffices hmoves : ∀ k, k ≤ n → c.Moves (c.rest.drop k)
      ⟨c.mark.index + k, c.mark.line, c.mark.column + k⟩ from hmoves n le_rfl
  intro k
  induction k with
  | zero => intro _; exact .stay
  | succ k ih =>
    intro hk
    have hend := h k hk
    have hstep := ih (by omega)
    rw [drop_eq_of_peekAt hend] at hstep
    exact hstep.char hend

theorem reaches_pass {c : Cursor} {n : Nat} (h : ∀ k < n, isLineEnd (c.peekAt k) = false) :
    c.Reaches (c.pass n) := reaches_skip h

theorem reaches_skip_one {c : Cursor} (h : isLineEnd c.peek = false) : c.Reaches (c.skip 1) := by
  refine reaches_skip fun k hk => ?_
  rw [Nat.lt_one_iff.mp hk]
  exact h

theorem reaches_pass_one {c : Cursor} (h : isLineEnd c.peek = false) : c.Reaches (c.pass 1) :=
  reaches_skip_one h

theorem peekAt_of_lt_takeWhile {c : Cursor} {p : Char → Bool} {k : Nat}
    (hk : k < (c.rest.takeWhile p).length) : p (c.peekAt k) = true := by
  have hlt : k < c.rest.length := hk.trans_le (List.takeWhile_prefix p).length_le
  have hpeek : c.peekAt k = (c.rest.takeWhile p)[k] := by
    rw [peekAt, List.drop_eq_getElem_cons hlt, List.headD_cons]
    exact ((List.takeWhile_prefix p).getElem hk).symm
  rw [hpeek]
  exact List.mem_takeWhile_imp (List.getElem_mem hk)

/-- Passing over the characters that satisfy a predicate. -/
theorem reaches_skip_takeWhile {c : Cursor} {p : Char → Bool}
    (hp : ∀ d, p d = true → isLineEnd d = false) :
    c.Reaches (c.skip (c.rest.takeWhile p).length) :=
  reaches_skip fun _ hk => hp _ (peekAt_of_lt_takeWhile hk)

theorem reaches_pass_takeWhile {c : Cursor} {p : Char → Bool}
    (hp : ∀ d, p d = true → isLineEnd d = false) :
    c.Reaches (c.pass (c.rest.takeWhile p).length) := reaches_skip_takeWhile hp

theorem reaches_skipWhile {c : Cursor} {p : Char → Bool}
    (hp : ∀ d, p d = true → isLineEnd d = false) : c.Reaches (c.skipWhile p) :=
  reaches_skip_takeWhile hp

theorem reaches_skipBreak (c : Cursor) : c.Reaches c.skipBreak := by
  unfold skipBreak
  split
  next r hrest =>
    have hstay : c.Moves ('\r' :: '\n' :: r) c.mark := hrest ▸ .stay
    exact hstay.crlf
  next d r hcrlf hrest =>
    have hstay : c.Moves (d :: r) c.mark := hrest ▸ .stay
    split_ifs with hd
    · refine hstay.newline hd ?_
      rintro rfl hhead
      obtain ⟨r', rfl⟩ := List.head?_eq_some_iff.mp hhead
      exact hcrlf r' rfl rfl
    · exact .refl c
  next => exact .refl c

/-! ### Classes of characters -/

theorem isLineEnd_of_isSpaceOrTab {d : Char} (h : isSpaceOrTab d = true) : isLineEnd d = false := by
  simp only [isSpaceOrTab, Bool.or_eq_true, decide_eq_true_eq] at h
  rcases h with rfl | rfl <;> decide

theorem isLineEnd_of_beq_space {d : Char} (h : (d == ' ') = true) : isLineEnd d = false := by
  rw [beq_iff_eq.mp h]
  decide

theorem isLineEnd_of_not_isGap {d : Char} (h : isGap d = false) : isLineEnd d = false := by
  simp only [isGap, Bool.or_eq_false_iff] at h
  exact h.2

theorem isLineEnd_of_isAnchorNameChar {d : Char} (h : isAnchorNameChar d = true) :
    isLineEnd d = false := by
  simp only [isAnchorNameChar, Bool.and_eq_true, Bool.not_eq_true'] at h
  exact isLineEnd_of_not_isGap h.1.1

theorem isLineEnd_of_ne {d : Char} (h : d ≠ '\n') (h' : d ≠ '\r') (h'' : d ≠ '\x00') :
    isLineEnd d = false := by
  simp [isLineEnd, isBreak, isEnd, h, h', h'']

/-- No class of characters that names are made of has an end of line in it. -/
theorem isLineEnd_of_class {p : Char → Bool} (hn : p '\n' = false) (hr : p '\r' = false)
    (hz : p '\x00' = false) {d : Char} (h : p d = true) : isLineEnd d = false := by
  refine isLineEnd_of_ne ?_ ?_ ?_ <;> rintro rfl <;> simp_all

theorem isLineEnd_of_isWordChar {d : Char} (h : isWordChar d = true) : isLineEnd d = false :=
  isLineEnd_of_class (by decide) (by decide) (by decide) h

theorem isLineEnd_of_isUriChar {d : Char} (h : isUriChar d = true) : isLineEnd d = false :=
  isLineEnd_of_class (by decide +kernel) (by decide +kernel) (by decide +kernel) h

theorem isLineEnd_of_isTagChar {d : Char} (h : isTagChar d = true) : isLineEnd d = false := by
  simp only [isTagChar, Bool.and_eq_true] at h
  exact isLineEnd_of_isUriChar h.1.1

theorem isLineEnd_of_isDigit {d : Char} (h : d.isDigit = true) : isLineEnd d = false :=
  isLineEnd_of_class (by decide) (by decide) (by decide) h

/-! ### Blanks and comments -/

theorem reaches_skipLine (c : Cursor) : c.Reaches c.skipLine :=
  reaches_skipWhile fun d hd => by simpa using hd

theorem reaches_skipBlanks? {c : Cursor} {b : Blanks} (h : c.skipBlanks? = some b) :
    c.Reaches b.cursor := by
  have hblanks : c.Reaches (c.skip (c.rest.takeWhile isSpaceOrTab).length) :=
    reaches_skip_takeWhile fun _ => isLineEnd_of_isSpaceOrTab
  unfold skipBlanks? at h
  dsimp only at h
  split_ifs at h
  · cases h
    exact hblanks.trans (reaches_skipLine _)
  · cases h
    exact hblanks

end Cursor

end PipelineScripts.Yaml
