import PipelineScripts.Proofs.MarkedOffsets
import PipelineScripts.Yaml.Reading
import Mathlib.Data.List.Forall2

/-!
# Texts with placeholders

Where a placeholder stands over a `*`, nothing moves: all offsets stay the same, in characters and
in bytes, all lines end where they did, and the headers of block scalars are found on the same
lines.
-/
namespace PipelineScripts.Yaml

open Text

/-- A text with placeholders over some of the stars of another. -/
def Covers (content source : List Char) : Prop :=
  List.Forall₂ (fun d e => e = d ∨ d = '*' ∧ e = aliasPlaceholder) content source

/-- A text has its characters where another one has its own, in bytes and in lines. -/
structure KeepsPlaces (content source : List Char) : Prop where
  bytes : (String.ofList source).utf8ByteSize = (String.ofList content).utf8ByteSize
  offset : ∀ n, (String.ofList (source.take n)).utf8ByteSize =
    (String.ofList (content.take n)).utf8ByteSize
  breaks : ∀ n, endsLine (source.drop n) = endsLine (content.drop n)
  mark : ∀ n, markAt source n = markAt content n

namespace Covers

variable {content source : List Char}

theorem length_eq (h : Covers content source) : source.length = content.length :=
  (List.Forall₂.length_eq h).symm

theorem drop (h : Covers content source) (n : Nat) : Covers (content.drop n) (source.drop n) :=
  List.forall₂_drop n h

theorem take (h : Covers content source) (n : Nat) : Covers (content.take n) (source.take n) :=
  List.forall₂_take n h

/-- A function that does not tell a `*` from a placeholder. -/
theorem headD_eq {α : Type} {f : Char → α} (hf : f aliasPlaceholder = f '*')
    (h : Covers content source) (d : Char) : f (source.headD d) = f (content.headD d) := by
  cases h with
  | nil => rfl
  | cons hd _ =>
    rcases hd with rfl | ⟨rfl, rfl⟩
    · rfl
    · exact hf

/-- The offsets of all characters stay the same in bytes. -/
theorem utf8ByteSize_eq (h : Covers content source) :
    (String.ofList source).utf8ByteSize = (String.ofList content).utf8ByteSize := by
  induction h with
  | nil => rfl
  | cons hd _ ih =>
    rw [String.ofList_cons, String.ofList_cons, String.utf8ByteSize_append,
      String.utf8ByteSize_append, ih]
    rcases hd with rfl | ⟨rfl, rfl⟩
    · rfl
    · rfl

theorem endsLine_eq (h : Covers content source) : endsLine source = endsLine content := by
  cases h with
  | nil => rfl
  | cons hd hrest =>
    -- A line feed behind the first character stays where it is.
    have hfeed : ∀ l : List Char, (l.head? = some '\n') = (l.headD '\x00' = '\n') := fun l => by
      cases l <;> simp
    have hhead := headD_eq (f := (· = '\n')) (by decide) hrest '\x00'
    rcases hd with rfl | ⟨rfl, rfl⟩
    · simp only [endsLine, hfeed, hhead]
    · rfl

/-- Every offset is on the same line and in the same column. -/
theorem markAt_eq (h : Covers content source) (n : Nat) : markAt source n = markAt content n := by
  induction n with
  | zero => rfl
  | succ n ih => rw [markAt, markAt, ih, h.length_eq, (h.drop n).endsLine_eq]

theorem isOf (h : Covers content source) {m : Mark} (hm : m.IsOf source) : m.IsOf content := by
  cases hm with
  | offset hindex hmark =>
    rw [h.markAt_eq] at hmark
    exact .offset (h.length_eq ▸ hindex) hmark
  | below hindex hend hline hcolumn =>
    rw [headD_eq (f := isEnd) (by decide) (h.drop _)] at hend
    rw [h.markAt_eq] at hline
    exact .below (h.length_eq ▸ hindex) hend hline hcolumn

theorem keepsPlaces (h : Covers content source) : KeepsPlaces content source :=
  ⟨h.utf8ByteSize_eq, fun n => (h.take n).utf8ByteSize_eq, fun n => (h.drop n).endsLine_eq,
    h.markAt_eq⟩

/-! ### Headers of block scalars -/

/-- A part that goes by a class of characters to which both or none of the two belong. -/
theorem dropWhile {p : Char → Bool} (hp : p aliasPlaceholder = p '*') (h : Covers content source) :
    Covers (content.dropWhile p) (source.dropWhile p) := by
  induction h with
  | nil => exact .nil
  | @cons d e content source hd hrest ih =>
    have heq : p e = p d := by
      rcases hd with rfl | ⟨rfl, rfl⟩
      · rfl
      · exact hp
    rw [List.dropWhile_cons, List.dropWhile_cons, heq]
    split_ifs
    · exact ih
    · exact .cons hd hrest

theorem all_eq {p : Char → Bool} (hp : p aliasPlaceholder = p '*') (h : Covers content source) :
    source.all p = content.all p := by
  induction h with
  | nil => rfl
  | cons hd _ ih =>
    rw [List.all_cons, List.all_cons, ih]
    rcases hd with rfl | ⟨rfl, rfl⟩
    · rfl
    · rw [hp]

theorem reverse (h : Covers content source) : Covers content.reverse source.reverse :=
  List.forall₂_reverse_iff.mpr h

theorem trimEnd (h : Covers content source) : Covers (trimEnd content) (trimEnd source) :=
  (h.reverse.dropWhile (by decide)).reverse

theorem head?_all_eq {p : Char → Bool} (hp : p aliasPlaceholder = p '*')
    (h : Covers content source) : source.head?.all p = content.head?.all p := by
  cases h with
  | nil => rfl
  | cons hd _ =>
    rcases hd with rfl | ⟨rfl, rfl⟩
    · rfl
    · exact hp

theorem getLast?_all_eq {p : Char → Bool} (hp : p aliasPlaceholder = p '*')
    (h : Covers content source) : source.getLast?.all p = content.getLast?.all p := by
  rw [List.getLast?_eq_head?_reverse, List.getLast?_eq_head?_reverse, h.reverse.head?_all_eq hp]

theorem consFirst {d e : Char} (hd : e = d ∨ d = '*' ∧ e = aliasPlaceholder)
    {ls ls' : List (List Char)} (h : List.Forall₂ Covers ls ls') :
    List.Forall₂ Covers (consFirst d ls) (consFirst e ls') := by
  cases h with
  | nil => exact .cons (.cons hd .nil) .nil
  | cons hfirst hrest => exact .cons (.cons hd hfirst) hrest

/-- The lines are the same but for placeholders in them. -/
theorem lines (h : Covers content source) : List.Forall₂ Covers (lines content) (lines source) := by
  have hsame : ∀ {d e : Char}, (e = d ∨ d = '*' ∧ e = aliasPlaceholder) → e ≠ aliasPlaceholder →
      d = e := fun hd he => hd.elim Eq.symm fun hd => absurd hd.2 he
  induction content using lines.induct generalizing source with
  | case1 =>
    cases h
    exact .nil
  | case2 r ih =>
    cases h with
    | cons hd hrest =>
      obtain rfl : _ = '\n' := hd.resolve_right (by simp)
      exact .cons .nil (ih hrest)
  | case3 r ih =>
    cases h with
    | cons hd hrest =>
      obtain rfl : _ = '\r' := hd.resolve_right (by simp)
      cases hrest with
      | cons hd hrest =>
        obtain rfl : _ = '\n' := hd.resolve_right (by simp)
        exact .cons .nil (ih hrest)
  | case4 d r hfeed hcrlf ih =>
    cases h with
    | @cons _ e _ r' hd hrest =>
      rw [lines.eq_4 d r hfeed hcrlf, lines.eq_4 e r' ?_ ?_]
      · exact consFirst hd (ih hrest)
      · rintro rfl
        exact hfeed (hsame hd (by decide))
      · rintro r'' rfl rfl
        cases hrest with
        | cons hd' _ =>
          obtain rfl := hsame hd' (by decide)
          exact hcrlf _ (hsame hd (by decide)) rfl

/-- What does not tell a `*` from a placeholder holds of the same lines. -/
theorem any_getElem?_eq {p : List Char → Bool} {ls ls' : List (List Char)}
    (hp : ∀ l l', Covers l l' → p l' = p l) (h : List.Forall₂ Covers ls ls') (i : Nat) :
    (ls'[i]?).any p = (ls[i]?).any p := by
  induction h generalizing i with
  | nil => rfl
  | cons hfirst _ ih =>
    cases i with
    | zero => simpa using hp _ _ hfirst
    | succ i => simpa using ih i

/-- Comments start at the same place. -/
theorem commentStartFrom?_eq (h : Covers content source) (q : LineQuoting)
    {previous previous' : Option Char}
    (hprevious : previous' = previous ∨ previous = some '*' ∧ previous' = some aliasPlaceholder) :
    commentStartFrom? q previous' source = commentStartFrom? q previous content := by
  induction h generalizing q previous previous' with
  | nil => rfl
  | @cons d e _ _ hd _ ih =>
    have hclass : ∀ p : Option Char → Bool, p (some aliasPlaceholder) = p (some '*') →
        p previous' = p previous := by
      intro p hp
      rcases hprevious with rfl | ⟨rfl, rfl⟩
      · rfl
      · exact hp
    have hnext : q.next previous' e = q.next previous d := by
      have hopens := hclass opensScalar (by decide)
      rcases hd with rfl | ⟨rfl, rfl⟩
      · cases q <;> simp only [LineQuoting.next, hopens]
      · cases q <;> simp [LineQuoting.next, aliasPlaceholder]
    have hblank := hclass (Option.all isBlank) (by decide)
    have hstart : (q = .outside && e = '#' && previous'.all isBlank) =
        (q = .outside && d = '#' && previous.all isBlank) := by
      rw [hblank]
      rcases hd with rfl | ⟨rfl, rfl⟩
      · rfl
      · simp [aliasPlaceholder]
    have hbehind : some e = some d ∨ some d = some '*' ∧ some e = some aliasPlaceholder :=
      hd.imp (congrArg some) fun hd => ⟨congrArg some hd.1, congrArg some hd.2⟩
    rw [commentStartFrom?, commentStartFrom?, hstart, hnext, ih _ hbehind]

theorem codePart (h : Covers content source) : Covers (codePart content) (codePart source) := by
  have hstart : commentStart? source = commentStart? content :=
    h.commentStartFrom?_eq .outside (.inl rfl)
  unfold Yaml.codePart
  rw [hstart]
  split
  · exact h.take _
  · exact h

/-- A separator of another kind splits at the same place. -/
theorem splitOnce? {sep : Char} (hstar : sep ≠ '*') (hplaceholder : sep ≠ aliasPlaceholder)
    (h : Covers content source) :
    Option.Rel (fun x y => Covers x.1 y.1 ∧ Covers x.2 y.2) (splitOnce? sep content)
      (splitOnce? sep source) := by
  induction h with
  | nil => exact .none
  | @cons d e content source hd hrest ih =>
    have hsep : e = sep ↔ d = sep := by
      rcases hd with rfl | ⟨rfl, rfl⟩
      · exact Iff.rfl
      · exact iff_of_false hplaceholder.symm hstar.symm
    rw [Text.splitOnce?, Text.splitOnce?, if_congr hsep rfl rfl]
    split_ifs
    · exact .some ⟨.nil, hrest⟩
    · generalize Text.splitOnce? sep content = found, Text.splitOnce? sep source = found' at ih
      cases ih with
      | none => exact .none
      | some hparts => exact .some ⟨.cons hd hparts.1, hparts.2⟩

/-- A line ends with the header of a block scalar where it did. -/
theorem endsWithHeader_eq {indicator : Char} (hstar : indicator ≠ '*')
    (hplaceholder : indicator ≠ aliasPlaceholder) (h : Covers content source) :
    endsWithHeader indicator source = endsWithHeader indicator content := by
  have hparts := h.codePart.trimEnd.reverse.splitOnce? hstar hplaceholder
  unfold endsWithHeader splitLast?
  generalize Text.splitOnce? indicator (Text.trimEnd (Yaml.codePart content)).reverse = found,
    Text.splitOnce? indicator (Text.trimEnd (Yaml.codePart source)).reverse = found' at hparts ⊢
  cases hparts with
  | none => rfl
  | some hparts =>
    dsimp only [Option.map_some]
    rw [hparts.1.reverse.all_eq (by decide), hparts.2.reverse.getLast?_all_eq (by decide)]

end Covers

end PipelineScripts.Yaml
