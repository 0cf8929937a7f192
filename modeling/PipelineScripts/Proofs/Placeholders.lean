import PipelineScripts.Proofs.PlainTexts
import PipelineScripts.Proofs.ReplacedAliases
import PipelineScripts.Proofs.WrittenTokens

/-!
# What a placeholder reads as

A kept alias leaves a placeholder where its `*` was, so that a plain scalar is read in its place.
This scalar is the alias and no more exactly if its first word is the name of the alias and nothing
goes on with it.
-/
namespace PipelineScripts.Yaml

open Text

/-- At an offset of a source a placeholder stands for the `*` of an alias with a name. -/
structure IsPlaceholder (source : List Char) (star : Nat) (name : List Char) : Prop where
  char : source[star]? = some aliasPlaceholder
  name : ∀ d ∈ name, isAliasNameChar d = true

/-- A further placeholder leaves the others as they are. -/
theorem IsPlaceholder.set {source name : List Char} {star : Nat}
    (h : IsPlaceholder source star name)
    (other : Nat) : IsPlaceholder (source.set other aliasPlaceholder) star name := by
  refine ⟨?_, h.name⟩
  rw [List.getElem?_set]
  split_ifs with hstar hlt
  · rfl
  · have hnone : source[star]? = none := List.getElem?_eq_none (by omega)
    rw [h.char] at hnone
    cases hnone
  · exact h.char

/-- Every kept alias has its placeholder. -/
theorem isPlaceholder_of_readEvents {keep : Bool} {fuel : Nat} {source : List Char}
    {aliases : List (Nat × String)} {read : EventSource}
    (h : readEvents keep fuel source aliases = .ok read)
    (haliases : ∀ a ∈ aliases, IsPlaceholder source a.1 a.2.toList) :
    ∀ a ∈ read.aliases, IsPlaceholder read.source a.1 a.2.toList := by
  induction fuel generalizing source aliases with
  | zero => cases h
  | succ fuel ih =>
    rw [readEvents_succ] at h
    split at h
    next =>
      cases h
      exact haliases
    next => cases h
    next mark _ =>
      split at h
      next => cases h
      next star name hstar =>
        split_ifs at h
        obtain ⟨hchar, hname⟩ := of_aliasAt? hstar
        refine ih h fun a ha => ?_
        rcases List.mem_cons.mp ha with rfl | ha
        · refine ⟨?_, by simpa using hname⟩
          rw [List.getElem?_set_self (List.getElem?_eq_some_iff.mp hchar).1]
        · exact (haliases a ha).set star

namespace IsPlaceholder

variable {source name : List Char} {star : Nat}

/-- The placeholder and the name have no white space in them. -/
theorem isBlank_eq_false (h : IsPlaceholder source star name) :
    ∀ d ∈ aliasPlaceholder :: name, isBlank d = false := by
  intro d hd
  rcases List.mem_cons.mp hd with rfl | hd
  · decide
  · have hname := h.name d hd
    rw [isAliasNameChar, Bool.and_eq_true, Bool.not_eq_true'] at hname
    exact hname.1

/-- The scalar read at a placeholder is the alias alone: its first word is the name, and nothing
goes on with it. -/
def Alone (inFlow : Bool) (least : Int) (c : Cursor) (name : List Char) : Prop :=
  plainWord inFlow c.rest = aliasPlaceholder :: name ∧
    ¬ (PlainRead.firstWord inFlow c).GoesOn inFlow least

/-- What a plain scalar that is read at a placeholder is. -/
theorem readPlain?_iff (h : IsPlaceholder source star name) {c : Cursor}
    (hc : c.rest = source.drop star) {inFlow : Bool} {least : Int} {p : PlainRead}
    (hp : readPlain? inFlow least c = some p) :
    (p.text.reverse = aliasPlaceholder :: name ↔ Alone inFlow least c name) ∧
      (c.rest.take (p.stop.index - c.mark.index) = aliasPlaceholder :: name ↔
        Alone inFlow least c name) := by
  obtain ⟨rest, hrest⟩ : ∃ rest, c.rest = aliasPlaceholder :: rest := by
    obtain ⟨hlt, hchar⟩ := List.getElem?_eq_some_iff.mp h.char
    exact ⟨source.drop (star + 1), by rw [hc, List.drop_eq_getElem_cons hlt, hchar]⟩
  have hpeek : c.peek = aliasPlaceholder := by
    rw [Cursor.peek, hrest]
    rfl
  have hmark : c.atDocumentIndicator = false := by
    simp [Cursor.atDocumentIndicator, Cursor.atDocumentStart, Cursor.atDocumentEnd,
      Cursor.atTriple, hpeek, aliasPlaceholder]
  have hcomment : c.peek ≠ '#' := by
    rw [hpeek]
    decide
  have hword : plainWord inFlow c.rest ≠ [] := by
    rw [hrest, plainWord]
    simp [isGap, isSpaceOrTab, isLineEnd, isBreak, isEnd, isPlainChar, isFlowChar, aliasPlaceholder]
  exact ⟨plainText_eq_iff hp hmark hcomment hword h.isBlank_eq_false,
    plainSource_eq_iff hp hmark hcomment hword h.isBlank_eq_false⟩

/-- A plain scalar among the tokens of a source is read at its place. -/
theorem plainToken_iff (h : IsPlaceholder source star name) {t : Token}
    (ht : t ∈ (scan source).tokens) {text : List Char} (hkind : t.kind = .scalar .plain text)
    (hstart : t.span.start.index = star) :
    ∃ (c : Cursor) (inFlow : Bool) (least : Int) (p : PlainRead), c.rest = source.drop star ∧
      readPlain? inFlow least c = some p ∧ t.span = ⟨c.mark, p.stop⟩ ∧ text = p.text.reverse ∧
      (text = aliasPlaceholder :: name ↔ Alone inFlow least c name) ∧
      ((source.drop star).take (p.stop.index - star) = aliasPlaceholder :: name ↔
        Alone inFlow least c name) := by
  have hwritten := written_of_mem_scan ht
  rw [Token.Written, hkind] at hwritten
  obtain ⟨c, inFlow, least, p, hreach, hp, hspan, rfl⟩ := hwritten
  rw [hspan] at hstart
  subst hstart
  have hrest : c.rest = source.drop c.mark.index := hreach.drop_index.symm
  obtain ⟨htext, hsource⟩ := h.readPlain?_iff hrest hp
  rw [hrest] at hsource
  exact ⟨c, inFlow, least, p, hrest, hp, hspan, rfl, htext, hsource⟩

end IsPlaceholder

end PipelineScripts.Yaml
