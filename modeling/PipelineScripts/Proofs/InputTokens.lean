import PipelineScripts.Script.Inputs
import Mathlib.Data.List.Infix
import Mathlib.Data.List.TakeWhile

/-!
# Readings of a script by its input tokens

A script is read from left to right as a list of pieces: a token wherever one stands, and else one
character. There is one such reading, and rewriting puts for each piece its replacement in the
state of the quote scanner before it.
-/
namespace PipelineScripts.Script

open Text

/-! ### Tokens as written -/

/-- An input token as it is written, with the longest name it can have. -/
@[ext]
structure WrittenToken where
  blanks : List Char
  name : List Char
  /-- What stands between the name and the closing brackets. -/
  arguments : List Char
  blank_of_mem : ∀ c ∈ blanks, isBlank c = true
  name_ne_nil : name ≠ []
  nameChar_of_mem : ∀ c ∈ name, isInputNameChar c = true
  not_nameChar : ∀ c ∈ arguments.head?, isInputNameChar c = false
  bracket_not_mem : ']' ∉ arguments

/-- The brackets in front of a token. -/
def openBrackets : List Char := ['$', '[', '[']

/-- The word in front of the name of an input. -/
def inputWord : List Char := ['i', 'n', 'p', 'u', 't', 's', '.']

theorem toList_inputWord : "inputs.".toList = inputWord := by decide

/-- The brackets behind a token. -/
def closeBrackets : List Char := [']', ']']

namespace WrittenToken

/-- The text of a token. -/
def text (w : WrittenToken) : List Char :=
  openBrackets ++ w.blanks ++ inputWord ++ w.name ++ w.arguments ++ closeBrackets

/-- What the reader of tokens gives for it. -/
def token (w : WrittenToken) : InputToken := ⟨w.name, w.text.length⟩

theorem length_text (w : WrittenToken) :
    w.text.length = w.blanks.length + w.name.length + w.arguments.length + 12 := by
  simp [text, openBrackets, inputWord, closeBrackets]
  omega

end WrittenToken

theorem trimStart_append {blanks rest : List Char} (hblank : ∀ c ∈ blanks, isBlank c = true) :
    trimStart (blanks ++ rest) = trimStart rest := List.dropWhile_append_of_pos hblank

/-- The steps of reading a token. -/
theorem inputToken?_eq_some_iff {s : List Char} {t : InputToken} :
    inputToken? s = some t ↔ ∃ afterOpen afterWord rest,
      openBrackets ++ afterOpen = s ∧ inputWord ++ afterWord = trimStart afterOpen ∧
      afterWord.takeWhile isInputNameChar ≠ [] ∧
      closeBrackets ++ rest =
        (afterWord.dropWhile isInputNameChar).dropWhile (· != ']') ∧
      t = ⟨afterWord.takeWhile isInputNameChar, s.length - rest.length⟩ := by
  simp only [inputToken?, toList_inputWord, Option.bind_eq_bind, Option.bind_eq_some_iff,
    List.isPrefixOf?_eq_some_iff_append_eq]
  constructor
  · rintro ⟨afterOpen, hopen, afterWord, hword, h⟩
    split_ifs at h with hname
    · simp at h
    · obtain ⟨rest, hclose, ht⟩ := Option.bind_eq_some_iff.mp h
      rw [List.isPrefixOf?_eq_some_iff_append_eq] at hclose
      exact ⟨afterOpen, afterWord, rest, hopen, hword, by simpa using hname, hclose,
        (Option.some.inj ht).symm⟩
  · rintro ⟨afterOpen, afterWord, rest, hopen, hword, hname, hclose, rfl⟩
    refine ⟨afterOpen, hopen, afterWord, hword, ?_⟩
    rw [if_neg (by simpa using hname)]
    exact Option.bind_eq_some_iff.mpr
      ⟨rest, List.isPrefixOf?_eq_some_iff_append_eq.mpr hclose, rfl⟩

/-- A token in front is read, whatever follows. -/
theorem inputToken?_text_append (w : WrittenToken) (rest : List Char) :
    inputToken? (w.text ++ rest) = some w.token := by
  have hname : (w.name ++ (w.arguments ++ closeBrackets ++ rest)).takeWhile isInputNameChar =
        w.name ∧
      (w.name ++ (w.arguments ++ closeBrackets ++ rest)).dropWhile isInputNameChar =
        w.arguments ++ closeBrackets ++ rest := by
    rw [List.takeWhile_append_of_pos w.nameChar_of_mem,
      List.dropWhile_append_of_pos w.nameChar_of_mem]
    cases harguments : w.arguments with
    | nil =>
      have hbracket : isInputNameChar ']' = false := by decide
      simp [closeBrackets, hbracket]
    | cons c r =>
      have hc : isInputNameChar c = false := w.not_nameChar c (by simp [harguments])
      simp [hc]
  have hclose : (w.arguments ++ closeBrackets ++ rest).dropWhile (· != ']') =
      closeBrackets ++ rest := by
    have hpos : ∀ c ∈ w.arguments, (c != ']') = true := fun c hc =>
      bne_iff_ne.mpr fun heq => w.bracket_not_mem (heq ▸ hc)
    rw [List.append_assoc, List.dropWhile_append_of_pos hpos]
    simp [closeBrackets]
  refine inputToken?_eq_some_iff.mpr
    ⟨w.blanks ++ inputWord ++ w.name ++ w.arguments ++ closeBrackets ++ rest,
      w.name ++ (w.arguments ++ closeBrackets ++ rest), rest, ?_, ?_, ?_, ?_, ?_⟩
  · simp [WrittenToken.text]
  · -- The word starts with a letter, so the blanks end before it.
    simp only [List.append_assoc]
    rw [trimStart_append w.blank_of_mem]
    rfl
  · rw [hname.1]
    exact w.name_ne_nil
  · rw [hname.2, hclose]
  · rw [hname.1, List.length_append, Nat.add_sub_cancel]
    rfl

/-- What is read in front of a text is a token that is written there. -/
theorem exists_text_of_inputToken? {s : List Char} {t : InputToken} (h : inputToken? s = some t) :
    ∃ (w : WrittenToken) (rest : List Char), s = w.text ++ rest ∧ t = w.token := by
  obtain ⟨afterOpen, afterWord, rest, rfl, hword, hname, hclose, rfl⟩ :=
    inputToken?_eq_some_iff.mp h
  have hend : ∀ c ∈ ((afterWord.dropWhile isInputNameChar).takeWhile (· != ']')).head?,
      isInputNameChar c = false := by
    intro c hc
    have hdrop : (afterWord.dropWhile isInputNameChar).head? = some c := by
      rw [List.head?_takeWhile] at hc
      exact (Option.filter_eq_some_iff.mp hc).1
    have hnot := List.head?_dropWhile_not isInputNameChar afterWord
    rwa [hdrop] at hnot
  let w : WrittenToken :=
    ⟨afterOpen.takeWhile isBlank, afterWord.takeWhile isInputNameChar,
      (afterWord.dropWhile isInputNameChar).takeWhile (· != ']'), fun c => List.mem_takeWhile_imp,
      hname, fun c => List.mem_takeWhile_imp, hend,
      fun hmem => by simpa using List.mem_takeWhile_imp hmem⟩
  have htext : openBrackets ++ afterOpen = w.text ++ rest := by
    have hblanks : afterOpen = w.blanks ++ (inputWord ++ afterWord) := by
      rw [hword]
      exact (List.takeWhile_append_dropWhile).symm
    have harguments : afterWord.dropWhile isInputNameChar =
        w.arguments ++ (closeBrackets ++ rest) := by
      rw [hclose]
      exact (List.takeWhile_append_dropWhile).symm
    have hsplit : afterWord = w.name ++ (w.arguments ++ (closeBrackets ++ rest)) := by
      rw [← harguments]
      exact (List.takeWhile_append_dropWhile).symm
    rw [hblanks, hsplit]
    simp [WrittenToken.text]
  refine ⟨w, rest, htext, ?_⟩
  rw [htext, List.length_append, Nat.add_sub_cancel]
  rfl

/-- A token in front is one with something behind it too. -/
theorem inputToken?_append {s : List Char} {t : InputToken} (h : inputToken? s = some t)
    (rest : List Char) : inputToken? (s ++ rest) = some t := by
  obtain ⟨w, between, rfl, rfl⟩ := exists_text_of_inputToken? h
  rw [List.append_assoc]
  exact inputToken?_text_append w _

/-! ### Replacements -/

theorem WrittenToken.replacement_of_single (w : WrittenToken) {q : QuoteState}
    (h : q.quoting = .single) : w.token.replacement q = w.name := if_pos h

/-- A replacement starts with a character of the name or with a dollar. -/
theorem WrittenToken.exists_replacement (w : WrittenToken) (q : QuoteState) :
    ∃ c r, w.token.replacement q = c :: r ∧
      (q.quoting = .single ∧ isInputNameChar c = true ∨ c = '$') := by
  unfold InputToken.replacement
  split_ifs with hq
  · obtain ⟨n, name, hname⟩ := List.exists_cons_of_ne_nil w.name_ne_nil
    exact ⟨n, name, hname, .inl ⟨hq, w.nameChar_of_mem n (by simp [hname])⟩⟩
  · exact ⟨'$', _, rfl, .inr rfl⟩

theorem isUpper_iff {c : Char} : c.isUpper = true ↔ 65 ≤ c.toNat ∧ c.toNat ≤ 90 :=
  decide_eq_true_iff

theorem isLower_iff {c : Char} : c.isLower = true ↔ 97 ≤ c.toNat ∧ c.toNat ≤ 122 :=
  Bool.and_eq_true_iff.trans (and_congr decide_eq_true_iff decide_eq_true_iff)

theorem isDigit_iff {c : Char} : c.isDigit = true ↔ 48 ≤ c.toNat ∧ c.toNat ≤ 57 :=
  Bool.and_eq_true_iff.trans (and_congr decide_eq_true_iff decide_eq_true_iff)

theorem isAlpha_iff {c : Char} : c.isAlpha = true ↔
    (65 ≤ c.toNat ∧ c.toNat ≤ 90) ∨ (97 ≤ c.toNat ∧ c.toNat ≤ 122) :=
  Bool.or_eq_true_iff.trans (or_congr isUpper_iff isLower_iff)

/-- The capital of a letter is a letter. -/
theorem isAlpha_toUpper {c : Char} (h : c.isAlpha = true) : c.toUpper.isAlpha = true := by
  unfold Char.toUpper
  split
  · next hlower =>
    have hfirst : 97 ≤ c.val.toNat := hlower.1
    have hlast : c.val.toNat ≤ 122 := hlower.2
    -- Capitals are thirty-two before their small letters, and words wrap around.
    have hval : (c.val + ('A'.val - 'a'.val)).toNat = c.val.toNat - 32 := by
      have hback : ('A'.val - 'a'.val).toNat = 2 ^ 32 - 32 := by decide
      rw [UInt32.toNat_add, hback]
      omega
    refine isAlpha_iff.mpr (.inl ?_)
    show 65 ≤ (c.val + ('A'.val - 'a'.val)).toNat ∧ (c.val + ('A'.val - 'a'.val)).toNat ≤ 90
    omega
  · exact h

/-- Only letters have capitals. -/
theorem toUpper_of_not_isAlpha {c : Char} (h : c.isAlpha = false) : c.toUpper = c := by
  unfold Char.toUpper
  split
  · next hlower =>
    rw [isAlpha_iff.mpr (.inr hlower)] at h
    cases h
  · rfl

theorem isAlphanum_toUpper {c : Char} (h : c.isAlphanum = true) : c.toUpper.isAlphanum = true := by
  rcases Bool.or_eq_true_iff.mp h with hletter | hdigit
  · exact Bool.or_eq_true_iff.mpr (.inl (isAlpha_toUpper hletter))
  · cases hletter : c.isAlpha with
    | true => exact Bool.or_eq_true_iff.mpr (.inl (isAlpha_toUpper hletter))
    | false => rwa [toUpper_of_not_isAlpha hletter]

/-- A variable has letters, digits and underscores. -/
theorem isInputNameChar_of_mem_variableName {name : List Char} {c : Char}
    (h : c ∈ variableName name) : isInputNameChar c = true := by
  obtain ⟨d, -, rfl⟩ := List.mem_map.mp h
  split_ifs with hd
  · simp [isInputNameChar, isAlphanum_toUpper hd]
  · decide

/-- A replacement has characters of names, and those around the variable. -/
theorem WrittenToken.mem_replacement {w : WrittenToken} {q : QuoteState} {c : Char}
    (h : c ∈ w.token.replacement q) :
    isInputNameChar c = true ∨ c ∈ ['$', '\x7b', '\x7d'] := by
  unfold InputToken.replacement at h
  split_ifs at h
  · exact .inl (w.nameChar_of_mem c h)
  · rcases List.mem_append.mp h with h | h
    · rcases List.mem_append.mp h with h | h
      · right
        rcases List.mem_cons.mp h with rfl | h <;> simp_all
      · exact .inl (isInputNameChar_of_mem_variableName h)
    · right
      simp_all

/-! ### Readings -/

/-- A piece of a script: a character that no token starts at, or a token. -/
inductive Piece
  | char (c : Char)
  | token (w : WrittenToken)

namespace Piece

/-- The text of a piece. -/
def text : Piece → List Char
  | char c => [c]
  | token w => w.text

/-- What becomes of a piece where the quote scanner is in state `q`. -/
def rewritten (q : QuoteState) : Piece → List Char
  | char c => [c]
  | token w => w.token.replacement q

end Piece

/-- The script that pieces are read from. -/
def source (ps : List Piece) : List Char := ps.flatMap Piece.text

/-- The script that pieces become. The quote scanner reads the pieces as written. -/
def rewritten (q : QuoteState) : List Piece → List Char
  | [] => []
  | p :: ps => p.rewritten q ++ rewritten (q.run p.text) ps

@[simp] theorem source_nil : source [] = [] := rfl

@[simp] theorem source_cons (p : Piece) (ps : List Piece) :
    source (p :: ps) = p.text ++ source ps :=
  List.flatMap_cons

@[simp] theorem source_append (ps qs : List Piece) : source (ps ++ qs) = source ps ++ source qs :=
  List.flatMap_append

@[simp] theorem source_chars (u : List Char) : source (u.map .char) = u := by
  induction u with
  | nil => rfl
  | cons c u ih => rw [List.map_cons, source_cons, ih]; rfl

@[simp] theorem rewritten_nil (q : QuoteState) : rewritten q [] = [] := rfl

theorem rewritten_append (q : QuoteState) (ps qs : List Piece) :
    rewritten q (ps ++ qs) = rewritten q ps ++ rewritten (q.run (source ps)) qs := by
  induction ps generalizing q with
  | nil => rfl
  | cons p ps ih => simp [rewritten, ih]

@[simp] theorem rewritten_chars (q : QuoteState) (u : List Char) :
    rewritten q (u.map .char) = u := by
  induction u generalizing q with
  | nil => rfl
  | cons c u ih => rw [List.map_cons, rewritten, ih]; rfl

/-- The reading of a script: a token is read wherever one stands. -/
inductive Reads : List Char → List Piece → Prop
  | nil : Reads [] []
  | char {c : Char} {s : List Char} {ps : List Piece} :
    inputToken? (c :: s) = none → Reads s ps → Reads (c :: s) (.char c :: ps)
  | token (w : WrittenToken) {s : List Char} {ps : List Piece} :
    Reads s ps → Reads (w.text ++ s) (.token w :: ps)

namespace Reads

theorem source_eq {s : List Char} {ps : List Piece} (h : Reads s ps) : source ps = s := by
  induction h with
  | nil => rfl
  | char _ _ ih => rw [source_cons, ih]; rfl
  | token w _ ih => rw [source_cons, ih]; rfl

/-- What is read behind some pieces is read from the text behind theirs. -/
theorem of_append {s : List Char} {before after : List Piece} (h : Reads s (before ++ after)) :
    Reads (source after) after := by
  induction before generalizing s with
  | nil => exact h.source_eq.symm ▸ h
  | cons p before ih =>
    cases h with
    | char _ h => exact ih h
    | token w h => exact ih h

end Reads

namespace WrittenToken

theorem text_ne_nil (w : WrittenToken) : w.text ≠ [] := by
  rw [← List.length_pos_iff, w.length_text]
  omega

/-- The blanks of a token are those in front of the word. -/
theorem takeWhile_isBlank (w : WrittenToken) : (w.text.drop 3).takeWhile isBlank = w.blanks := by
  have hdrop : w.text.drop 3 =
      w.blanks ++ (inputWord ++ w.name ++ w.arguments ++ closeBrackets) := by
    simp [text, openBrackets]
  have hletter : isBlank 'i' = false := by decide
  rw [hdrop, List.takeWhile_append_of_pos w.blank_of_mem]
  simp [inputWord, hletter]

/-- A text starts with one token at most. -/
theorem eq_of_text_append {v w : WrittenToken} {s t : List Char}
    (h : v.text ++ s = w.text ++ t) : v = w ∧ s = t := by
  have htoken : v.token = w.token := by
    apply Option.some.inj
    rw [← inputToken?_text_append v s, h, inputToken?_text_append]
  obtain ⟨hname, hlength⟩ := InputToken.mk.inj htoken
  obtain ⟨htext, rfl⟩ := List.append_inj h hlength
  have hblanks : v.blanks = w.blanks := by
    rw [← v.takeWhile_isBlank, htext, w.takeWhile_isBlank]
  have harguments : v.arguments = w.arguments := by
    simpa [text, hblanks, hname] using htext
  exact ⟨WrittenToken.ext hblanks hname harguments, rfl⟩

end WrittenToken

/-- Every script has a reading. -/
theorem exists_reads (s : List Char) : ∃ ps, Reads s ps := by
  induction hn : s.length using Nat.strong_induction_on generalizing s with
  | _ n ih =>
    cases s with
    | nil => exact ⟨[], .nil⟩
    | cons c r =>
      cases htoken : inputToken? (c :: r) with
      | none =>
        obtain ⟨ps, hps⟩ := ih r.length (by simp [← hn]) r rfl
        exact ⟨_, .char htoken hps⟩
      | some t =>
        obtain ⟨w, rest, heq, -⟩ := exists_text_of_inputToken? htoken
        have hlt : rest.length < n := by
          have hlength := congrArg List.length heq
          rw [List.length_append, w.length_text, hn] at hlength
          omega
        obtain ⟨ps, hps⟩ := ih rest.length hlt rest rfl
        rw [heq]
        exact ⟨_, .token w hps⟩

/-- A script has one reading. -/
theorem Reads.unique {s : List Char} {ps qs : List Piece} (hps : Reads s ps) (hqs : Reads s qs) :
    ps = qs := by
  induction hps generalizing qs with
  | nil =>
    generalize hs : ([] : List Char) = s at hqs
    cases hqs with
    | nil => rfl
    | char => cases hs
    | token w => exact absurd (List.append_eq_nil_iff.mp hs.symm).1 w.text_ne_nil
  | @char c s ps hnone _ ih =>
    generalize hs : c :: s = r at hqs
    cases hqs with
    | nil => cases hs
    | char _ hqs =>
      cases hs
      rw [ih hqs]
    | token w _ =>
      rw [hs, inputToken?_text_append] at hnone
      cases hnone
  | @token w s ps _ ih =>
    generalize hs : w.text ++ s = r at hqs
    cases hqs with
    | nil => exact absurd (List.append_eq_nil_iff.mp hs).1 w.text_ne_nil
    | char hnone _ =>
      rw [← hs, inputToken?_text_append] at hnone
      cases hnone
    | token v hqs =>
      obtain ⟨rfl, rfl⟩ := WrittenToken.eq_of_text_append hs
      rw [ih hqs]

/-! ### Rewriting a reading -/

/-- The characters of a token replaced are passed over. -/
theorem replaceFrom_length_append (q : QuoteState) (u s : List Char) :
    replaceFrom q u.length (u ++ s) = replaceFrom (q.run u) 0 s := by
  induction u generalizing q with
  | nil => rfl
  | cons c u ih => exact ih _

theorem replaceFrom_text_append (q : QuoteState) (w : WrittenToken) (s : List Char) :
    replaceFrom q 0 (w.text ++ s) =
      w.token.replacement q ++ replaceFrom (q.run w.text) 0 s := by
  cases htext : w.text with
  | nil => exact absurd htext w.text_ne_nil
  | cons c u =>
    have htoken : inputToken? (c :: (u ++ s)) = some w.token := by
      rw [← List.cons_append, ← htext]
      exact inputToken?_text_append w s
    have hlength : w.token.length - 1 = u.length := by simp [WrittenToken.token, htext]
    rw [List.cons_append, replaceFrom, htoken]
    dsimp only
    rw [hlength, replaceFrom_length_append, QuoteState.run_cons]

/-- Rewriting puts for each piece read its replacement. -/
theorem Reads.replaceFrom_eq {s : List Char} {ps : List Piece} (h : Reads s ps) (q : QuoteState) :
    replaceFrom q 0 s = rewritten q ps := by
  induction h generalizing q with
  | nil => rfl
  | char hnone _ ih =>
    rw [replaceFrom, hnone]
    exact congrArg (_ :: ·) (ih _)
  | token w _ ih =>
    rw [replaceFrom_text_append, ih]
    rfl

end PipelineScripts.Script
