import PipelineScripts.Proofs.InputTokens

/-!
# Scripts split at their tokens

A script is split into tokens and the texts around them. There is one way to do so in which no token
starts in any of these texts, and it is the one that rewriting follows: the texts stay, and each
token becomes what fits the quotes that are open behind the script in front of it.
-/
namespace PipelineScripts.Script

/-! ### Where tokens start -/

/-- A token stands at the front of a text. -/
def StartsWithToken (s : List Char) : Prop :=
  ∃ (w : WrittenToken) (rest : List Char), s = w.text ++ rest

/-- No token starts in a text that `after` follows. -/
def NoTokenIn (u after : List Char) : Prop :=
  ∀ v, v <:+ u → v ≠ [] → ¬ StartsWithToken (v ++ after)

/-- Tokens are read just where they are written. -/
theorem inputToken?_eq_none_iff {s : List Char} : inputToken? s = none ↔ ¬ StartsWithToken s := by
  constructor
  · rintro hnone ⟨w, rest, rfl⟩
    rw [inputToken?_text_append] at hnone
    cases hnone
  · intro h
    by_contra hsome
    obtain ⟨t, ht⟩ := Option.ne_none_iff_exists'.mp hsome
    obtain ⟨w, rest, heq, -⟩ := exists_text_of_inputToken? ht
    exact h ⟨w, rest, heq⟩

theorem noTokenIn_nil (after : List Char) : NoTokenIn [] after := by
  intro v hv hne
  exact absurd (List.suffix_nil.mp hv) hne

theorem noTokenIn_cons_iff {c : Char} {u after : List Char} :
    NoTokenIn (c :: u) after ↔ ¬ StartsWithToken (c :: (u ++ after)) ∧ NoTokenIn u after := by
  constructor
  · intro h
    refine ⟨h (c :: u) List.suffix_rfl (List.cons_ne_nil c u), fun v hv hne => ?_⟩
    exact h v (hv.trans (List.suffix_cons c u)) hne
  · rintro ⟨hfirst, hrest⟩ v hv hne
    rcases List.suffix_cons_iff.mp hv with rfl | hv
    · exact hfirst
    · exact hrest v hv hne

/-! ### Splits -/

/-- A script split at some tokens: the text in front of them, and each with the text behind it. -/
@[ext]
structure Split where
  first : List Char
  rest : List (WrittenToken × List Char)

namespace Split

/-- Tokens and the texts behind them. -/
def textOf (rest : List (WrittenToken × List Char)) : List Char :=
  rest.flatMap fun x => x.1.text ++ x.2

/-- The script that is split. -/
def text (d : Split) : List Char := d.first ++ textOf d.rest

/-- The texts around the tokens have no token: none starts in any of them. -/
structure IsSplitOf (d : Split) (s : List Char) : Prop where
  text_eq : d.text = s
  first : NoTokenIn d.first (textOf d.rest)
  between : ∀ before w t after, d.rest = before ++ (w, t) :: after → NoTokenIn t (textOf after)

end Split

/-- What is put for a token behind a script: its name between single quotes, and else the variable
of that name. -/
def WrittenToken.substitute (w : WrittenToken) (before : List Char) : List Char :=
  if endsInSingleQuotes before then w.name
  else ['$', '\x7b'] ++ variableName w.name ++ ['\x7d']

namespace Split

/-- Tokens and the texts behind them, with a substitute for each token. The quotes that are open
there are those of the script as written. -/
def rewrittenOf (before : List Char) : List (WrittenToken × List Char) → List Char
  | [] => []
  | (w, t) :: rest => w.substitute before ++ t ++ rewrittenOf (before ++ w.text ++ t) rest

/-- The script with a substitute for each token. -/
def rewritten (d : Split) : List Char := d.first ++ rewrittenOf d.first d.rest

/-! ### Splits and readings -/

/-- Tokens and the characters behind them. -/
def piecesOf (rest : List (WrittenToken × List Char)) : List Piece :=
  rest.flatMap fun x => .token x.1 :: x.2.map .char

/-- The pieces of a split: its tokens, and the characters of its texts. -/
def pieces (d : Split) : List Piece := d.first.map .char ++ piecesOf d.rest

/-- Puts characters that follow each other together. -/
def ofPieces : List Piece → Split
  | [] => ⟨[], []⟩
  | .char c :: ps => ⟨c :: (ofPieces ps).first, (ofPieces ps).rest⟩
  | .token w :: ps => ⟨[], (w, (ofPieces ps).first) :: (ofPieces ps).rest⟩

theorem pieces_ofPieces (ps : List Piece) : (ofPieces ps).pieces = ps := by
  induction ps with
  | nil => rfl
  | cons p ps ih =>
    cases p with
    | char c => exact congrArg (Piece.char c :: ·) ih
    | token w => exact congrArg (Piece.token w :: ·) ih

theorem ofPieces_chars_append (u : List Char) (ps : List Piece) :
    ofPieces (u.map .char ++ ps) = ⟨u ++ (ofPieces ps).first, (ofPieces ps).rest⟩ := by
  induction u with
  | nil => rfl
  | cons c u ih =>
    rw [List.map_cons, List.cons_append, ofPieces, ih]
    rfl

theorem ofPieces_piecesOf (rest : List (WrittenToken × List Char)) :
    ofPieces (piecesOf rest) = ⟨[], rest⟩ := by
  induction rest with
  | nil => rfl
  | cons x rest ih =>
    show ofPieces (.token x.1 :: (x.2.map .char ++ piecesOf rest)) = _
    rw [ofPieces, ofPieces_chars_append, ih, List.append_nil]

/-- Pieces are those of one split. -/
theorem pieces_injective : Function.Injective pieces := by
  intro d e h
  have hback : ∀ d : Split, ofPieces d.pieces = d := by
    intro d
    rw [pieces, ofPieces_chars_append, ofPieces_piecesOf, List.append_nil]
  rw [← hback d, h, hback e]

end Split

theorem reads_chars_append_iff {u s : List Char} {ps : List Piece} :
    Reads (u ++ s) (u.map .char ++ ps) ↔ NoTokenIn u s ∧ Reads s ps := by
  induction u with
  | nil => simp [noTokenIn_nil]
  | cons c u ih =>
    rw [noTokenIn_cons_iff, ← inputToken?_eq_none_iff, and_assoc, ← ih]
    constructor
    · intro h
      rw [List.cons_append, List.map_cons, List.cons_append] at h
      generalize hr : c :: (u ++ s) = r at h
      cases h with
      | char hnone h =>
        cases hr
        exact ⟨hnone, h⟩
    · rintro ⟨hnone, h⟩
      exact .char hnone h

theorem reads_token_iff {w : WrittenToken} {s : List Char} {ps : List Piece} :
    Reads (w.text ++ s) (.token w :: ps) ↔ Reads s ps := by
  constructor
  · intro h
    have hrest : Reads (source ps) ps := by
      rw [← List.singleton_append] at h
      exact h.of_append
    have hsource := h.source_eq
    rw [source_cons] at hsource
    rwa [List.append_cancel_left hsource] at hrest
  · exact .token w

namespace Split

theorem reads_piecesOf_iff {rest : List (WrittenToken × List Char)} :
    Reads (textOf rest) (piecesOf rest) ↔
      ∀ before w t after, rest = before ++ (w, t) :: after → NoTokenIn t (textOf after) := by
  induction rest with
  | nil => simp [textOf, piecesOf, Reads.nil]
  | cons x rest ih =>
    obtain ⟨w, t⟩ := x
    have hfirst : Reads (textOf ((w, t) :: rest)) (piecesOf ((w, t) :: rest)) ↔
        NoTokenIn t (textOf rest) ∧ Reads (textOf rest) (piecesOf rest) := by
      have hcons : textOf ((w, t) :: rest) = w.text ++ (t ++ textOf rest) := by
        simp [textOf]
      rw [hcons]
      exact reads_token_iff.trans reads_chars_append_iff
    rw [hfirst, ih]
    constructor
    · rintro ⟨ht, hrest⟩ before v u after heq
      rcases List.cons_eq_append_iff.mp heq with ⟨rfl, hcons⟩ | ⟨before, rfl, hcons⟩
      · cases hcons
        exact ht
      · exact hrest before v u after hcons
    · intro h
      refine ⟨h [] w t rest rfl, fun before v u after heq => ?_⟩
      exact h ((w, t) :: before) v u after (by rw [heq, List.cons_append])

/-- A split is right just if its pieces are the reading of the script. -/
theorem isSplitOf_iff {d : Split} {s : List Char} : d.IsSplitOf s ↔ Reads s d.pieces := by
  have htext : Reads d.text d.pieces ↔
      NoTokenIn d.first (textOf d.rest) ∧ Reads (textOf d.rest) (piecesOf d.rest) :=
    reads_chars_append_iff
  constructor
  · rintro ⟨rfl, hfirst, hbetween⟩
    exact htext.mpr ⟨hfirst, reads_piecesOf_iff.mpr hbetween⟩
  · intro h
    have hsource : d.text = s := by
      rw [← h.source_eq]
      have hrest : source (piecesOf d.rest) = textOf d.rest := by
        generalize d.rest = rest
        induction rest with
        | nil => rfl
        | cons x rest ih =>
          show source (.token x.1 :: (x.2.map .char ++ piecesOf rest)) = _
          rw [source_cons, source_append, source_chars, ih, ← List.append_assoc]
          rfl
      rw [pieces, source_append, source_chars, hrest]
      rfl
    obtain ⟨hfirst, hbetween⟩ := htext.mp (hsource ▸ h)
    exact ⟨hsource, hfirst, reads_piecesOf_iff.mp hbetween⟩

/-! ### Rewriting a split -/

theorem replacement_eq_substitute (w : WrittenToken) (before : List Char) :
    w.token.replacement (QuoteState.run {} before) = w.substitute before := by
  simp only [InputToken.replacement, WrittenToken.substitute, endsInSingleQuotes,
    decide_eq_true_eq]
  rfl

theorem rewritten_piecesOf (before : List Char) (rest : List (WrittenToken × List Char)) :
    Script.rewritten (QuoteState.run {} before) (piecesOf rest) = rewrittenOf before rest := by
  induction rest generalizing before with
  | nil => rfl
  | cons x rest ih =>
    obtain ⟨w, t⟩ := x
    have hrest := ih (before ++ w.text ++ t)
    rw [QuoteState.run_append, QuoteState.run_append] at hrest
    show Script.rewritten _ (.token w :: (t.map .char ++ piecesOf rest)) = _
    rw [Script.rewritten, rewritten_append, rewritten_chars, source_chars, Piece.text, hrest,
      ← List.append_assoc, Piece.rewritten, replacement_eq_substitute]
    rfl

theorem rewritten_pieces (d : Split) : Script.rewritten {} d.pieces = d.rewritten := by
  rw [pieces, rewritten_append, rewritten_chars, source_chars, rewritten_piecesOf, rewritten]

end Split

/-- A script is split at its tokens in one way, and rewriting changes the tokens of this split and
nothing else. -/
theorem rewriting_touches_tokens_only (s : List Char) :
    ∃ d : Split, (∀ e : Split, e.IsSplitOf s ↔ e = d) ∧ replaceInputs s = d.rewritten := by
  obtain ⟨ps, hps⟩ := exists_reads s
  have hpieces := Split.pieces_ofPieces ps
  refine ⟨Split.ofPieces ps, fun e => ?_, ?_⟩
  · rw [Split.isSplitOf_iff]
    constructor
    · intro he
      apply Split.pieces_injective
      rw [he.unique hps, hpieces]
    · rintro rfl
      rwa [hpieces]
  · rw [← Split.rewritten_pieces, hpieces]
    exact hps.replaceFrom_eq {}

end PipelineScripts.Script
