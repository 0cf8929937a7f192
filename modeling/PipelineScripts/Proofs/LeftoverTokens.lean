import PipelineScripts.Proofs.FoldedLines
import PipelineScripts.Proofs.InputTokens

/-!
# Tokens left by rewriting

Replaced text is not read again, and it can be part of a token: where the text in front of a token
between single quotes has the beginning of another one, the bare name can take it on, as in
`'$[[ inputs.$[[ inputs.a ]] ]]'`. That is the only way in which a token is left.
-/
namespace PipelineScripts.Script

open Text

/-! ### Fronts of tokens -/

/-- The front of a token, up to the first character of its name. -/
def TokenFront (u : List Char) : Prop :=
  ∃ blanks n, (∀ c ∈ blanks, isBlank c = true) ∧ isInputNameChar n = true ∧
    u = openBrackets ++ blanks ++ inputWord ++ [n]

/-- The beginning of a token, not further than the word in front of the name. -/
def TokenBegun (u : List Char) : Prop :=
  ∃ blanks word, (∀ c ∈ blanks, isBlank c = true) ∧ word <+: inputWord ∧
    u = openBrackets ++ blanks ++ word

/-- A token is a front, anything without a closing bracket, and the closing brackets. -/
theorem inputToken?_ne_none_iff {s : List Char} :
    inputToken? s ≠ none ↔ ∃ front body rest, TokenFront front ∧ ']' ∉ body ∧
      s = front ++ (body ++ (closeBrackets ++ rest)) := by
  constructor
  · intro h
    obtain ⟨t, ht⟩ := Option.ne_none_iff_exists'.mp h
    obtain ⟨w, rest, rfl, -⟩ := exists_text_of_inputToken? ht
    obtain ⟨n, name, hname⟩ := List.exists_cons_of_ne_nil w.name_ne_nil
    have hchars := w.nameChar_of_mem
    rw [hname] at hchars
    refine ⟨openBrackets ++ w.blanks ++ inputWord ++ [n], name ++ w.arguments, rest,
      ⟨w.blanks, n, w.blank_of_mem, hchars n List.mem_cons_self, rfl⟩, ?_, ?_⟩
    · intro hmem
      rcases List.mem_append.mp hmem with hmem | hmem
      · exact absurd (hchars _ (List.mem_cons_of_mem n hmem)) (by decide)
      · exact w.bracket_not_mem hmem
    · simp [WrittenToken.text, hname]
  · rintro ⟨_, body, rest, ⟨blanks, n, hblanks, hn, rfl⟩, hbody, rfl⟩
    let w : WrittenToken :=
      ⟨blanks, (n :: body).takeWhile isInputNameChar, (n :: body).dropWhile isInputNameChar,
        hblanks, by simp [hn], fun c => List.mem_takeWhile_imp,
        fun c hc => by
          have hnot := List.head?_dropWhile_not isInputNameChar (n :: body)
          rwa [hc] at hnot,
        fun hmem => by
          have hcons := (List.dropWhile_sublist isInputNameChar).subset hmem
          rcases List.mem_cons.mp hcons with rfl | hmem
          · exact absurd hn (by decide)
          · exact hbody hmem⟩
    have htext : openBrackets ++ blanks ++ inputWord ++ [n] ++ (body ++ (closeBrackets ++ rest)) =
        w.text ++ rest := by
      have hsplit : n :: body = w.name ++ w.arguments := List.takeWhile_append_dropWhile.symm
      have hassoc : w.text ++ rest =
          openBrackets ++ blanks ++ inputWord ++ (w.name ++ w.arguments) ++
            closeBrackets ++ rest := by
        simp [WrittenToken.text, w]
      rw [hassoc, ← hsplit]
      simp
    rw [htext, inputToken?_text_append]
    exact Option.some_ne_none _

/-- A dollar stands at the start of a front only. -/
theorem TokenFront.ne_dollar {u v : List Char} {c : Char} (h : TokenFront (u ++ c :: v))
    (hu : u ≠ []) : c ≠ '$' := by
  obtain ⟨blanks, n, hblanks, hn, heq⟩ := h
  obtain ⟨d, u, rfl⟩ := List.exists_cons_of_ne_nil hu
  rintro rfl
  have htail : u ++ '$' :: v = ['[', '['] ++ (blanks ++ (inputWord ++ [n])) := by
    simpa [openBrackets] using (List.cons.inj heq).2
  have hmem : '$' ∈ ['[', '['] ++ (blanks ++ (inputWord ++ [n])) := by
    rw [← htail]
    simp
  simp only [List.mem_append] at hmem
  rcases hmem with hmem | hmem | hmem | hmem
  · exact absurd hmem (by decide)
  · exact absurd (hblanks _ hmem) (by decide)
  · exact absurd hmem (by decide)
  · cases List.mem_singleton.mp hmem
    exact absurd hn (by decide)

/-- What a front has before a character of its word or its name is the beginning of a token. -/
theorem TokenFront.begun {u v : List Char} {c : Char} (h : TokenFront (u ++ c :: v))
    (hu : u ≠ []) (hc : isInputNameChar c = true) : TokenBegun u := by
  have hbracket : isInputNameChar '[' = false := by decide
  obtain ⟨blanks, n, hblanks, -, heq⟩ := h
  simp only [openBrackets, List.cons_append, List.nil_append] at heq
  -- The dollar and the first bracket have a bracket behind them.
  rcases u with _ | ⟨d, _ | ⟨e, _ | ⟨f, u⟩⟩⟩
  · exact absurd rfl hu
  · cases heq
    simp [hbracket] at hc
  · cases heq
    simp [hbracket] at hc
  · simp only [List.cons_append, List.cons.injEq] at heq
    obtain ⟨rfl, rfl, rfl, heq⟩ := heq
    have hprefix : u <+: blanks ++ inputWord := by
      rcases List.prefix_concat_iff.mp ⟨c :: v, heq⟩ with rfl | hprefix
      · simp at heq
      · exact hprefix
    obtain ⟨t, ht⟩ := hprefix
    rcases List.append_eq_append_iff.mp ht with ⟨x, rfl, -⟩ | ⟨word, rfl, hword⟩
    · exact ⟨u, [], fun a ha => hblanks a (List.mem_append_left x ha), List.nil_prefix,
        by simp [openBrackets]⟩
    · exact ⟨blanks, word, hblanks, ⟨t, hword.symm⟩, by simp [openBrackets]⟩

/-! ### Text without tokens -/

/-- A token starts with a dollar and a bracket. -/
theorem exists_brackets_of_inputToken? {s : List Char} (h : inputToken? s ≠ none) :
    ∃ r, s = '$' :: '[' :: r := by
  obtain ⟨t, ht⟩ := Option.ne_none_iff_exists'.mp h
  obtain ⟨w, rest, rfl, -⟩ := exists_text_of_inputToken? ht
  exact ⟨_, rfl⟩

/-- No token starts in a replacement. -/
theorem WrittenToken.inputToken?_of_suffix (w : WrittenToken) (q : QuoteState) {u : List Char}
    (hu : u <:+ w.token.replacement q) (hne : u ≠ []) (rest : List Char) :
    inputToken? (u ++ rest) = none := by
  by_contra hsome
  obtain ⟨r, hr⟩ := exists_brackets_of_inputToken? hsome
  obtain ⟨c, u, rfl⟩ := List.exists_cons_of_ne_nil hne
  obtain ⟨rfl, hr⟩ := List.cons.inj hr
  have hdollar : isInputNameChar '$' = false := by decide
  unfold InputToken.replacement at hu
  split_ifs at hu with hq
  · have hmem := hu.subset List.mem_cons_self
    simpa [hdollar] using w.nameChar_of_mem _ hmem
  · -- The dollar of a variable has a brace behind it.
    simp only [List.cons_append, List.nil_append, List.suffix_cons_iff, List.cons.injEq] at hu
    rcases hu with ⟨-, rfl⟩ | ⟨hbrace, -⟩ | hu
    · cases hr
    · cases hbrace
    · rcases List.mem_append.mp (hu.subset List.mem_cons_self) with hmem | hmem
      · simpa [hdollar] using isInputNameChar_of_mem_variableName hmem
      · simp at hmem

/-! ### What is left -/

/-- Pieces whose rewriting starts with a token: their text begins one, and the bare name of a token
between single quotes takes it on. -/
def TakesOn (q : QuoteState) (ps : List Piece) : Prop :=
  ∃ (begun : List Char) (w : WrittenToken) (after : List Piece),
    ps = begun.map .char ++ .token w :: after ∧ TokenBegun begun ∧
    (q.run begun).quoting = .single ∧
    inputToken? (begun ++ w.name ++ rewritten (q.run (begun ++ w.text)) after) ≠ none

/-- Where one token takes on another, the rewriting starts with a token. -/
theorem TakesOn.inputToken?_ne_none {q : QuoteState} {ps : List Piece} (h : TakesOn q ps) :
    inputToken? (rewritten q ps) ≠ none := by
  obtain ⟨begun, w, after, rfl, -, hquoting, hsome⟩ := h
  rw [rewritten_append, rewritten_chars, source_chars, rewritten, Piece.rewritten,
    w.replacement_of_single hquoting, Piece.text, ← QuoteState.run_append, ← List.append_assoc]
  exact hsome

/-- Pieces are characters, up to the first token. -/
theorem exists_chars (ps : List Piece) :
    ∃ u : List Char, ps = u.map .char ∨ ∃ w after, ps = u.map .char ++ .token w :: after := by
  induction ps with
  | nil => exact ⟨[], .inl rfl⟩
  | cons p ps ih =>
    cases p with
    | char c =>
      obtain ⟨u, rfl | ⟨w, after, rfl⟩⟩ := ih
      · exact ⟨c :: u, .inl rfl⟩
      · exact ⟨c :: u, .inr ⟨w, after, rfl⟩⟩
    | token w => exact ⟨[], .inr ⟨w, ps, rfl⟩⟩

/-- A token closes with its first closing bracket. -/
theorem WrittenToken.exists_inner (w : WrittenToken) :
    ∃ inner, ']' ∉ inner ∧ w.text = inner ++ closeBrackets := by
  refine ⟨openBrackets ++ w.blanks ++ inputWord ++ w.name ++ w.arguments, ?_, rfl⟩
  simp only [List.mem_append, not_or]
  exact ⟨⟨⟨⟨by decide, fun h => absurd (w.blank_of_mem _ h) (by decide)⟩, by decide⟩,
    fun h => absurd (w.nameChar_of_mem _ h) (by decide)⟩, w.bracket_not_mem⟩

/-- A token of which the rewriting leaves the front is one of the script: its closing brackets
stand in the script before the next token, or else those of that token close it. -/
theorem TokenFront.inputToken?_ne_none {front v body s t rest : List Char} {w : WrittenToken}
    {q : QuoteState} (hfront : TokenFront front) (hbody : ']' ∉ body)
    (h : v ++ (w.token.replacement q ++ rest) = body ++ (closeBrackets ++ t)) :
    inputToken? (front ++ (v ++ (w.text ++ s))) ≠ none := by
  obtain ⟨inner, hinner, htext⟩ := w.exists_inner
  have hopen : ']' ∉ v → inputToken? (front ++ (v ++ (w.text ++ s))) ≠ none := by
    intro hv
    refine inputToken?_ne_none_iff.mpr ⟨front, v ++ inner, s, hfront, ?_, by simp [htext]⟩
    simp [hv, hinner]
  rcases List.append_eq_append_iff.mp h with ⟨x, rfl, -⟩ | ⟨x, rfl, hrest⟩
  · exact hopen fun hmem => hbody (List.mem_append_left x hmem)
  · rcases x with _ | ⟨a, _ | ⟨b, x⟩⟩
    · exact hopen (by simpa using hbody)
    · -- The second closing bracket would be the first character of the replacement.
      obtain ⟨c, r, hreplacement, hc⟩ := w.exists_replacement q
      simp only [closeBrackets, hreplacement, List.cons_append, List.nil_append,
        List.cons.injEq] at hrest
      obtain ⟨-, rfl, -⟩ := hrest
      rcases hc with ⟨-, hc⟩ | hc
      · exact absurd hc (by decide)
      · exact absurd hc (by decide)
    · simp only [closeBrackets, List.cons_append, List.nil_append, List.cons.injEq] at hrest
      obtain ⟨rfl, rfl, -⟩ := hrest
      exact inputToken?_ne_none_iff.mpr
        ⟨front, body, x ++ (w.text ++ s), hfront, hbody, by simp [closeBrackets]⟩

/-- A front at the start of a text with a replacement in it ends before the replacement, or else
the text before it begins a token and the replacement is a bare name. -/
theorem TokenFront.before_or_begun {front u rest t : List Char} {w : WrittenToken} {q : QuoteState}
    (hfront : TokenFront front) (hu : u ≠ [])
    (h : u ++ (w.token.replacement q ++ rest) = front ++ t) :
    (∃ v, u = front ++ v ∧ v ++ (w.token.replacement q ++ rest) = t) ∨
      TokenBegun u ∧ q.quoting = .single := by
  rcases List.append_eq_append_iff.mp h with ⟨x, rfl, hrest⟩ | ⟨v, hv, hrest⟩
  · cases x with
    | nil => exact .inl ⟨[], by simp, hrest⟩
    | cons d x =>
      -- The first character of the replacement is one of the front.
      obtain ⟨c, r, hreplacement, hc⟩ := w.exists_replacement q
      rw [hreplacement] at hrest
      obtain ⟨rfl, -⟩ := List.cons.inj hrest
      rcases hc with ⟨hquoting, hc⟩ | hc
      · exact .inr ⟨hfront.begun hu hc, hquoting⟩
      · exact absurd hc (hfront.ne_dollar hu)
  · exact .inl ⟨v, hv, hrest.symm⟩

/-- Where the script has no token at a character and the rewriting has one, a token takes on what
the characters begin. -/
theorem Reads.takesOn {c : Char} {s : List Char} {ps : List Piece} {q : QuoteState}
    (h : Reads (c :: s) (.char c :: ps)) (hnone : inputToken? (c :: s) = none)
    (hsome : inputToken? (rewritten q (.char c :: ps)) ≠ none) : TakesOn q (.char c :: ps) := by
  have hsource := h.source_eq
  obtain ⟨u, hu | ⟨w, after, hu⟩⟩ := exists_chars ps
  · -- Without a token the rewriting is the script.
    have hchars : Piece.char c :: ps = (c :: u).map .char := by rw [hu, List.map_cons]
    rw [hchars, rewritten_chars] at hsome
    rw [hchars, source_chars] at hsource
    exact absurd (hsource ▸ hnone) hsome
  · have hpieces : Piece.char c :: ps = (c :: u).map .char ++ .token w :: after := by
      rw [hu, List.map_cons, List.cons_append]
    have hrewritten : rewritten q (.char c :: ps) = (c :: u) ++
        (w.token.replacement (q.run (c :: u)) ++
          rewritten (q.run (c :: u ++ w.text)) after) := by
      rw [hpieces, rewritten_append, rewritten_chars, source_chars, rewritten,
        QuoteState.run_append]
      rfl
    rw [hpieces, source_append, source_chars, source_cons] at hsource
    obtain ⟨front, body, rest, hfront, hbody, htoken⟩ := inputToken?_ne_none_iff.mp hsome
    rw [hrewritten] at htoken
    rcases hfront.before_or_begun (List.cons_ne_nil c u) htoken with
      ⟨v, hv, hrest⟩ | ⟨hbegun, hquoting⟩
    · rw [hv, List.append_assoc] at hsource
      rw [← hsource] at hnone
      exact absurd hnone (hfront.inputToken?_ne_none hbody hrest)
    · refine ⟨c :: u, w, after, hpieces, hbegun, hquoting, ?_⟩
      rw [hrewritten, w.replacement_of_single hquoting, ← List.append_assoc] at hsome
      exact hsome

theorem noInputToken_nil : NoInputToken [] := by
  intro t ht
  rw [List.suffix_nil.mp ht]
  rfl

/-- A text has no token if none starts at its first character and the rest has none. -/
theorem noInputToken_cons_iff {c : Char} {s : List Char} :
    NoInputToken (c :: s) ↔ inputToken? (c :: s) = none ∧ NoInputToken s := by
  constructor
  · intro h
    exact ⟨h _ List.suffix_rfl, fun t ht => h t (ht.trans (List.suffix_cons c s))⟩
  · rintro ⟨hfirst, hrest⟩ t ht
    rcases List.suffix_cons_iff.mp ht with rfl | ht
    · exact hfirst
    · exact hrest t ht

/-- In front of a text without tokens, replacements make none. -/
theorem WrittenToken.noInputToken_append_iff (w : WrittenToken) (q : QuoteState) {s : List Char} :
    NoInputToken (w.token.replacement q ++ s) ↔ NoInputToken s := by
  constructor
  · exact fun h t ht => h t (ht.trans (List.suffix_append _ s))
  · intro h
    suffices hsuffix : ∀ u, u <:+ w.token.replacement q → NoInputToken (u ++ s) from
      hsuffix _ List.suffix_rfl
    intro u hu
    induction u with
    | nil => exact h
    | cons c u ih =>
      exact noInputToken_cons_iff.mpr ⟨w.inputToken?_of_suffix q hu (List.cons_ne_nil c u) s,
        ih ((List.suffix_cons c u).trans hu)⟩

/-- What takes on something begins with a character. -/
theorem TakesOn.exists_char {q : QuoteState} {ps : List Piece} (h : TakesOn q ps) :
    ∃ c rest, ps = .char c :: rest := by
  obtain ⟨begun, w, after, rfl, ⟨blanks, word, -, -, rfl⟩, -⟩ := h
  exact ⟨'$', _, rfl⟩

/-- Where a part of the pieces takes on what is begun before it: at the first piece or further. -/
theorem takesOn_cons_iff {q : QuoteState} {p : Piece} {ps : List Piece} :
    (∀ before after, p :: ps = before ++ after → ¬ TakesOn (q.run (source before)) after) ↔
      ¬ TakesOn q (p :: ps) ∧ ∀ before after, ps = before ++ after →
        ¬ TakesOn ((q.run p.text).run (source before)) after := by
  constructor
  · intro h
    refine ⟨h [] (p :: ps) rfl, ?_⟩
    rintro before after rfl
    have hrest := h (p :: before) after rfl
    rwa [source_cons, QuoteState.run_append] at hrest
  · rintro ⟨hfirst, hrest⟩ before after heq
    rcases List.cons_eq_append_iff.mp heq with ⟨rfl, rfl⟩ | ⟨before, rfl, hps⟩
    · exact hfirst
    · rw [source_cons, QuoteState.run_append]
      exact hrest before after hps

/-- A token is left just where a bare name takes on one that is begun before it. -/
theorem Reads.noInputToken_rewritten_iff {s : List Char} {ps : List Piece} (h : Reads s ps)
    (q : QuoteState) : NoInputToken (rewritten q ps) ↔
      ∀ before after, ps = before ++ after → ¬ TakesOn (q.run (source before)) after := by
  induction h generalizing q with
  | nil =>
    refine iff_of_true noInputToken_nil fun before after heq htakes => ?_
    obtain ⟨c, rest, rfl⟩ := htakes.exists_char
    simp at heq
  | @char c s ps hnone hps ih =>
    have hfirst : inputToken? (rewritten q (.char c :: ps)) = none ↔
        ¬ TakesOn q (.char c :: ps) :=
      ⟨fun h htakes => htakes.inputToken?_ne_none h,
        fun h => of_not_not fun hsome => h ((Reads.char hnone hps).takesOn hnone hsome)⟩
    rw [takesOn_cons_iff, ← hfirst]
    exact noInputToken_cons_iff.trans (and_congr_right fun _ => ih _)
  | @token w s ps hps ih =>
    have hfirst : ¬ TakesOn q (.token w :: ps) := fun htakes => by
      obtain ⟨c, rest, heq⟩ := htakes.exists_char
      cases heq
    rw [takesOn_cons_iff, and_iff_right hfirst]
    exact (w.noInputToken_append_iff q).trans (ih _)

/-! ### Rewriting again -/

theorem WrittenToken.length_replacement_lt (w : WrittenToken) (q : QuoteState) :
    (w.token.replacement q).length < w.text.length := by
  rw [w.length_text]
  unfold InputToken.replacement
  split_ifs
  · simp only [WrittenToken.token]
    omega
  · simp only [WrittenToken.token, variableName, List.length_append, List.length_map,
      List.length_cons, List.length_nil]
    omega

theorem length_rewritten_le (q : QuoteState) (ps : List Piece) :
    (rewritten q ps).length ≤ (source ps).length := by
  induction ps generalizing q with
  | nil => exact le_rfl
  | cons p ps ih =>
    have hpiece : (p.rewritten q).length ≤ p.text.length := by
      cases p with
      | char c => exact le_rfl
      | token w => exact (w.length_replacement_lt q).le
    rw [rewritten, source_cons, List.length_append, List.length_append]
    exact Nat.add_le_add hpiece (ih _)

/-- Every replacement is shorter than its token, so only a script without tokens stays the same. -/
theorem Reads.noInputToken_of_rewritten_eq {s : List Char} {ps : List Piece} (h : Reads s ps)
    {q : QuoteState} (heq : rewritten q ps = s) : NoInputToken s := by
  induction h generalizing q with
  | nil => exact noInputToken_nil
  | char hnone _ ih => exact noInputToken_cons_iff.mpr ⟨hnone, ih (List.cons.inj heq).2⟩
  | @token w s ps hps ih =>
    have hlength := congrArg List.length heq
    have hshort := w.length_replacement_lt q
    have hrest := length_rewritten_le (q.run w.text) ps
    rw [hps.source_eq] at hrest
    rw [rewritten, List.length_append, List.length_append, Piece.rewritten, Piece.text] at hlength
    omega

/-- Just a script without tokens is left as it is. -/
theorem replaceInputs_eq_self_iff {s : List Char} : replaceInputs s = s ↔ NoInputToken s := by
  obtain ⟨ps, hps⟩ := exists_reads s
  refine ⟨fun heq => ?_, replaceInputs_of_noInputToken⟩
  rw [replaceInputs, hps.replaceFrom_eq] at heq
  exact hps.noInputToken_of_rewritten_eq heq

/-- Rewriting leaves no token, and rewriting again changes nothing, just if no bare name takes on a
token that is begun before it. -/
theorem replaceInputs_idempotent_iff (s : List Char) : ∃ ps, Reads s ps ∧
    let clean := ∀ before after, ps = before ++ after →
      ¬ TakesOn (QuoteState.run {} (source before)) after
    (NoInputToken (replaceInputs s) ↔ clean) ∧
      (replaceInputs (replaceInputs s) = replaceInputs s ↔ clean) := by
  obtain ⟨ps, hps⟩ := exists_reads s
  have hleft := hps.noInputToken_rewritten_iff {}
  rw [← hps.replaceFrom_eq] at hleft
  exact ⟨ps, hps, hleft, replaceInputs_eq_self_iff.trans hleft⟩

/-- A token between single quotes in the place of another one's name. -/
def nestedTokens : String := "'$[[ inputs.$[[ inputs.a ]] ]]'"

/-- The bare name takes on the token around it, which is left for a second rewriting. -/
theorem nestedTokens_left :
    replaceInputs nestedTokens.toList = "'$[[ inputs.a ]]'".toList ∧
      ¬ NoInputToken (replaceInputs nestedTokens.toList) ∧
      replaceInputs (replaceInputs nestedTokens.toList) = "'a'".toList := by
  have hfirst : replaceInputs nestedTokens.toList = "'$[[ inputs.a ]]'".toList := by
    decide +kernel
  have hsecond : replaceInputs "'$[[ inputs.a ]]'".toList = "'a'".toList := by decide +kernel
  refine ⟨hfirst, ?_, by rw [hfirst, hsecond]⟩
  rw [hfirst, ← replaceInputs_eq_self_iff, hsecond]
  decide +kernel

end PipelineScripts.Script
