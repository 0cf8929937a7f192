import PipelineScripts.Proofs.InputTokens

/-!
# Replacements and the quotes around them

Whether a token becomes a bare name or a variable is decided by the quotes of the script as written,
and the shell reads the rewritten one. For the scanner a replacement is a text that opens and closes
nothing. So a replacement fits its place if the tokens in front of it open and close nothing either,
or at least leave single quotes open just where nothing of them would.
-/
namespace PipelineScripts.Script

open Text

/-! ### The scanner over replacements -/

/-- Where the scanner stands behind a text that opens and closes nothing: the text ends an
escape. -/
def Quoting.settled : Quoting → Quoting
  | .escaped => .bare
  | .doubleEscaped => .double
  | .bare => .bare
  | .single => .single
  | .double => .double
  | .comment => .comment

theorem Quoting.settled_settled (q : Quoting) : q.settled.settled = q.settled := by
  cases q <;> rfl

/-- The characters that open or close something for the scanner. -/
def quotingChars : List Char := ['\\', '\'', '"', '#', '\n']

namespace QuoteState

/-- The state behind a text that opens and closes nothing and does not end in a blank. -/
def pass (q : QuoteState) : QuoteState := ⟨q.quoting.settled, false⟩

/-- The state behind some pieces, if the tokens among them open and close nothing. -/
def passTokens (q : QuoteState) : List Piece → QuoteState
  | [] => q
  | .char c :: ps => (q.step c).passTokens ps
  | .token _ :: ps => q.pass.passTokens ps

theorem nextQuoting_of_not_mem {c : Char} (hc : c ∉ quotingChars) (q : QuoteState) :
    q.nextQuoting c = q.quoting.settled := by
  simp only [quotingChars, List.mem_cons, List.not_mem_nil, or_false, not_or] at hc
  obtain ⟨hbackslash, hsingle, hdouble, hnumber, hline⟩ := hc
  obtain ⟨quoting, afterBlank⟩ := q
  cases quoting <;>
    simp [nextQuoting, Quoting.settled, hbackslash, hsingle, hdouble, hnumber, hline]

theorem quoting_run {u : List Char} (hne : u ≠ []) (hu : ∀ c ∈ u, c ∉ quotingChars)
    (q : QuoteState) : (q.run u).quoting = q.quoting.settled := by
  induction u generalizing q with
  | nil => exact absurd rfl hne
  | cons c u ih =>
    have hfirst := nextQuoting_of_not_mem (hu c List.mem_cons_self) q
    by_cases hlast : u = []
    · subst hlast
      exact hfirst
    · rw [run_cons, ih hlast (fun a ha => hu a (List.mem_cons_of_mem c ha))]
      show (q.nextQuoting c).settled = _
      rw [hfirst, Quoting.settled_settled]

theorem afterBlank_run {u : List Char} {c : Char} (hlast : u.getLast? = some c) (q : QuoteState) :
    (q.run u).afterBlank = isBlank c := by
  obtain ⟨front, rfl⟩ := List.getLast?_eq_some_iff.mp hlast
  rw [run_append]
  rfl

end QuoteState

/-- The characters of replacements open and close nothing and are no blanks. -/
theorem WrittenToken.quiet_of_mem_replacement {w : WrittenToken} {q : QuoteState} {c : Char}
    (h : c ∈ w.token.replacement q) : c ∉ quotingChars ∧ isBlank c = false := by
  rcases w.mem_replacement h with hname | hc
  · have hrange : 45 ≤ c.toNat ∧ c.toNat ≤ 122 := by
      simp only [isInputNameChar, Bool.or_eq_true, decide_eq_true_eq] at hname
      rcases hname with (halphanum | rfl) | rfl
      · rcases Bool.or_eq_true_iff.mp halphanum with hletter | hdigit
        · have hbounds := isAlpha_iff.mp hletter
          omega
        · have hbounds := isDigit_iff.mp hdigit
          omega
      · decide
      · decide
    refine ⟨fun hmem => ?_, ?_⟩
    · simp only [quotingChars, List.mem_cons, List.not_mem_nil, or_false] at hmem
      rcases hmem with rfl | rfl | rfl | rfl | rfl
      all_goals exact absurd hname (by decide)
    · simp only [isBlank, Bool.or_eq_false_iff, Bool.and_eq_false_iff, decide_eq_false_iff_not,
        beq_eq_false_iff_ne]
      omega
  · simp only [List.mem_cons, List.not_mem_nil, or_false] at hc
    rcases hc with rfl | rfl | rfl <;> decide

/-- A replacement opens and closes nothing, wherever it stands. -/
theorem WrittenToken.run_replacement (w : WrittenToken) (q q' : QuoteState) :
    q'.run (w.token.replacement q) = q'.pass := by
  obtain ⟨c, r, hreplacement, -⟩ := w.exists_replacement q
  have hne : w.token.replacement q ≠ [] := by simp [hreplacement]
  obtain ⟨d, hlast⟩ : ∃ d, (w.token.replacement q).getLast? = some d :=
    ⟨_, List.getLast?_eq_some_getLast hne⟩
  have hquoting := QuoteState.quoting_run hne (fun a ha => (quiet_of_mem_replacement ha).1) q'
  have hblank := QuoteState.afterBlank_run hlast q'
  rw [(quiet_of_mem_replacement (List.mem_of_getLast? hlast)).2] at hblank
  generalize q'.run (w.token.replacement q) = out at hquoting hblank
  obtain ⟨quoting, afterBlank⟩ := out
  cases hquoting
  cases hblank
  rfl

/-- The scanner goes over the rewritten script as if the tokens opened and closed nothing. -/
theorem run_rewritten (q q' : QuoteState) (ps : List Piece) :
    q'.run (rewritten q ps) = q'.passTokens ps := by
  induction ps generalizing q q' with
  | nil => rfl
  | cons p ps ih =>
    rw [rewritten, QuoteState.run_append, ih]
    cases p with
    | char c => rfl
    | token w =>
      rw [Piece.rewritten, w.run_replacement]
      rfl

/-! ### Names of variables -/

/-- A name that a shell takes for a variable: letters, digits and underscores, and no digit in
front. -/
def IsVariableName (v : List Char) : Prop :=
  ∃ c r, v = c :: r ∧ (c.isAlpha = true ∨ c = '_') ∧ ∀ d ∈ r, d.isAlphanum = true ∨ d = '_'

theorem isAlpha_of_isDigit {c : Char} (h : c.isDigit = true) : c.isAlpha = false := by
  by_contra hletter
  rw [Bool.not_eq_false] at hletter
  have hdigit := isDigit_iff.mp h
  have hbounds := isAlpha_iff.mp hletter
  omega

/-- The first character of a variable is that of a name just if it is not made of a digit. -/
theorem isNameStart_iff {c : Char} :
    let d := if c.isAlphanum then c.toUpper else '_'
    (d.isAlpha = true ∨ d = '_') ↔ c.isDigit = false := by
  dsimp only
  cases hdigit : c.isDigit with
  | true =>
    have hletter := isAlpha_of_isDigit hdigit
    have halphanum : c.isAlphanum = true := Bool.or_eq_true_iff.mpr (.inr hdigit)
    rw [if_pos halphanum, toUpper_of_not_isAlpha hletter, hletter]
    refine iff_of_false ?_ (by decide)
    rintro (h | rfl)
    · cases h
    · exact absurd hdigit (by decide)
  | false =>
    refine iff_of_true ?_ rfl
    by_cases halphanum : c.isAlphanum = true
    · rw [if_pos halphanum]
      rcases Bool.or_eq_true_iff.mp halphanum with hletter | h
      · exact .inl (isAlpha_toUpper hletter)
      · rw [hdigit] at h
        cases h
    · rw [if_neg halphanum]
      exact .inr rfl

/-- A variable has a name that the shell takes just if that of the input has no digit in front. -/
theorem isVariableName_iff (w : WrittenToken) :
    IsVariableName (variableName w.name) ↔ ∀ c ∈ w.name.head?, c.isDigit = false := by
  obtain ⟨c, r, hname⟩ := List.exists_cons_of_ne_nil w.name_ne_nil
  rw [hname, List.head?_cons]
  simp only [Option.mem_def, Option.some.injEq, forall_eq']
  constructor
  · rintro ⟨d, u, heq, hfirst, -⟩
    obtain ⟨rfl, -⟩ := List.cons.inj heq
    exact isNameStart_iff.mp hfirst
  · intro hdigit
    refine ⟨_, variableName r, rfl, isNameStart_iff.mpr hdigit, fun d hd => ?_⟩
    obtain ⟨e, -, rfl⟩ := List.mem_map.mp hd
    split_ifs with he
    · exact .inl (isAlphanum_toUpper he)
    · exact .inr rfl

/-! ### Replacements that fit -/

/-- A replacement fits behind a text: it is the bare name just between single quotes, and else a
variable with a name that the shell takes. -/
def Fits (before name replacement : List Char) : Prop :=
  (replacement = name ↔ endsInSingleQuotes before = true) ∧
    (endsInSingleQuotes before = false → ∃ v, IsVariableName v ∧
      replacement = ['$', '\x7b'] ++ v ++ ['\x7d'])

/-- Every replacement fits behind the rewritten script in front of it. -/
def AllFit (ps : List Piece) : Prop :=
  ∀ before w after, ps = before ++ .token w :: after →
    Fits (rewritten {} before) w.name (w.token.replacement (QuoteState.run {} (source before)))

/-- The scanner stands at the same place in the script and in the rewritten one, between any two
pieces. -/
def StaysInStep (ps : List Piece) : Prop :=
  ∀ before after, ps = before ++ after →
    (QuoteState.run {} (source before)).quoting = (QuoteState.run {} (rewritten {} before)).quoting

namespace WrittenToken

/-- A token opens and closes nothing where the scanner is in state `q`. -/
def IsNeutral (w : WrittenToken) (q : QuoteState) : Prop :=
  (q.run w.text).quoting = q.quoting.settled

/-- A token without a character that opens or closes something, and without a digit in front of
its name. -/
structure IsPlain (w : WrittenToken) : Prop where
  quiet : ∀ c ∈ w.text, c ∉ quotingChars
  no_digit : ∀ c ∈ w.name.head?, c.isDigit = false

end WrittenToken

theorem fits_iff (w : WrittenToken) (q : QuoteState) (before : List Char) :
    Fits before w.name (w.token.replacement q) ↔
      (q.quoting = .single ↔ endsInSingleQuotes before = true) ∧
        (q.quoting ≠ .single → ∀ c ∈ w.name.head?, c.isDigit = false) := by
  rw [← isVariableName_iff, Fits]
  by_cases hq : q.quoting = .single
  · rw [w.replacement_of_single hq]
    simp only [hq, true_iff, ne_eq, not_true_eq_false, false_implies, and_true,
      and_iff_left_iff_imp]
    intro hsingle hnot
    rw [hsingle] at hnot
    cases hnot
  · have hreplacement : w.token.replacement q =
        ['$', '\x7b'] ++ variableName w.name ++ ['\x7d'] := if_neg hq
    have hne : w.token.replacement q ≠ w.name := by
      intro heq
      have hdollar : '$' ∈ w.name := by
        rw [← heq, hreplacement]
        simp
      exact absurd (w.nameChar_of_mem _ hdollar) (by decide)
    simp only [hq, hne, false_iff, Bool.not_eq_true, ne_eq, not_false_eq_true, true_implies]
    refine and_congr_right fun hnot => ?_
    simp only [hnot, true_implies]
    constructor
    · rintro ⟨v, hv, heq⟩
      rw [hreplacement] at heq
      simp only [List.append_cancel_left_eq, List.append_cancel_right_eq] at heq
      exact heq ▸ hv
    · exact fun hv => ⟨variableName w.name, hv, hreplacement⟩

/-- Where all tokens open and close nothing, the scanner may pass over them. -/
theorem run_source_of_neutral {q : QuoteState} {ps : List Piece}
    (h : ∀ before w after, ps = before ++ .token w :: after →
      w.IsNeutral (q.run (source before))) : q.run (source ps) = q.passTokens ps := by
  induction ps generalizing q with
  | nil => rfl
  | cons p ps ih =>
    have hrest : (q.run p.text).run (source ps) = (q.run p.text).passTokens ps := by
      refine ih fun before w after heq => ?_
      have hneutral := h (p :: before) w after (by rw [heq, List.cons_append])
      rwa [source_cons, QuoteState.run_append] at hneutral
    rw [source_cons, QuoteState.run_append, hrest]
    cases p with
    | char c => rfl
    | token w =>
      have hquoting : (q.run w.text).quoting = q.quoting.settled := h [] w ps rfl
      have hblank : (q.run w.text).afterBlank = false :=
        QuoteState.afterBlank_run (c := ']') (by simp [WrittenToken.text, closeBrackets]) q
      have hpass : q.run w.text = q.pass := by
        generalize q.run w.text = out at hquoting hblank
        obtain ⟨quoting, afterBlank⟩ := out
        cases hquoting
        cases hblank
        rfl
      show (q.run w.text).passTokens ps = q.pass.passTokens ps
      rw [hpass]

/-- The scanner stays in step just if each token opens and closes nothing where it stands. -/
theorem staysInStep_iff {ps : List Piece} :
    StaysInStep ps ↔ ∀ before w after, ps = before ++ .token w :: after →
      w.IsNeutral (QuoteState.run {} (source before)) := by
  constructor
  · rintro h before w after rfl
    have hbefore := h before (.token w :: after) rfl
    have hbehind := h (before ++ [.token w]) after (by simp)
    rw [rewritten_append, QuoteState.run_append, source_append, QuoteState.run_append] at hbehind
    have htoken : rewritten (QuoteState.run {} (source before)) [.token w] =
        w.token.replacement (QuoteState.run {} (source before)) := by
      simp [rewritten, Piece.rewritten]
    rw [htoken, w.run_replacement] at hbehind
    rw [source_cons, source_nil, List.append_nil] at hbehind
    rw [WrittenToken.IsNeutral, hbefore]
    exact hbehind
  · rintro h before after rfl
    have hneutral : QuoteState.run {} (source before) = QuoteState.passTokens {} before := by
      refine run_source_of_neutral fun front w rest heq => ?_
      exact h front w (rest ++ after) (by rw [heq, List.append_assoc, List.cons_append])
    rw [hneutral, run_rewritten]

/-- Every replacement fits just if, in front of each token, single quotes are open in the script
just where they are if tokens open and close nothing, and outside of them no name starts with a
digit. -/
theorem allFit_iff {ps : List Piece} :
    AllFit ps ↔ ∀ before w after, ps = before ++ .token w :: after →
      ((QuoteState.run {} (source before)).quoting = .single ↔
        (QuoteState.passTokens {} before).quoting = .single) ∧
      ((QuoteState.run {} (source before)).quoting ≠ .single →
        ∀ c ∈ w.name.head?, c.isDigit = false) := by
  have hends : ∀ before : List Piece, endsInSingleQuotes (rewritten {} before) = true ↔
      (QuoteState.passTokens {} before).quoting = .single := by
    intro before
    rw [endsInSingleQuotes, run_rewritten, decide_eq_true_eq]
  simp only [AllFit, fits_iff, hends]

theorem WrittenToken.IsPlain.isNeutral {w : WrittenToken} (h : w.IsPlain) (q : QuoteState) :
    w.IsNeutral q := QuoteState.quoting_run w.text_ne_nil h.quiet q

theorem allFit_of_plain {ps : List Piece} (h : ∀ w, .token w ∈ ps → w.IsPlain) : AllFit ps := by
  refine allFit_iff.mpr ?_
  rintro before w after rfl
  have hneutral : QuoteState.run {} (source before) = QuoteState.passTokens {} before := by
    refine run_source_of_neutral fun front v rest heq => ?_
    exact (h v (by simp [heq])).isNeutral _
  rw [hneutral]
  exact ⟨Iff.rfl, fun _ => (h w (by simp)).no_digit⟩

/-- The replacements of a script fit the quotes around them in the rewritten script just if single
quotes are open in front of each token where they are if tokens open and close nothing, and no name
outside of them starts with a digit. The scanner stands at the same place in both scripts all along
just if each token opens and closes nothing where it stands. In particular all fit if no token has
a character that opens or closes something, and no name starts with a digit. -/
theorem replacements_fit_iff (s : List Char) : ∃ ps, Reads s ps ∧
    replaceInputs s = rewritten {} ps ∧
    (AllFit ps ↔ ∀ before w after, ps = before ++ .token w :: after →
      ((QuoteState.run {} (source before)).quoting = .single ↔
        (QuoteState.passTokens {} before).quoting = .single) ∧
      ((QuoteState.run {} (source before)).quoting ≠ .single →
        ∀ c ∈ w.name.head?, c.isDigit = false)) ∧
    (StaysInStep ps ↔ ∀ before w after, ps = before ++ .token w :: after →
      w.IsNeutral (QuoteState.run {} (source before))) ∧
    ((∀ w, .token w ∈ ps → w.IsPlain) → AllFit ps) := by
  obtain ⟨ps, hps⟩ := exists_reads s
  exact ⟨ps, hps, hps.replaceFrom_eq {}, allFit_iff, staysInStep_iff, allFit_of_plain⟩

/-- A script with a quote in the arguments of a token, and a token behind it. -/
def strayQuote : String := "$[[ inputs.text | default(it's) ]] $[[ inputs.b ]]"

/-- The token with the quote. -/
def strayToken : WrittenToken where
  blanks := [' ']
  name := ['t', 'e', 'x', 't']
  arguments :=
    [' ', '|', ' ', 'd', 'e', 'f', 'a', 'u', 'l', 't', '(', 'i', 't', '\'', 's', ')', ' ']
  blank_of_mem := List.all_eq_true.mp (by decide)
  name_ne_nil := by decide
  nameChar_of_mem := List.all_eq_true.mp (by decide)
  not_nameChar := by
    rintro _ ⟨⟩
    decide
  bracket_not_mem := by decide

/-- The token behind it. -/
def behindStrayToken : WrittenToken where
  blanks := [' ']
  name := ['b']
  arguments := [' ']
  blank_of_mem := List.all_eq_true.mp (by decide)
  name_ne_nil := by decide
  nameChar_of_mem := List.all_eq_true.mp (by decide)
  not_nameChar := by
    rintro _ ⟨⟩
    decide
  bracket_not_mem := by decide

/-- The quote in the first token is taken for one of the script, and the second token becomes a bare
name where no quotes are open. -/
theorem strayQuote_does_not_fit :
    replaceInputs strayQuote.toList = "$\x7bTEXT\x7d b".toList ∧
      ∃ ps, Reads strayQuote.toList ps ∧ ¬ AllFit ps := by
  have hreads : Reads strayQuote.toList
      [.token strayToken, .char ' ', .token behindStrayToken] := by
    have htext : strayQuote.toList =
        strayToken.text ++ (' ' :: (behindStrayToken.text ++ [])) := by decide +kernel
    rw [htext]
    exact .token _ (.char (by decide +kernel) (.token _ .nil))
  refine ⟨by decide +kernel, _, hreads, fun hfit => ?_⟩
  have hlast := hfit [.token strayToken, .char ' '] behindStrayToken [] rfl
  have hquotes := ((fits_iff _ _ _).mp hlast).1.mp (by decide +kernel)
  exact absurd hquotes (by decide +kernel)

end PipelineScripts.Script
