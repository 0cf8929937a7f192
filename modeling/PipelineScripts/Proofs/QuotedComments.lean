import Mathlib.Data.List.Basic
import Mathlib.Data.List.Induction
import PipelineScripts.Yaml.Reading

/-!
# Comments and quoted scalars

A line with a double-quoted scalar is read as it is meant: no `#` of the scalar starts a comment,
and one behind it does. A single-quoted scalar is left at its first quote and never entered again,
since of the two quotes that stand for one the second opens nothing. The rest of it is read as plain
text, and the line is read as it is meant just if this goes well.
-/
namespace PipelineScripts.Yaml

open Text

/-! ### Scalars on a line -/

/-- A text with each quote written twice. -/
def doubleQuotes (s : List Char) : List Char :=
  s.flatMap fun c => if c = '\'' then ['\'', '\''] else [c]

/-- A text with a backslash in front of double quotes and backslashes. -/
def escapeQuotes (s : List Char) : List Char :=
  s.flatMap fun c => if c = '"' ∨ c = '\\' then ['\\', c] else [c]

/-- A text as a single-quoted scalar. -/
def singleQuoted (s : List Char) : List Char := '\'' :: (doubleQuotes s ++ ['\''])

/-- A text as a double-quoted scalar. -/
def doubleQuoted (s : List Char) : List Char := '"' :: (escapeQuotes s ++ ['"'])

/-- What stands in front of a scalar on its line: a key, with all that precedes it, or a dash. -/
inductive ScalarLead
  | key (name : List Char) (plain : ∀ c ∈ name, c ≠ '\'' ∧ c ≠ '"' ∧ c ≠ '#')
  | item (depth : Nat)

def ScalarLead.text : ScalarLead → List Char
  | key name _ => name ++ [':', ' ']
  | item depth => List.replicate depth ' ' ++ ['-', ' ']

/-- A line, read on from a state, starts no comment, and with a comment at its end it starts this
one. -/
def HoldsNoCommentFrom (q : LineQuoting) (previous : Option Char) (line : List Char) : Prop :=
  commentStartFrom? q previous line = none ∧
    ∀ text, commentStartFrom? q previous (line ++ ' ' :: '#' :: text) = some (line.length + 1)

/-- A line starts no comment, and with a comment at its end it starts this one. -/
def HoldsNoComment (line : List Char) : Prop :=
  commentStart? line = none ∧
    ∀ text, commentStart? (line ++ ' ' :: '#' :: text) = some (line.length + 1)

/-- What may stand between double quotes. -/
inductive DoubleBody : List Char → Prop
  | nil : DoubleBody []
  | char {c : Char} {r : List Char} (hquote : c ≠ '"') (hbackslash : c ≠ '\\')
      (hr : DoubleBody r) : DoubleBody (c :: r)
  | escape {c : Char} {r : List Char} (hr : DoubleBody r) : DoubleBody ('\\' :: c :: r)

/-- A text behind a character that reads as plain text, with apostrophes as ordinary letters: it
starts no comment, it closes the double-quoted scalars it opens, and no scalar may start behind
it. -/
inductive ReadsAsPlain : Char → List Char → Prop
  | nil {p : Char} (hopens : opensScalar (some p) = false) : ReadsAsPlain p []
  | char {p c : Char} {r : List Char} (hcomment : c = '#' → isBlank p = false)
      (hquote : c = '"' → opensScalar (some p) = false) (hr : ReadsAsPlain c r) :
      ReadsAsPlain p (c :: r)
  | quoted {p : Char} {body r : List Char} (hopens : opensScalar (some p) = true)
      (hbody : DoubleBody body) (hr : ReadsAsPlain '"' r) :
      ReadsAsPlain p ('"' :: (body ++ '"' :: r))

/-! ### Reading over a text -/

/-- Reading over a text finds no comment in it, and leads from one state of the line to another. -/
def PassesOver (q : LineQuoting) (previous : Option Char) (u : List Char) (q' : LineQuoting)
    (previous' : Option Char) : Prop :=
  ∀ rest, commentStartFrom? q previous (u ++ rest) =
    (commentStartFrom? q' previous' rest).map (· + u.length)

section PassesOver

variable {q q' q'' : LineQuoting} {p p' p'' : Option Char} {u v : List Char}

theorem passesOver_nil (q : LineQuoting) (p : Option Char) : PassesOver q p [] q p := by
  intro rest
  simp

theorem PassesOver.trans (h : PassesOver q p u q' p') (h' : PassesOver q' p' v q'' p'') :
    PassesOver q p (u ++ v) q'' p'' := by
  intro rest
  rw [List.append_assoc, h, h', Option.map_map, List.length_append]
  congr 1
  funext i
  simp only [Function.comp_apply]
  omega

/-- A character that starts no comment. -/
theorem passesOver_char {c : Char} (h : q = .outside → c = '#' → p.all isBlank = false) :
    PassesOver q p [c] (q.next p c) (some c) := by
  intro rest
  rw [List.singleton_append, commentStartFrom?, if_neg]
  · rfl
  · simp only [Bool.and_eq_true, decide_eq_true_eq, not_and, Bool.not_eq_true, and_imp]
    exact h

theorem passesOver_cons {c : Char} (h : q = .outside → c = '#' → p.all isBlank = false)
    (h' : PassesOver (q.next p c) (some c) u q' p') : PassesOver q p (c :: u) q' p' :=
  (passesOver_char h).trans h'

/-- A text outside quotes that opens nothing. -/
theorem passesOver_of_forall (h : ∀ c ∈ u, c ≠ '\'' ∧ c ≠ '"' ∧ c ≠ '#') (p : Option Char) :
    ∃ p', PassesOver .outside p u .outside p' := by
  induction u generalizing p with
  | nil => exact ⟨p, passesOver_nil _ _⟩
  | cons c u ih =>
    obtain ⟨hsingle, hdouble, hhash⟩ := h c List.mem_cons_self
    obtain ⟨p', hp'⟩ := ih (fun d hd => h d (List.mem_cons_of_mem c hd)) (some c)
    refine ⟨p', passesOver_cons (fun _ heq => absurd heq hhash) ?_⟩
    simpa [LineQuoting.next, hsingle, hdouble] using hp'

/-- A text inside single quotes that has none itself. -/
theorem passesOver_single (h : '\'' ∉ u) (p : Option Char) :
    ∃ p', PassesOver .single p u .single p' := by
  induction u generalizing p with
  | nil => exact ⟨p, passesOver_nil _ _⟩
  | cons c u ih =>
    simp only [List.mem_cons, not_or] at h
    obtain ⟨p', hp'⟩ := ih h.2 (some c)
    refine ⟨p', passesOver_cons (by simp) ?_⟩
    simpa [LineQuoting.next, Ne.symm h.1] using hp'

theorem passesOver_double (h : DoubleBody u) (p : Option Char) :
    ∃ p', PassesOver .double p u .double p' := by
  induction h generalizing p with
  | nil => exact ⟨p, passesOver_nil _ _⟩
  | @char c _ hquote hbackslash _ ih =>
    obtain ⟨p', hp'⟩ := ih (some c)
    refine ⟨p', passesOver_cons (by simp) ?_⟩
    simpa [LineQuoting.next, hquote, hbackslash] using hp'
  | @escape c _ _ ih =>
    obtain ⟨p', hp'⟩ := ih (some c)
    exact ⟨p', passesOver_cons (by simp) (passesOver_cons (by simp [LineQuoting.next]) hp')⟩

/-- A double-quoted scalar, from its first quote to its last. -/
theorem passesOver_quoted (hopens : opensScalar p = true) (h : DoubleBody u) :
    PassesOver .outside p ('"' :: (u ++ ['"'])) .outside (some '"') := by
  obtain ⟨p', hp'⟩ := passesOver_double h (some '"')
  have hopen : LineQuoting.outside.next p '"' = .double := by simp [LineQuoting.next, hopens]
  refine passesOver_cons (by simp) (hopen ▸ hp'.trans ?_)
  exact passesOver_cons (by simp) (passesOver_nil _ _)

/-- Whether a line is read as it is meant is decided behind a text that is passed over. -/
theorem PassesOver.holdsNoComment_iff (h : PassesOver q p u q' p') :
    HoldsNoCommentFrom q p (u ++ v) ↔ HoldsNoCommentFrom q' p' v := by
  unfold HoldsNoCommentFrom
  refine and_congr ?_ (forall_congr' fun text => ?_)
  · rw [h, Option.map_eq_none_iff]
  · rw [List.append_assoc, h, Option.map_eq_some_iff, List.length_append]
    constructor
    · rintro ⟨i, hi, heq⟩
      rw [hi, Option.some.injEq]
      omega
    · intro hv
      exact ⟨_, hv, by omega⟩

/-- A line that is passed over without a scalar left open. -/
theorem PassesOver.holdsNoComment (h : PassesOver q p u .outside p') :
    HoldsNoCommentFrom q p u := by
  have hnil : HoldsNoCommentFrom .outside p' [] := by
    have hblank : isBlank ' ' = true := by decide
    refine ⟨rfl, fun text => ?_⟩
    simp [commentStartFrom?, LineQuoting.next, hblank]
  have hiff := h.holdsNoComment_iff (v := [])
  rw [List.append_nil] at hiff
  exact hiff.mpr hnil

end PassesOver

/-! ### Double quotes -/

namespace DoubleBody

variable {u v : List Char}

theorem append (h : DoubleBody u) (h' : DoubleBody v) : DoubleBody (u ++ v) := by
  induction h with
  | nil => exact h'
  | char hquote hbackslash _ ih => exact .char hquote hbackslash ih
  | escape _ ih => exact .escape ih

/-- No comment is found before double quotes are closed. -/
theorem commentStartFrom?_eq_none (h : DoubleBody u) (p : Option Char) :
    commentStartFrom? .double p u = none := by
  obtain ⟨p', hp'⟩ := passesOver_double h p
  simpa [commentStartFrom?] using hp' []

theorem escapeQuotes (s : List Char) : DoubleBody (escapeQuotes s) := by
  induction s with
  | nil => exact .nil
  | cons c s ih =>
    rw [Yaml.escapeQuotes, List.flatMap_cons]
    refine append ?_ ih
    split_ifs with hc
    · exact .escape .nil
    · rw [not_or] at hc
      exact .char hc.1 hc.2 .nil

/-- Writing apostrophes twice changes nothing between double quotes. -/
theorem doubleQuotes (h : DoubleBody u) : DoubleBody (doubleQuotes u) := by
  have hapostrophe : DoubleBody ['\''] := .char (by decide) (by decide) .nil
  induction h with
  | nil => exact .nil
  | @char c r hquote hbackslash _ ih =>
    rw [Yaml.doubleQuotes, List.flatMap_cons]
    refine append ?_ ih
    split_ifs
    · exact hapostrophe.append hapostrophe
    · exact .char hquote hbackslash .nil
  | @escape c r _ ih =>
    by_cases hc : c = '\''
    · subst hc
      exact .escape (hapostrophe.append ih)
    · have hpair : Yaml.doubleQuotes ('\\' :: c :: r) = '\\' :: c :: Yaml.doubleQuotes r := by
        simp [Yaml.doubleQuotes, hc]
      rw [hpair]
      exact .escape ih

end DoubleBody

/-- Behind an opening double quote comes the closing one, or the text ends without it, maybe with a
backslash. -/
theorem doubleBody_cases (u : List Char) : (∃ body r, u = body ++ '"' :: r ∧ DoubleBody body) ∨
    DoubleBody u ∨ ∃ body, u = body ++ ['\\'] ∧ DoubleBody body := by
  have hfront : ∀ front v : List Char, (∀ body, DoubleBody body → DoubleBody (front ++ body)) →
      ((∃ body r, v = body ++ '"' :: r ∧ DoubleBody body) ∨
        DoubleBody v ∨ ∃ body, v = body ++ ['\\'] ∧ DoubleBody body) →
      (∃ body r, front ++ v = body ++ '"' :: r ∧ DoubleBody body) ∨
        DoubleBody (front ++ v) ∨ ∃ body, front ++ v = body ++ ['\\'] ∧ DoubleBody body := by
    rintro front v hfront (⟨body, r, rfl, hbody⟩ | hv | ⟨body, rfl, hbody⟩)
    · exact .inl ⟨front ++ body, r, by simp, hfront body hbody⟩
    · exact .inr (.inl (hfront v hv))
    · exact .inr (.inr ⟨front ++ body, by simp, hfront body hbody⟩)
  induction u using List.twoStepInduction with
  | nil => exact .inr (.inl .nil)
  | singleton c =>
    by_cases hquote : c = '"'
    · exact .inl ⟨[], [], by simp [hquote], .nil⟩
    by_cases hbackslash : c = '\\'
    · exact .inr (.inr ⟨[], by simp [hbackslash], .nil⟩)
    · exact .inr (.inl (.char hquote hbackslash .nil))
  | cons_cons c d u ihu ih =>
    by_cases hquote : c = '"'
    · exact .inl ⟨[], d :: u, by simp [hquote], .nil⟩
    by_cases hbackslash : c = '\\'
    · subst hbackslash
      exact hfront ['\\', d] u (fun _ => .escape) ihu
    · exact hfront [c] (d :: u) (fun _ => .char hquote hbackslash) (ih d)

/-! ### Single quotes -/

theorem doubleQuotes_of_not_mem {s : List Char} (h : '\'' ∉ s) : doubleQuotes s = s := by
  rw [doubleQuotes, List.flatMap_congr (g := fun c => [c])]
  · simp
  · intro c hc
    rw [if_neg]
    rintro rfl
    exact h hc

theorem doubleQuotes_append (s t : List Char) :
    doubleQuotes (s ++ t) = doubleQuotes s ++ doubleQuotes t := List.flatMap_append

theorem doubleQuotes_cons (c : Char) (s : List Char) :
    doubleQuotes (c :: s) = doubleQuotes [c] ++ doubleQuotes s := doubleQuotes_append [c] s

theorem doubleQuotes_quoted (body r : List Char) :
    doubleQuotes ('"' :: (body ++ '"' :: r)) ++ ['\''] =
      '"' :: (doubleQuotes body ++ ['"']) ++ (doubleQuotes r ++ ['\'']) := by
  rw [doubleQuotes_cons, doubleQuotes_append, doubleQuotes_cons '"' r]
  simp [doubleQuotes]

/-- Outside quotes a pair of apostrophes is passed over. -/
theorem passesOver_apostrophes (p : Option Char) :
    PassesOver .outside p ['\'', '\''] .outside (some '\'') := by
  refine passesOver_cons (by simp) (passesOver_cons (by simp) ?_)
  cases h : opensScalar p with
  | true => simpa [LineQuoting.next, h] using passesOver_nil .outside (some '\'')
  | false =>
    have hafter : opensScalar (some '\'') = false := by decide
    simpa [LineQuoting.next, h, hafter] using passesOver_nil .outside (some '\'')

/-- One character of the text, with its quote written twice, outside quotes. -/
theorem passesOver_doubleQuotes_char {p c : Char} (hcomment : c = '#' → isBlank p = false)
    (hquote : c = '"' → opensScalar (some p) = false) :
    PassesOver .outside (some p) (doubleQuotes [c]) .outside (some c) := by
  by_cases hc : c = '\''
  · subst hc
    exact passesOver_apostrophes (some p)
  · have hnext : LineQuoting.outside.next (some p) c = .outside := by
      by_cases hdouble : c = '"'
      · simp [LineQuoting.next, hdouble, hquote hdouble]
      · simp [LineQuoting.next, hc, hdouble]
    have hchar := passesOver_char (q := .outside) (p := some p) (c := c) (by simpa using hcomment)
    rw [hnext] at hchar
    simpa [doubleQuotes, hc] using hchar

/-- A scalar that was left is read as it is meant just if it reads as plain text. -/
theorem holdsNoComment_iff_readsAsPlain {p : Char} {r : List Char} :
    HoldsNoCommentFrom .outside (some p) (doubleQuotes r ++ ['\'']) ↔ ReadsAsPlain p r := by
  constructor
  · intro h
    induction hn : r.length using Nat.strongRecOn generalizing p r with
    | ind n ih =>
      subst hn
      cases r with
      | nil =>
        refine .nil ?_
        by_contra hopens
        rw [Bool.not_eq_false] at hopens
        -- The last quote would open a scalar, with the comment in it.
        have hlost := h.2 []
        simp [doubleQuotes, commentStartFrom?, LineQuoting.next, hopens] at hlost
      | cons c r =>
        have hcomment : c = '#' → isBlank p = false := by
          rintro rfl
          by_contra hblank
          rw [Bool.not_eq_false] at hblank
          have hfound := h.1
          simp [doubleQuotes, commentStartFrom?, hblank] at hfound
        by_cases hquote : c = '"' → opensScalar (some p) = false
        · rw [doubleQuotes_cons, List.append_assoc,
            (passesOver_doubleQuotes_char hcomment hquote).holdsNoComment_iff] at h
          exact .char hcomment hquote (ih r.length (by simp) h rfl)
        · obtain ⟨rfl, hopens⟩ : c = '"' ∧ opensScalar (some p) = true := by simpa using hquote
          rcases doubleBody_cases r with ⟨body, r', rfl, hbody⟩ | hopen
          · have hclosed := passesOver_quoted hopens hbody.doubleQuotes
            rw [doubleQuotes_quoted, hclosed.holdsNoComment_iff] at h
            exact .quoted hopens hbody (ih r'.length (by simp; omega) h rfl)
          · -- The scalar is not closed, with the comment in it.
            exfalso
            have hbody : DoubleBody (doubleQuotes r ++ ['\'', ' ', '#']) := by
              rcases hopen with hr | ⟨body, rfl, hbody⟩
              · exact hr.doubleQuotes.append (.char (by decide) (by decide)
                  (.char (by decide) (by decide) (.char (by decide) (by decide) .nil)))
              · rw [doubleQuotes_append, List.append_assoc]
                exact hbody.doubleQuotes.append (.escape
                  (.char (by decide) (by decide) (.char (by decide) (by decide) .nil)))
            have hopened : LineQuoting.outside.next (some p) '"' = .double := by
              simp [LineQuoting.next, hopens]
            have hread : PassesOver .outside (some p) ['"'] .double (some '"') :=
              hopened ▸ passesOver_char (by simp)
            have hnone := hread (doubleQuotes r ++ ['\'', ' ', '#'])
            rw [hbody.commentStartFrom?_eq_none] at hnone
            have hlost := h.2 []
            rw [doubleQuotes_cons, List.append_assoc, List.append_assoc] at hlost
            exact absurd (hnone.symm.trans hlost) (by simp)
  · intro h
    induction h with
    | @nil p hopens =>
      have hstays : LineQuoting.outside.next (some p) '\'' = .outside := by
        simp [LineQuoting.next, hopens]
      have hread := passesOver_char (q := .outside) (p := some p) (c := '\'') (by simp)
      rw [hstays] at hread
      exact hread.holdsNoComment
    | @char p c r hcomment hquote _ ih =>
      rw [doubleQuotes_cons, List.append_assoc,
        (passesOver_doubleQuotes_char hcomment hquote).holdsNoComment_iff]
      exact ih
    | @quoted p body r hopens hbody _ ih =>
      rw [doubleQuotes_quoted, (passesOver_quoted hopens hbody.doubleQuotes).holdsNoComment_iff]
      exact ih

/-! ### Lines -/

theorem ScalarLead.passesOver (lead : ScalarLead) :
    PassesOver .outside none lead.text .outside (some ' ') := by
  have hend : ∀ (p : Option Char) {c : Char}, c = ':' ∨ c = '-' →
      PassesOver .outside p [c, ' '] .outside (some ' ') := by
    have hhash : ∀ {q : LineQuoting} {p : Option Char} {d : Char}, d ≠ '#' →
        q = .outside → d = '#' → p.all isBlank = false := fun hd _ heq => absurd heq hd
    rintro p c (rfl | rfl)
    · exact passesOver_cons (hhash (by decide)) (passesOver_char (hhash (by decide)))
    · exact passesOver_cons (hhash (by decide)) (passesOver_char (hhash (by decide)))
  cases lead with
  | key name plain =>
    obtain ⟨p, hname⟩ := passesOver_of_forall plain none
    exact hname.trans (hend p (.inl rfl))
  | item depth =>
    have hspaces : ∀ c ∈ List.replicate depth ' ', c ≠ '\'' ∧ c ≠ '"' ∧ c ≠ '#' := by
      intro c hc
      rw [List.eq_of_mem_replicate hc]
      decide
    obtain ⟨p, hdepth⟩ := passesOver_of_forall hspaces none
    exact hdepth.trans (hend p (.inr rfl))

/-- A line with a double-quoted scalar is always read as it is meant: it starts no comment, and one
at its end starts where it is written. A line with a single-quoted scalar is read so just if the
text behind the first quote of the scalar reads as plain text: it starts no comment itself, closes
the double-quoted scalars it opens, and no scalar may start behind it. -/
theorem quoted_scalars_hold_no_comment_iff (lead : ScalarLead) (s : List Char) :
    HoldsNoComment (lead.text ++ doubleQuoted s) ∧
      (HoldsNoComment (lead.text ++ singleQuoted s) ↔
        ∀ front rest, s = front ++ '\'' :: rest → '\'' ∉ front → ReadsAsPlain '\'' rest) := by
  have hspace : opensScalar (some ' ') = true := by decide
  constructor
  · exact (lead.passesOver.trans
      (passesOver_quoted hspace (.escapeQuotes s))).holdsNoComment
  · have hlead : HoldsNoComment (lead.text ++ singleQuoted s) ↔
        HoldsNoCommentFrom .outside (some ' ') (singleQuoted s) :=
      lead.passesOver.holdsNoComment_iff
    have hopen : ∀ {front : List Char}, '\'' ∉ front →
        PassesOver .outside (some ' ') ('\'' :: (front ++ ['\''])) .outside (some '\'') := by
      intro front hfront
      obtain ⟨p, hp⟩ := passesOver_single hfront (some '\'')
      exact passesOver_cons (by simp) (hp.trans (passesOver_char (by simp)))
    rw [hlead]
    by_cases hquote : '\'' ∈ s
    · obtain ⟨front, rest, rfl, hfront⟩ := List.eq_append_cons_of_mem hquote
      have hsplit : singleQuoted (front ++ '\'' :: rest) =
          '\'' :: (front ++ ['\'']) ++ ['\''] ++ (doubleQuotes rest ++ ['\'']) := by
        rw [singleQuoted, doubleQuotes_append, doubleQuotes_cons, doubleQuotes_of_not_mem hfront]
        simp [doubleQuotes]
      have hleft := (hopen hfront).trans (passesOver_char (c := '\'') (by simp))
      rw [hsplit, hleft.holdsNoComment_iff]
      refine holdsNoComment_iff_readsAsPlain.trans ⟨fun hplain front' rest' heq hfront' => ?_, ?_⟩
      · have hsame : rest = rest' := by
          rcases List.append_eq_append_iff.mp heq with ⟨c, hc, hr⟩ | ⟨c, hc, hr⟩ <;>
            cases c <;> simp_all
        exact hsame ▸ hplain
      · exact fun hplain => hplain front rest rfl hfront
    · refine iff_of_true ?_ ?_
      · rw [singleQuoted, doubleQuotes_of_not_mem hquote]
        exact (hopen hquote).holdsNoComment
      · rintro front rest rfl -
        simp at hquote

/-- A value with an apostrophe and a number sign. -/
def numberedItem : List Char := ['i', 't', '\'', 's', ' ', '#', '1']

/-- The apostrophe lets the number sign start a comment. -/
theorem numberedItem_starts_comment :
    commentStart? ((ScalarLead.key ['a'] (by simp)).text ++ singleQuoted numberedItem) = some 10 ∧
      (File.parse "ci.yml" "a: 'it''s #1'\n").toOption.map (fun f => f.entryComments 2) =
        some [⟨1, "1'"⟩] := by
  decide +kernel

end PipelineScripts.Yaml
