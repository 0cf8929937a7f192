import PipelineScripts.Proofs.FoldedLines
import PipelineScripts.Proofs.FoldedValues
import PipelineScripts.Proofs.PlainTexts

/-!
# Lines that go on

Where YAML folds plain lines it puts a space between them. The script that is made of such lines
keeps them and ends each but the last with a space and a backslash. A shell drops a backslash with
the line break behind it, so what it reads is the text that YAML reads.
-/
namespace PipelineScripts.Script

open Text Yaml

/-! ### Joining lines -/

/-- A joined text ends like its last piece. -/
theorem exists_join_eq (sep : List Char) {ls : List (List Char)} (h : ls ≠ []) :
    ∃ front, ∃ l ∈ ls, join sep ls = front ++ l := by
  rcases List.eq_nil_or_concat ls with rfl | ⟨before, last, rfl⟩
  · exact absurd rfl h
  · rw [List.concat_eq_append]
    by_cases hbefore : before = []
    · exact ⟨[], last, by simp, by simp [hbefore]⟩
    · exact ⟨join sep before ++ sep, last, by simp, by simp [join_concat sep hbefore]⟩

namespace LineBreak

theorem splitCrlf_cons {c : Char} (hc : c ≠ '\r') (r : List Char) :
    splitCrlf (c :: r) = consFirst c (splitCrlf r) :=
  splitCrlf.eq_3 c r fun _ heq => absurd heq hc

theorem splitCrlf_append {l : List Char} (h : '\r' ∉ l) (r : List Char) :
    splitCrlf (l ++ '\r' :: '\n' :: r) = l :: splitCrlf r := by
  induction l with
  | nil => rfl
  | cons c l ih =>
    simp only [List.mem_cons, not_or] at h
    rw [List.cons_append, splitCrlf_cons (Ne.symm h.1), ih h.2, consFirst]

theorem splitCrlf_of_not_mem {l : List Char} (h : '\r' ∉ l) : splitCrlf l = [l] := by
  induction l with
  | nil => rfl
  | cons c l ih =>
    simp only [List.mem_cons, not_or] at h
    rw [splitCrlf_cons (Ne.symm h.1), ih h.2, consFirst]

/-- Lines are found again in the text they are joined to. -/
theorem split_join_chars (br : LineBreak) {ls : List (List Char)} (hne : ls ≠ [])
    (h : ∀ l ∈ ls, Unbroken l) : br.split (join br.chars ls) = ls := by
  cases br with
  | lf => exact split_join hne fun l hl => (h l hl).newline
  | crlf =>
    induction ls with
    | nil => exact absurd rfl hne
    | cons l ls ih =>
      have hl := (h l (by simp)).return_
      cases ls with
      | nil => simpa [split] using splitCrlf_of_not_mem hl
      | cons m ls =>
        rw [join_cons_cons]
        exact (splitCrlf_append hl _).trans
          (congrArg (l :: ·) (ih (by simp) fun x hx => h x (List.mem_cons_of_mem l hx)))

/-- The break between lines is found, if there is one. -/
theorem ofText_join (br : LineBreak) {ls : List (List Char)} (hlength : 1 < ls.length)
    (h : ∀ l ∈ ls, Unbroken l) : ofText (join br.chars ls) = br := by
  cases br with
  | lf =>
    refine ofText_eq_lf fun hreturn => ?_
    rcases mem_join hreturn with hmem | ⟨l, hl, hmem⟩
    · simp [chars] at hmem
    · exact (h l hl).return_ hmem
  | crlf =>
    have hne : ls ≠ [] := List.ne_nil_of_length_pos (by omega)
    have hsplit : splitCrlf (join crlf.chars ls) = ls := split_join_chars .crlf hne h
    rw [ofText, hsplit, if_neg (by omega)]

end LineBreak

/-! ### Plain lines -/

/-- A line that is neither blank nor a comment, has no blanks in front and does not end in a
backslash. -/
structure IsPlainLine (l : List Char) : Prop extends Unbroken l where
  notBlank : isAllBlank l = false
  first : ∀ c ∈ l.head?, isBlank c = false ∧ c ≠ '#'
  last : l.getLast? ≠ some '\\'

theorem isPlainLine_iff {l : List Char} : IsPlainLine l ↔
    ('\n' ∉ l ∧ '\r' ∉ l) ∧ isAllBlank l = false ∧
      (l.head?.all fun c => !isBlank c && c != '#') = true ∧ l.getLast? ≠ some '\\' := by
  have hfirst : (l.head?.all fun c => !isBlank c && c != '#') = true ↔
      ∀ c ∈ l.head?, isBlank c = false ∧ c ≠ '#' := by
    cases l <;> simp
  rw [hfirst]
  exact ⟨fun h => ⟨⟨h.newline, h.return_⟩, h.notBlank, h.first, h.last⟩,
    fun ⟨h, hblank, hfirst, hlast⟩ => ⟨⟨h.1, h.2⟩, hblank, hfirst, hlast⟩⟩

instance (l : List Char) : Decidable (IsPlainLine l) := decidable_of_iff _ isPlainLine_iff.symm

namespace IsPlainLine

variable {l : List Char}

theorem exists_cons (h : IsPlainLine l) : ∃ c r, l = c :: r ∧ isBlank c = false ∧ c ≠ '#' := by
  cases l with
  | nil => exact absurd h.notBlank (by decide)
  | cons c r => exact ⟨c, r, rfl, h.first c (by simp)⟩

theorem ne_nil (h : IsPlainLine l) : l ≠ [] := by
  obtain ⟨c, r, rfl, -⟩ := h.exists_cons
  simp

theorem continueLine_eq (h : IsPlainLine l) (isLast : Bool) :
    continueLine isLast l = l ++ if isLast then [] else [' ', '\\'] := by
  obtain ⟨c, r, rfl, hc, hcomment⟩ := h.exists_cons
  have htrim : trimStart (c :: r) = c :: r := by simp [trimStart, hc]
  unfold continueLine
  rw [htrim]
  cases isLast <;> simp [hcomment]

end IsPlainLine

variable {body : List (List Char)}

/-- Plain lines are continued by what joins them. -/
theorem join_continueLines (sep : List Char) (h : ∀ l ∈ body, IsPlainLine l) :
    join sep (continueLines body) = join (' ' :: '\\' :: sep) body := by
  induction body with
  | nil => rfl
  | cons l body ih =>
    have hl := h l (by simp)
    have ih := ih fun m hm => h m (List.mem_cons_of_mem l hm)
    cases body with
    | nil => simp [continueLines, hl.continueLine_eq]
    | cons m body =>
      obtain ⟨x, ls, hrest⟩ := List.exists_cons_of_length_pos
        (show 0 < (continueLines (m :: body)).length by simp [length_continueLines])
      rw [continueLines.eq_3 l (m :: body) (by simp), hl.continueLine_eq, join_cons_cons, ← ih,
        hrest, join_cons_cons]
      simp

theorem unbroken_ended (h : ∀ l ∈ body, IsPlainLine l) (ended : Bool) :
    ∀ l ∈ body ++ (if ended then [[]] else []), Unbroken l := by
  intro l hl
  rcases List.mem_append.mp hl with hl | hl
  · exact (h l hl).toUnbroken
  · cases ended with
    | false => simp at hl
    | true =>
      rw [List.mem_singleton.mp hl]
      exact .nil

theorem join_ended {sep : List Char} (hne : body ≠ []) (ended : Bool) :
    join sep body ++ (if ended then sep else []) =
      join sep (body ++ if ended then [[]] else []) := by
  cases ended with
  | false => simp
  | true => simp [join_concat sep hne]

/-- A text of plain lines does not end in a line break. -/
theorem isSuffixOf?_chars_eq_none (br : LineBreak) (hne : body ≠ [])
    (h : ∀ l ∈ body, IsPlainLine l) (sep : List Char) :
    br.chars.isSuffixOf? (join sep body) = none := by
  obtain ⟨front, l, hl, hjoin⟩ := exists_join_eq sep hne
  have hplain := h l hl
  rw [Option.eq_none_iff_forall_ne_some]
  intro x hx
  rw [List.isSuffixOf?_eq_some_iff_append_eq, hjoin] at hx
  have hlast := congrArg List.getLast? hx
  rw [List.getLast?_append_of_ne_nil _ hplain.ne_nil] at hlast
  have hbreak : (x ++ br.chars).getLast? = some '\n' := by
    cases br <;> simp [LineBreak.chars]
  rw [hbreak] at hlast
  exact hplain.newline (List.mem_of_getLast? hlast.symm)

/-! ### Rebuilding a body -/

/-- With the right line break, the lines of a body are found, continued and joined again. -/
theorem foldLiteral_of_ofText (br : LineBreak) (ended : Bool) (hne : body ≠ [])
    (h : ∀ l ∈ body, IsPlainLine l)
    (hbr : LineBreak.ofText (join br.chars body ++ if ended then br.chars else []) = br) :
    foldLiteral (join br.chars body ++ if ended then br.chars else []) =
      join (' ' :: '\\' :: br.chars) body ++ if ended then br.chars else [] := by
  have hsplit := br.split_join_chars hne fun l hl => (h l hl).toUnbroken
  have hsome : join br.chars body ≠ [] := by
    obtain ⟨front, l, hl, hjoin⟩ := exists_join_eq br.chars hne
    simp [hjoin, (h l hl).ne_nil]
  unfold foldLiteral
  rw [hbr]
  dsimp only
  cases ended with
  | false =>
    have hnone := isSuffixOf?_chars_eq_none br hne h br.chars
    simp only [Bool.false_eq_true, if_false, List.append_nil, hnone, hsome, hsplit,
      join_continueLines br.chars h]
  | true =>
    have hsuffix : br.chars.isSuffixOf? (join br.chars body ++ br.chars) =
        some (join br.chars body) := List.isSuffixOf?_eq_some_iff_append_eq.mpr rfl
    simp only [if_true, hsuffix, hsplit, join_continueLines br.chars h]

/-- The script of a body of plain lines has these lines, each but the last continued. -/
theorem foldLiteral_join (br : LineBreak) (ended : Bool) (hne : body ≠ [])
    (h : ∀ l ∈ body, IsPlainLine l) :
    foldLiteral (join br.chars body ++ if ended then br.chars else []) =
      join (' ' :: '\\' :: br.chars) body ++ if ended then br.chars else [] := by
  rcases Nat.lt_or_ge 1 (body ++ if ended then [[]] else []).length with hlength | hlength
  · refine foldLiteral_of_ofText br ended hne h ?_
    rw [join_ended hne]
    exact br.ofText_join hlength (unbroken_ended h ended)
  · -- A single line without a break at its end is the same with any line break.
    cases ended with
    | true =>
      have hpos := List.length_pos_iff.mpr hne
      simp only [if_true, List.length_append, List.length_singleton] at hlength
      omega
    | false =>
      simp only [Bool.false_eq_true, if_false, List.append_nil] at hlength
      obtain ⟨l, rfl⟩ : ∃ l, body = [l] := by
        have hpos := List.length_pos_iff.mpr hne
        exact List.length_eq_one_iff.mp (by omega)
      have hlf := foldLiteral_of_ofText .lf false hne h
        (LineBreak.ofText_eq_lf (by simpa using (h l (by simp)).return_))
      simpa using hlf

/-! ### Reading the script -/

/-- What a shell reads of a text: a backslash is dropped with the line break behind it. -/
def joinContinued : LineBreak → List Char → List Char
  | _, [] => []
  | .lf, '\\' :: '\n' :: r => joinContinued .lf r
  | .crlf, '\\' :: '\r' :: '\n' :: r => joinContinued .crlf r
  | br, c :: r => c :: joinContinued br r

theorem joinContinued_cons (br : LineBreak) {c : Char} {r : List Char}
    (h : c ≠ '\\' ∨ ∃ d ∈ r.head?, d ≠ '\n' ∧ d ≠ '\r') :
    joinContinued br (c :: r) = c :: joinContinued br r := by
  refine joinContinued.eq_4 br c r ?_ ?_
  · rintro s - rfl rfl
    simp at h
  · rintro s - rfl rfl
    simp at h

/-- Nothing is dropped from a line, unless a backslash at its end goes on. -/
theorem joinContinued_append (br : LineBreak) {l : List Char} (h : Unbroken l)
    (hlast : l.getLast? ≠ some '\\') (r : List Char) :
    joinContinued br (l ++ r) = l ++ joinContinued br r := by
  induction l with
  | nil => rfl
  | cons c l ih =>
    have hl : Unbroken l := h.of_subset fun d hd => List.mem_cons_of_mem c hd
    cases l with
    | nil =>
      have hc : c ≠ '\\' := by simpa using hlast
      exact joinContinued_cons br (.inl hc)
    | cons d l =>
      have hd : d ≠ '\n' ∧ d ≠ '\r' :=
        ⟨fun heq => h.newline (by simp [heq]), fun heq => h.return_ (by simp [heq])⟩
      rw [List.cons_append, joinContinued_cons br (.inr ⟨d, by simp, hd⟩),
        ih hl (by simpa using hlast)]
      rfl

/-- A line that goes on is followed by a space. -/
theorem joinContinued_line (br : LineBreak) {l : List Char} (hl : IsPlainLine l) (r : List Char) :
    joinContinued br (l ++ ' ' :: '\\' :: (br.chars ++ r)) = l ++ ' ' :: joinContinued br r := by
  have hdrop : joinContinued br ('\\' :: (br.chars ++ r)) = joinContinued br r := by
    cases br <;> rfl
  rw [joinContinued_append br hl.toUnbroken hl.last, joinContinued_cons br (.inl (by decide)),
    hdrop]

/-- Continued lines are read as one, with spaces between them. -/
theorem joinContinued_join (br : LineBreak) (ended : Bool) (h : ∀ l ∈ body, IsPlainLine l) :
    joinContinued br (join (' ' :: '\\' :: br.chars) body ++ if ended then br.chars else []) =
      join [' '] body ++ if ended then br.chars else [] := by
  have hend : joinContinued br (if ended then br.chars else []) =
      if ended then br.chars else [] := by
    cases ended <;> cases br <;> rfl
  induction body with
  | nil => exact hend
  | cons l body ih =>
    have hl := h l (by simp)
    have ih := ih fun x hx => h x (List.mem_cons_of_mem l hx)
    cases body with
    | nil =>
      rw [join_singleton, joinContinued_append br hl.toUnbroken hl.last, hend, join_singleton]
    | cons m body =>
      simp only [join_cons_cons, List.cons_append, List.append_assoc, List.nil_append] at ih ⊢
      rw [joinContinued_line br hl, ih]

/-! ### Reading the value -/

/-- Behind a line that starts with no blank, plain lines are folded with spaces between them. -/
theorem foldLines_plain (ended : Bool) (hne : body ≠ []) (h : ∀ l ∈ body, IsPlainLine l)
    (last : Option Bool) (breaks : Nat) :
    foldLines last breaks (body ++ if ended then [[]] else []) =
      foldBreaks last false breaks ++ (join [' '] body ++ if ended then ['\n'] else []) := by
  induction body generalizing last breaks with
  | nil => exact absurd rfl hne
  | cons l body ih =>
    obtain ⟨c, r, rfl, hc, -⟩ := (h l (by simp)).exists_cons
    have hblank : isSpaceOrTab c = false := by
      by_contra hspace
      rw [isBlank_of_isSpaceOrTab (Bool.not_eq_false _ ▸ hspace)] at hc
      cases hc
    cases body with
    | nil => cases ended <;> simp [foldLines, hblank]
    | cons m body =>
      have ih := ih (by simp) (fun x hx => h x (List.mem_cons_of_mem _ hx)) (some false) 1
      have hspace : foldBreaks (some false) false 1 = [' '] := rfl
      rw [List.cons_append, foldLines, hblank, ih, hspace, join_cons_cons]
      simp

/-- Plain lines are folded to one, with spaces between them. -/
theorem foldText_join (ended : Bool) (hne : body ≠ []) (h : ∀ l ∈ body, IsPlainLine l) :
    foldText (join ['\n'] body ++ if ended then ['\n'] else []) =
      join [' '] body ++ if ended then ['\n'] else [] := by
  have hsplit : split (· == '\n') (join ['\n'] body ++ if ended then ['\n'] else []) =
      body ++ if ended then [[]] else [] := by
    rw [join_ended hne]
    exact split_join (by simp [hne]) fun l hl => (unbroken_ended h ended l hl).newline
  rw [foldText, hsplit, foldLines_plain ended hne h]
  rfl

/-- The script of a folded scalar means what YAML folds. Of a body of plain lines, whatever its
line breaks are, it is made by joining the lines with a space, a backslash and a line break. A shell
reads it as the lines with single spaces between them, and so does YAML: where the body is the value
of a literal scalar, this is the value of a folded one in its place. -/
theorem shell_reads_what_yaml_folds (br : LineBreak) (ended : Bool) (hne : body ≠ [])
    (h : ∀ l ∈ body, IsPlainLine l) :
    let raw := join br.chars body ++ if ended then br.chars else []
    foldLiteral raw = join (' ' :: '\\' :: br.chars) body ++ (if ended then br.chars else []) ∧
    joinContinued br (foldLiteral raw) = join [' '] body ++ (if ended then br.chars else []) ∧
    ∀ (parent : Int) (c : Cursor) (b : BlockRead), readBlock? false parent c = some b →
      b.text = join ['\n'] body ++ (if ended then ['\n'] else []) →
      readBlock? true parent c =
        some { b with text := join [' '] body ++ if ended then ['\n'] else [] } := by
  intro raw
  have hscript := foldLiteral_join br ended hne h
  refine ⟨hscript, ?_, fun parent c b hread htext => ?_⟩
  · rw [hscript, joinContinued_join br ended h]
  · rw [readBlock?_true, hread, Option.map_some, htext, foldText_join ended hne h]

/-- A command on three lines with carriage returns, as a shell and as YAML read it. -/
theorem dockerLines_folded :
    joinContinued .crlf (foldLiteral "docker build\r\n--pull\r\n.\r\n".toList) =
      "docker build --pull .\r\n".toList ∧
    (readBlock? true (-1) { rest := ">\r\n  docker build\r\n  --pull\r\n  .\r\n".toList }).map
      (·.text) = some "docker build --pull .\n".toList := by
  have hliteral :
      (readBlock? false (-1) { rest := ">\r\n  docker build\r\n  --pull\r\n  .\r\n".toList }).map
        (·.text) = some "docker build\n--pull\n.\n".toList := by decide +kernel
  obtain ⟨b, hread, htext⟩ := Option.map_eq_some_iff.mp hliteral
  have hlines : ∀ l ∈ ["docker build".toList, "--pull".toList, ".".toList], IsPlainLine l := by
    decide
  obtain ⟨-, hshell, hvalue⟩ := shell_reads_what_yaml_folds .crlf true (by simp) hlines
  exact ⟨hshell, by rw [hvalue (-1) _ b hread htext]; rfl⟩

end PipelineScripts.Script
