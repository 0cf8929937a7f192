import PipelineScripts.Proofs.MarkedOffsets
import PipelineScripts.Proofs.WrittenTokens

/-!
# Lines are counted

Every mark that the scanner keeps is that of a cursor it had. So every token stands at a mark of the
text, on a line from one on. A step of the scanner keeps this of its cursor, of the tokens it has
queued and of the keys that may have started, and so does a run.
-/
namespace PipelineScripts.Yaml

open Cursor

/-- A block scalar starts at its indicator or behind it. -/
theorem Cursor.exists_reaches_start_readBlock? {folded : Bool} {parent : Int} {c : Cursor}
    {b : BlockRead} (hindicator : isLineEnd c.peek = false)
    (h : readBlock? folded parent c = some b) : ∃ c', c.Reaches c' ∧ b.start = c'.mark := by
  obtain ⟨s⟩ := exists_blockStages h
  obtain ⟨-, hb⟩ | ⟨-, -, body, -, hb⟩ := s.result
  · exact ⟨c, .refl c, congrArg BlockRead.start hb⟩
  · exact ⟨s.first, s.reaches_first hindicator, congrArg BlockRead.start hb⟩

namespace Scanner

variable {source : List Char} {s s' : Scanner}

/-- Every mark that a scanner of a text keeps is a mark of the text. -/
structure Counts (source : List Char) (s : Scanner) : Prop where
  cursor : s.cursor.In source
  queue : ∀ t ∈ s.queue, t.span.start.IsOf source
  keys : ∀ key ∈ s.keys, key.mark.IsOf source

namespace Counts

theorem push (h : s.Counts source) (kind : TokenKind) {span : Span}
    (hspan : span.start.IsOf source) : (s.push kind span).Counts source := by
  refine ⟨h.cursor, fun t ht => ?_, h.keys⟩
  rcases List.mem_append.mp ht with ht | ht
  · exact h.queue t ht
  · rw [List.mem_singleton.mp ht]
    exact hspan

theorem insertAt (h : s.Counts source) {number : Nat} {kind : TokenKind} {mark : Mark}
    (hmark : mark.IsOf source) : (s.insertAt number kind mark).Counts source := by
  refine ⟨h.cursor, fun t ht => ?_, h.keys⟩
  rcases List.mem_append.mp ht with ht | ht
  · exact h.queue t (List.mem_of_mem_take ht)
  rcases List.mem_cons.mp ht with rfl | ht
  · exact hmark
  · exact h.queue t (List.mem_of_mem_drop ht)

end Counts

theorem lastsOn_counts (source : List Char) : LastsOn (Counts source) (·.IsOf source) where
  mark := fun h => h.cursor.isOf
  keys := fun h => h.keys
  start := .offset (Nat.zero_le _) rfl
  update := fun h hcursor hqueue hkeys => ⟨hcursor ▸ h.cursor, hqueue ▸ h.queue, hkeys⟩
  push := fun h _ hspan => h.push _ hspan
  insertAt := fun h _ hmark => h.insertAt hmark
  move := fun h hc => ⟨h.cursor.reaches hc, h.queue, h.keys⟩

namespace Counts

/-! ### Tokens with text, and the end -/

/-- The end of the text changes its line. -/
theorem streamEnd? (h : s.Counts source) (hend : isEnd s.cursor.peek = true)
    (hs' : s.streamEnd? = some s') : s'.Counts source := by
  unfold Scanner.streamEnd? at hs'
  extract_lets mark last c s₁ s₂ at hs'
  obtain ⟨-, hs'⟩ := of_guard_eq_some hs'
  obtain ⟨s₃, hremove, hs'⟩ := Option.bind_eq_some_iff.mp hs'
  cases hs'
  have hs₁ : s₁.Counts source := by
    refine ⟨?_, h.queue, h.keys⟩
    unfold s₁ last mark
    dsimp only
    split_ifs with hcolumn
    · exact h.cursor
    · exact h.cursor.last hend hcolumn
  have hs₂ : s₂.Counts source := by
    refine ⟨hs₁.cursor, hs₁.queue, fun key hkey => ?_⟩
    obtain ⟨old, hold, rfl⟩ := List.mem_map.mp hkey
    exact hs₁.keys old hold
  have hlasts := lastsOn_counts source
  have hs₃ : s₃.Counts source := hlasts.unrolled hs₂ hremove
  refine push ?_ _ hs₃.cursor.isOf
  exact hlasts.same hs₃ rfl rfl rfl

theorem anchor? (h : s.Counts source) {isAlias : Bool} (hpeek : isLineEnd s.cursor.peek = false)
    (hs' : s.anchor? isAlias = some s') : s'.Counts source := by
  unfold Scanner.anchor? at hs'
  extract_lets mark saved s₁ c name s₂ at hs'
  rcases of_ite_eq hs' with ⟨-, hs'⟩ | hs'
  · cases hs'
  cases hs'
  have hlasts := lastsOn_counts source
  have hs₁ : s₁.Counts source := hlasts.saved h false
  rw [← (lasts_cursor s.cursor).saved rfl false] at hpeek
  have hname : s₁.cursor.Reaches (c.pass name.length) :=
    (reaches_pass_one hpeek).trans
      (reaches_pass_takeWhile fun _ => isLineEnd_of_isAnchorNameChar)
  exact (hlasts.move hs₁ hname).push _ h.cursor.isOf

theorem blockScalar? (h : s.Counts source) {folded : Bool} (hpeek : isLineEnd s.cursor.peek = false)
    (hs' : s.blockScalar? folded = some s') : s'.Counts source := by
  obtain ⟨b, hread, hs'⟩ := Option.bind_eq_some_iff.mp hs'
  cases hs'
  have hlasts := lastsOn_counts source
  have hcursor := (lasts_cursor s.cursor).unrollOnes ((lasts_cursor _).saved rfl true)
  rw [← hcursor] at hpeek
  have hs₁ := hlasts.unrollOnes (hlasts.saved h true)
  refine (hlasts.move hs₁ (reaches_readBlock? hpeek hread)).push _ ?_
  obtain ⟨c, hc, hstart⟩ := exists_reaches_start_readBlock? hpeek hread
  rw [hstart]
  exact (hs₁.cursor.reaches hc).isOf

theorem plainScalar? (h : s.Counts source) (hs' : s.plainScalar? = some s') : s'.Counts source := by
  obtain ⟨p, hread, hs'⟩ := Option.bind_eq_some_iff.mp hs'
  cases hs'
  have hlasts := lastsOn_counts source
  have hs₁ := hlasts.unrollOnes (hlasts.saved h false)
  refine push ?_ _ h.cursor.isOf
  exact hlasts.same (hlasts.move hs₁ (reaches_readPlain? hread)) rfl rfl rfl

/-! ### Steps and runs -/

theorem readToken? (h : s.Counts source) (hs' : s.readToken? = some s') : s'.Counts source := by
  rcases (lastsOn_counts source).readToken? h hs' with hs | htext
  · exact hs
  cases htext with
  | streamEnd hend hs' => exact h.streamEnd? hend hs'
  | @anchor isAlias hpeek hs' =>
    refine h.anchor? ?_ hs'
    rw [hpeek]
    cases isAlias <;> decide
  | @blockScalar folded hpeek hs' =>
    refine h.blockScalar? ?_ hs'
    rw [hpeek]
    cases folded <;> decide
  | plainScalar hs' => exact h.plainScalar? hs'

theorem step? (h : s.Counts source) (hs' : s.step? = some s') : s'.Counts source := by
  by_cases hstarted : s.started = true
  · rw [step?_of_started hstarted] at hs'
    obtain ⟨s₁, hprepare, hread⟩ := Option.bind_eq_some_iff.mp hs'
    exact ((lastsOn_counts source).prepare? h hprepare).readToken? hread
  · rw [step?_of_not_started (Bool.eq_false_iff.mpr hstarted)] at hs'
    cases hs'
    exact (lastsOn_counts source).streamStart h

theorem settle? (h : s.Counts source) {fuel : Nat} (hs' : Scanner.settle? fuel s = some s') :
    s'.Counts source := by
  induction fuel generalizing s with
  | zero =>
    cases hs'
    exact h
  | succ fuel ih =>
    rw [Scanner.settle?] at hs'
    rcases of_ite_eq hs' with ⟨-, hs'⟩ | hs'
    · obtain ⟨s₁, hstep, hs'⟩ := Option.bind_eq_some_iff.mp hs'
      exact ih (h.step? hstep) hs'
    split at hs'
    next => cases hs'
    next s₁ hstale =>
      have hs₁ := (lastsOn_counts source).staleKeys? h hstale
      rcases of_ite_eq hs' with ⟨-, hs'⟩ | hs'
      · obtain ⟨s₂, hstep, hs'⟩ := Option.bind_eq_some_iff.mp hs'
        exact ih (hs₁.step? hstep) hs'
      · cases hs'
        exact hs₁

theorem tokens (h : s.Counts source) (fuel : Nat) :
    ∀ t ∈ (Scanner.tokens fuel s).tokens, t.span.start.IsOf source := by
  induction fuel generalizing s with
  | zero => simp [Scanner.tokens]
  | succ fuel ih =>
    rw [tokens_succ]
    split
    next => simp
    next s₁ hsettle =>
      have hs₁ := h.settle? hsettle
      unfold emit
      split
      next => simp
      next token queue hqueue =>
        have hall := hs₁.queue
        rw [hqueue] at hall
        have htoken := hall token List.mem_cons_self
        have hrest : ({ s₁ with queue, emitted := s₁.emitted + 1 } : Scanner).Counts source :=
          ⟨hs₁.cursor, fun t ht => hall t (List.mem_cons_of_mem token ht), hs₁.keys⟩
        split_ifs
        · simpa using htoken
        · intro t ht
          rcases List.mem_cons.mp ht with rfl | ht
          · exact htoken
          · exact ih hrest t ht

end Counts

end Scanner

/-- Every token of a text stands at a mark of the text. -/
theorem isOf_of_mem_scan {source : List Char} {t : Token} (h : t ∈ (scan source).tokens) :
    t.span.start.IsOf source := by
  have hstart : ({ cursor := { rest := source } } : Scanner).Counts source :=
    ⟨.start source, fun t ht => absurd ht List.not_mem_nil,
      fun key hkey => absurd hkey List.not_mem_nil⟩
  exact hstart.tokens _ t h

/-- Every token of a text stands on a line from one on. -/
theorem one_le_line_of_mem_scan {source : List Char} {t : Token} (h : t ∈ (scan source).tokens) :
    1 ≤ t.span.start.line := (isOf_of_mem_scan h).one_le_line

end PipelineScripts.Yaml
