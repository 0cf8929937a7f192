import PipelineScripts.Proofs.ScalarMoves

/-!
# Steps of the scanner

A step of the scanner is made of a few kinds of changes: it moves the cursor on, it queues a token
with a mark that it has met, and it changes what it has noted. A property that these changes keep is
kept by every function of the scanner that reads a token of structure. What is left are the tokens
whose text is of interest, and the end of the stream.
-/
namespace PipelineScripts.Yaml

open Cursor

/-- A kind of token that may be queued anywhere, and of which nothing is asked. -/
def TokenKind.isFree : TokenKind → Bool
  | .aliasOf _ | .anchor _ | .scalar .plain _ | .scalar .literal _ | .scalar .folded _
  | .streamEnd => false
  | _ => true

namespace Scanner

variable {s s' : Scanner}

/-! ### Where the cursor goes -/

theorem reaches_skipToToken? {fuel : Nat} (h : skipToToken? fuel s = some s') :
    s.cursor.Reaches s'.cursor ∧ s'.queue = s.queue ∧ s'.keys = s.keys := by
  fun_induction skipToToken? fuel s with
  | case1 | case8 =>
    cases h
    exact ⟨.refl _, rfl, rfl⟩
  | case2 fuel s c _ b hb _ ih =>
    obtain ⟨hreach, hsame⟩ := ih h
    exact ⟨(reaches_skipBlanks? hb).trans hreach, hsame⟩
  | case3 | case4 => cases h
  | case5 fuel s c _ hblank ih =>
    obtain ⟨hreach, hsame⟩ := ih h
    exact ⟨(reaches_skip_one (isLineEnd_of_isSpaceOrTab hblank)).trans hreach, hsame⟩
  | case6 fuel s c _ _ _ ih =>
    obtain ⟨hreach, hsame⟩ := ih h
    exact ⟨(reaches_skipBreak _).trans hreach, hsame⟩
  | case7 fuel s c _ _ _ _ ih =>
    obtain ⟨hreach, hsame⟩ := ih h
    exact ⟨(reaches_skipLine _).trans hreach, hsame⟩

theorem reaches_skipAfterKey (fuel : Nat) (s : Scanner) :
    s.cursor.Reaches (s.skipAfterKey fuel).cursor ∧ (s.skipAfterKey fuel).queue = s.queue ∧
      (s.skipAfterKey fuel).keys = s.keys := by
  fun_induction skipAfterKey fuel s with
  | case1 | case5 => exact ⟨.refl _, rfl, rfl⟩
  | case2 fuel s c hspace ih =>
    have hend : isLineEnd s.cursor.peek = false := by
      rw [hspace]
      decide
    exact ⟨(reaches_skip_one hend).trans ih.1, ih.2⟩
  | case3 fuel s c _ _ ih => exact ⟨(reaches_skipBreak _).trans ih.1, ih.2⟩
  | case4 fuel s c _ _ _ ih => exact ⟨(reaches_skipLine _).trans ih.1, ih.2⟩

theorem reaches_tabbedValue? {c c' : Cursor} {tabbed : Bool}
    (h : tabbedValue? c = some (c', tabbed)) :
    c.Reaches c' := by
  unfold tabbedValue? at h
  split_ifs at h
  · obtain ⟨b, hb, h⟩ := Option.map_eq_some_iff.mp h
    cases h
    exact reaches_skipBlanks? hb
  · cases h
    exact .refl c

theorem reaches_readDirective? {c c' : Cursor} {kind : TokenKind}
    (h : readDirective? c = some (kind, c')) : c.Reaches c' ∧ kind.isFree = true := by
  have hname : c.Reaches (c.skip (c.rest.takeWhile isWordChar).length) :=
    reaches_skip_takeWhile fun _ => isLineEnd_of_isWordChar
  unfold readDirective? at h
  dsimp only at h
  obtain ⟨-, h⟩ := of_guard_eq_some h
  split_ifs at h
  · obtain ⟨c₁, hversion, h⟩ := Option.bind_eq_some_iff.mp h
    cases h
    exact ⟨hname.trans (reaches_skipVersion? hversion), by rfl⟩
  · obtain ⟨⟨handle, c₁⟩, htag, h⟩ := Option.bind_eq_some_iff.mp h
    cases h
    exact ⟨hname.trans (reaches_readTagDirective? htag), by rfl⟩
  · cases h
    exact ⟨hname.trans (reaches_skipLine _), by rfl⟩

theorem reaches_of_skipBlanks? (h : s.skipBlanks? = some s') :
    s.cursor.Reaches s'.cursor ∧ { s with cursor := s'.cursor } = s' := by
  obtain ⟨b, hb, rfl⟩ := Option.map_eq_some_iff.mp h
  exact ⟨reaches_skipBlanks? hb, rfl⟩

/-! ### Properties that last -/

/-- A property of a scanner that lasts while its cursor stays, as long as the marks of its tokens
and its keys are good. -/
structure Lasts (P : Scanner → Prop) (Good : Mark → Prop) : Prop where
  mark : ∀ {s : Scanner}, P s → Good s.cursor.mark
  keys : ∀ {s : Scanner}, P s → ∀ key ∈ s.keys, Good key.mark
  /-- The mark of a key that is not there. -/
  start : Good ({} : SimpleKey).mark
  update : ∀ {s s' : Scanner}, P s → s'.cursor = s.cursor → s'.queue = s.queue →
    (∀ key ∈ s'.keys, Good key.mark) → P s'
  push : ∀ {s : Scanner} {kind : TokenKind} {span : Span}, P s → kind.isFree = true →
    Good span.start → P (s.push kind span)
  insertAt : ∀ {s : Scanner} {number : Nat} {kind : TokenKind} {mark : Mark}, P s →
    kind.isFree = true → Good mark → P (s.insertAt number kind mark)

/-- The cursor is the same. -/
theorem lasts_cursor (c : Cursor) : Lasts (fun s => s.cursor = c) fun _ => True where
  mark := fun _ => trivial
  keys := fun _ _ _ => trivial
  start := trivial
  update := fun hs hcursor _ _ => hcursor.trans hs
  push := fun hs _ _ => hs
  insertAt := fun hs _ _ => hs

variable {P : Scanner → Prop} {Good : Mark → Prop}

namespace Lasts

theorem same (h : Lasts P Good) (hs : P s) (hcursor : s'.cursor = s.cursor)
    (hqueue : s'.queue = s.queue) (hkeys : s'.keys = s.keys) : P s' :=
  h.update hs hcursor hqueue (hkeys ▸ h.keys hs)

theorem setKey (h : Lasts P Good) (hs : P s) (key : SimpleKey) {rest : List SimpleKey}
    (hkey : Good key.mark) (hrest : rest ⊆ s.keys) : P { s with keys := key :: rest } := by
  refine h.update hs rfl rfl fun k hk => ?_
  rcases List.mem_cons.mp hk with rfl | hk
  · exact hkey
  · exact h.keys hs k (hrest hk)

theorem unroll (h : Lasts P Good) (hs : P s) (column : Int) : P (s.unroll column) := by
  have hgo : ∀ (levels : List IndentLevel) (s : Scanner), P s →
      P (unroll.go column s levels) := by
    intro levels
    induction levels with
    | nil => exact fun s hs => hs
    | cons level levels ih =>
      intro s hs
      have hs₁ : P { s with indent := level.indent, levels } := h.same hs rfl rfl rfl
      rw [unroll.go]
      split_ifs
      · exact hs
      · exact ih _ (h.push hs₁ rfl (h.mark hs₁))
      · exact ih _ hs₁
  unfold Scanner.unroll
  split_ifs
  · exact hs
  · exact hgo _ _ hs

theorem roll (h : Lasts P Good) (hs : P s) (column : Nat) (number : Option Nat) {kind : TokenKind}
    {mark : Mark} (hkind : kind.isFree = true) (hmark : Good mark) :
    P (s.roll column number kind mark) := by
  unfold Scanner.roll
  split
  · exact hs
  · extract_lets s₁
    have hs₁ : P s₁ := by
      unfold s₁
      split
      · split_ifs
        · exact h.same hs rfl rfl rfl
        · exact hs
      · exact hs
    split
    · cases number with
      | some n => exact h.insertAt (h.same hs₁ rfl rfl rfl) hkind hmark
      | none => exact h.push (h.same hs₁ rfl rfl rfl) hkind hmark
    · exact hs₁

theorem rollOne (h : Lasts P Good) (hs : P s) : P s.rollOne := by
  unfold Scanner.rollOne
  split
  · split_ifs
    · exact h.same hs rfl rfl rfl
    · exact hs
  · exact hs

theorem unrollOnes (h : Lasts P Good) (hs : P s) : P s.unrollOnes := by
  have hgo : ∀ (levels : List IndentLevel) (s : Scanner), P s → P (unrollOnes.go s levels) := by
    intro levels
    induction levels with
    | nil => exact fun s hs => hs
    | cons level levels ih =>
      intro s hs
      rw [unrollOnes.go]
      split_ifs
      · exact hs
      · exact ih _ (h.same hs rfl rfl rfl)
  exact hgo _ _ hs

theorem saveKey (h : Lasts P Good) (hs : P s) : P s.saveKey := by
  unfold Scanner.saveKey
  split
  · exact hs
  · extract_lets required
    split
    next heq => exact h.setKey hs _ (h.mark hs) (heq ▸ List.subset_cons_self _ _)
    next => exact hs

/-- A key may start here, and whether one may start behind it is known. -/
theorem saved (h : Lasts P Good) (hs : P s) (allowed : Bool) :
    P { s.saveKey with keyAllowed := allowed } := h.same (h.saveKey hs) rfl rfl rfl

theorem removeKey? (h : Lasts P Good) (hs : P s) (hs' : s.removeKey? = some s') : P s' := by
  unfold Scanner.removeKey? at hs'
  split at hs'
  next key rest heq =>
    split_ifs at hs'
    cases hs'
    exact h.setKey hs _ (h.keys hs key (by simp [heq])) (heq ▸ List.subset_cons_self _ _)
  next =>
    cases hs'
    exact hs

/-- All blocks end. -/
theorem unrolled (h : Lasts P Good) (hs : P s) {column : Int}
    (hs' : (s.unroll column).removeKey? = some s') : P s' :=
  h.removeKey? (h.unroll hs column) hs'

theorem staleKeys? (h : Lasts P Good) (hs : P s) (hs' : s.staleKeys? = some s') : P s' := by
  obtain ⟨keys, hkeys, hs'⟩ := Option.bind_eq_some_iff.mp hs'
  cases hs'
  refine h.update hs rfl rfl fun key hkey => ?_
  obtain ⟨old, hold, hstale⟩ := exists_of_mem_mapM_option hkeys hkey
  have hmark : key.mark = old.mark := by
    unfold staleKey? at hstale
    split_ifs at hstale <;> cases hstale <;> rfl
  exact hmark ▸ h.keys hs old hold

theorem endPair (h : Lasts P Good) (hs : P s) : P s.endPair := by
  unfold Scanner.endPair
  split
  · exact h.push (h.same hs rfl rfl rfl) rfl (h.mark hs)
  · exact hs

theorem leaveFlow (h : Lasts P Good) (hs : P s) : P s.leaveFlow := by
  unfold Scanner.leaveFlow
  split_ifs
  · exact h.update hs rfl rfl fun key hkey => h.keys hs key (List.mem_of_mem_drop hkey)
  · exact hs

theorem streamStart (h : Lasts P Good) (hs : P s) : P s.streamStart := by
  have hpush : P (s.push .streamStart s.cursor.mark.span) := h.push hs rfl (h.mark hs)
  exact h.same (h.setKey hpush {} h.start (List.Subset.refl _)) rfl rfl rfl

theorem headD_keys (h : Lasts P Good) (hs : P s) : Good (s.keys.headD {}).mark := by
  cases hkeys : s.keys with
  | nil => exact h.start
  | cons key rest => exact h.keys hs key (by simp [hkeys])

theorem valueOfKey? (h : Lasts P Good) (hs : P s) {key : SimpleKey} {pair : Bool} {mark : Mark}
    (hkey : Good key.mark) (hs' : s.valueOfKey? key pair mark = some s') : P s' := by
  unfold Scanner.valueOfKey? at hs'
  extract_lets s₁ s₂ s₃ s₄ at hs'
  obtain ⟨-, hs'⟩ := of_guard_eq_some hs'
  cases hs'
  have hs₁ : P s₁ := h.insertAt hs rfl hkey
  have hs₂ : P s₂ := by
    unfold s₂
    split_ifs
    · exact h.insertAt hs₁ rfl hkey
    · exact hs₁
  have hs₄ : P s₄ := h.rollOne (h.roll hs₂ _ _ rfl hkey)
  exact h.same (h.setKey hs₄ { key with possible := false } hkey (List.drop_subset 1 s₄.keys))
    rfl rfl rfl

theorem valueAlone? (h : Lasts P Good) (hs : P s) {pair : Bool} {mark : Mark} (hmark : Good mark)
    (hs' : s.valueAlone? pair mark = some s') : P s' := by
  unfold Scanner.valueAlone? at hs'
  extract_lets s₁ s₂ s₃ at hs'
  obtain ⟨-, hs'⟩ := of_guard_eq_some hs'
  cases hs'
  have hs₁ : P s₁ := by
    unfold s₁
    split_ifs
    · exact h.push hs rfl hmark
    · exact hs
  have hs₂ : P s₂ := by
    unfold s₂
    split_ifs
    · exact hs₁
    · exact h.roll hs₁ _ _ rfl hmark
  exact h.same (h.rollOne hs₂) rfl rfl rfl

end Lasts

/-- A property that lasts while the cursor moves on, too. -/
structure LastsOn (P : Scanner → Prop) (Good : Mark → Prop) : Prop extends Lasts P Good where
  move : ∀ {s : Scanner} {c : Cursor}, P s → s.cursor.Reaches c → P { s with cursor := c }

namespace LastsOn

theorem skipToToken? (h : LastsOn P Good) (hs : P s) {fuel : Nat}
    (hs' : Scanner.skipToToken? fuel s = some s') : P s' := by
  obtain ⟨hreach, hqueue, hkeys⟩ := reaches_skipToToken? hs'
  exact h.same (h.move hs hreach) rfl hqueue hkeys

theorem skipBlanks? (h : LastsOn P Good) (hs : P s) (hs' : s.skipBlanks? = some s') : P s' := by
  obtain ⟨hreach, heq⟩ := reaches_of_skipBlanks? hs'
  exact heq ▸ h.move hs hreach

theorem skipAfterKey (h : LastsOn P Good) (hs : P s) (fuel : Nat) : P (s.skipAfterKey fuel) := by
  obtain ⟨hreach, hqueue, hkeys⟩ := reaches_skipAfterKey fuel s
  exact h.same (h.move hs hreach) rfl hqueue hkeys

/-- One character is passed over that was there before. -/
theorem pass (h : LastsOn P Good) (hs : P s) {c : Cursor} (hcursor : s.cursor = c)
    (hpeek : isLineEnd c.peek = false) : P { s with cursor := s.cursor.pass 1 } :=
  h.move hs (reaches_pass_one (hcursor ▸ hpeek))

/-! ### Tokens of structure -/

theorem documentIndicator? (h : LastsOn P Good) (hs : P s) {kind : TokenKind}
    (hkind : kind.isFree = true) (hpeek : ∀ k < 3, isLineEnd (s.cursor.peekAt k) = false)
    (hs' : s.documentIndicator? kind = some s') : P s' := by
  obtain ⟨s₁, hremove, hs'⟩ := Option.bind_eq_some_iff.mp hs'
  cases hs'
  have hs₁ : P s₁ := h.unrolled hs hremove
  have hcursor : s₁.cursor = s.cursor := (lasts_cursor _).unrolled rfl hremove
  have hmove := h.move hs₁ (reaches_pass (hcursor ▸ hpeek))
  exact h.push (h.same hmove rfl rfl rfl) hkind (h.mark hs₁)

theorem documentEnd? (h : LastsOn P Good) (hs : P s)
    (hpeek : ∀ k < 3, isLineEnd (s.cursor.peekAt k) = false)
    (hs' : s.documentEnd? = some s') : P s' := by
  obtain ⟨s₁, hindicator, hs'⟩ := Option.bind_eq_some_iff.mp hs'
  obtain ⟨s₂, hblanks, hs'⟩ := Option.bind_eq_some_iff.mp hs'
  split_ifs at hs'
  cases hs'
  exact h.skipBlanks? (h.documentIndicator? hs rfl hpeek hindicator) hblanks

theorem directive? (h : LastsOn P Good) (hs : P s) (hpeek : isLineEnd s.cursor.peek = false)
    (hs' : s.directive? = some s') : P s' := by
  obtain ⟨s₁, hremove, hs'⟩ := Option.bind_eq_some_iff.mp hs'
  obtain ⟨⟨kind, c⟩, hread, hs'⟩ := Option.bind_eq_some_iff.mp hs'
  obtain ⟨after, hafter, hs'⟩ := Option.bind_eq_some_iff.mp hs'
  obtain ⟨-, hs'⟩ := of_guard_eq_some hs'
  cases hs'
  have hs₁ : P s₁ := h.unrolled hs hremove
  have hcursor : s₁.cursor = s.cursor := (lasts_cursor _).unrolled rfl hremove
  obtain ⟨hreach, hfree⟩ := reaches_readDirective? hread
  have hline : s₁.cursor.Reaches after.cursor.skipBreak :=
    (((reaches_pass_one (hcursor ▸ hpeek)).trans hreach).trans
      (reaches_skipBlanks? hafter)).trans (reaches_skipBreak _)
  have hpush : P (s₁.push kind ⟨s₁.cursor.mark, c.mark⟩) := h.push hs₁ hfree (h.mark hs₁)
  exact h.same (h.move hpush hline) rfl rfl rfl

theorem flowStart? (h : LastsOn P Good) (hs : P s) {mapping : Bool}
    (hpeek : isLineEnd s.cursor.peek = false) (hs' : s.flowStart? mapping = some s') : P s' := by
  unfold Scanner.flowStart? at hs'
  extract_lets mark s₁ s₂ s₃ at hs'
  obtain ⟨-, hs'⟩ := of_guard_eq_some hs'
  obtain ⟨s₄, hblanks, hs'⟩ := Option.bind_eq_some_iff.mp hs'
  cases hs'
  have hs₁ : P s₁ := h.rollOne (h.saveKey hs)
  have hcursor : s₁.cursor = s.cursor :=
    (lasts_cursor _).rollOne ((lasts_cursor _).saveKey rfl)
  have hs₂ : P s₂ := by
    refine h.same (h.setKey (h.pass hs₁ hcursor hpeek) {} h.start (List.Subset.refl _)) ?_ ?_ ?_
    all_goals rfl
  have hs₃ : P s₃ := by
    unfold s₃
    split_ifs
    · exact h.same hs₂ rfl rfl rfl
    · exact h.same hs₂ rfl rfl rfl
  refine h.push (h.skipBlanks? hs₃ hblanks) ?_ (h.mark hs)
  cases mapping <;> rfl

theorem flowEnd? (h : LastsOn P Good) (hs : P s) {mapping : Bool}
    (hpeek : isLineEnd s.cursor.peek = false) (hs' : s.flowEnd? mapping = some s') : P s' := by
  obtain ⟨s₁, hremove, hs'⟩ := Option.bind_eq_some_iff.mp hs'
  extract_lets s₂ s₃ s₄ s₅ mark at hs'
  obtain ⟨s₆, hblanks, hs'⟩ := Option.bind_eq_some_iff.mp hs'
  cases hs'
  -- Nothing moves the cursor before the bracket is passed over.
  have hstay : ∀ {Q : Scanner → Prop} {Fine : Mark → Prop}, Lasts Q Fine → Q s → Q s₅ := by
    intro Q Fine hQ hs
    have hs₃ : Q s₃ := hQ.same (hQ.leaveFlow (hQ.removeKey? hs hremove)) rfl rfl rfl
    unfold s₅
    split_ifs
    · exact hs₃
    · exact hQ.same (hQ.endPair hs₃) rfl rfl rfl
  have hs₅ : P s₅ := hstay h.toLasts hs
  have hcursor : s₅.cursor = s.cursor := hstay (lasts_cursor s.cursor) rfl
  have hs₆ : P s₆ := h.skipBlanks? (h.pass hs₅ hcursor hpeek) hblanks
  refine h.push ?_ ?_ (h.mark hs₅)
  · split_ifs
    · exact h.same hs₆ rfl rfl rfl
    · exact hs₆
  · cases mapping <;> rfl

theorem flowEntry? (h : LastsOn P Good) (hs : P s) (hpeek : isLineEnd s.cursor.peek = false)
    (hs' : s.flowEntry? = some s') : P s' := by
  obtain ⟨s₁, hremove, hs'⟩ := Option.bind_eq_some_iff.mp hs'
  extract_lets s₂ mark at hs'
  obtain ⟨s₃, hblanks, hs'⟩ := Option.bind_eq_some_iff.mp hs'
  cases hs'
  have hstay : ∀ {Q : Scanner → Prop} {Fine : Mark → Prop}, Lasts Q Fine → Q s → Q s₂ :=
    fun hQ hs => hQ.endPair (hQ.same (hQ.removeKey? hs hremove) rfl rfl rfl)
  have hs₂ : P s₂ := hstay h.toLasts hs
  have hcursor : s₂.cursor = s.cursor := hstay (lasts_cursor s.cursor) rfl
  exact h.push (h.skipBlanks? (h.pass hs₂ hcursor hpeek) hblanks) rfl (h.mark hs₂)

theorem blockEntry? (h : LastsOn P Good) (hs : P s) (hpeek : isLineEnd s.cursor.peek = false)
    (hs' : s.blockEntry? = some s') : P s' := by
  unfold Scanner.blockEntry? at hs'
  extract_lets mark s₁ at hs'
  obtain ⟨-, hs'⟩ := of_guard_eq_some hs'
  obtain ⟨-, hs'⟩ := of_guard_eq_some hs'
  obtain ⟨blanks, hblanks, hs'⟩ := Option.bind_eq_some_iff.mp hs'
  obtain ⟨-, hs'⟩ := of_guard_eq_some hs'
  obtain ⟨s₂, hremove, hs'⟩ := Option.bind_eq_some_iff.mp hs'
  cases hs'
  have hs₁ : P s₁ := h.roll (h.pass hs rfl hpeek) _ _ rfl (h.mark hs)
  have hentry := h.move hs₁ (reaches_skipBlanks? hblanks)
  have hs₂ : P s₂ := by
    refine h.removeKey? ?_ hremove
    split_ifs
    · exact h.rollOne hentry
    · exact hentry
  exact h.push (h.same hs₂ rfl rfl rfl) rfl (h.mark hs₂)

theorem key? (h : LastsOn P Good) (hs : P s) (hpeek : isLineEnd s.cursor.peek = false)
    (hs' : s.key? = some s') : P s' := by
  unfold Scanner.key? at hs'
  extract_lets mark s₁ at hs'
  obtain ⟨-, hs'⟩ := of_guard_eq_some hs'
  obtain ⟨s₂, hremove, hs'⟩ := Option.bind_eq_some_iff.mp hs'
  extract_lets s₃ s₄ at hs'
  obtain ⟨-, hs'⟩ := of_guard_eq_some hs'
  obtain ⟨-, hs'⟩ := of_guard_eq_some hs'
  cases hs'
  have hstay : ∀ {Q : Scanner → Prop} {Fine : Mark → Prop}, Lasts Q Fine → Q s → Q s₂ := by
    intro Q Fine hQ hs
    refine hQ.removeKey? ?_ hremove
    unfold s₁
    split_ifs
    · exact hQ.same hs rfl rfl rfl
    · exact hQ.roll hs _ _ rfl (hQ.mark hs)
  have hcursor : s₂.cursor = s.cursor := hstay (lasts_cursor s.cursor) rfl
  have hs₃ : P s₃ := h.same (h.pass (hstay h.toLasts hs) hcursor hpeek) rfl rfl rfl
  exact h.push (h.skipAfterKey hs₃ _) rfl (h.mark hs)

theorem value? (h : LastsOn P Good) (hs : P s) (hpeek : isLineEnd s.cursor.peek = false)
    (hs' : s.value? = some s') : P s' := by
  unfold Scanner.value? at hs'
  extract_lets mark pair s₁ at hs'
  have hs₁ : P s₁ := by
    unfold s₁
    split_ifs
    · exact h.same hs rfl rfl rfl
    · exact hs
  have hcursor : s₁.cursor = s.cursor := by
    unfold s₁
    split_ifs <;> rfl
  obtain ⟨⟨c, tabbed⟩, htab, hs'⟩ := Option.bind_eq_some_iff.mp hs'
  have hread : P { s₁ with cursor := c } :=
    h.move hs₁ ((reaches_pass_one (hcursor ▸ hpeek)).trans (reaches_tabbedValue? htab))
  obtain ⟨-, hs'⟩ := of_guard_eq_some hs'
  dsimp only at hs'
  split_ifs at hs'
  · obtain ⟨s₂, hvalue, hs'⟩ := Option.bind_eq_some_iff.mp hs'
    cases hs'
    exact h.push (h.valueOfKey? hread (h.headD_keys hs₁) hvalue) rfl (h.mark hs)
  · obtain ⟨s₂, hvalue, hs'⟩ := Option.bind_eq_some_iff.mp hs'
    cases hs'
    exact h.push (h.valueAlone? hread (h.mark hs) hvalue) rfl (h.mark hs)

theorem flowValue? (h : LastsOn P Good) (hs : P s) (hpeek : isLineEnd s.cursor.peek = false)
    (hs' : s.flowValue? = some s') : P s' := by
  unfold Scanner.flowValue? at hs'
  dsimp only at hs'
  split_ifs at hs'
  exact h.value? hs hpeek hs'

theorem tag? (h : LastsOn P Good) (hs : P s) (hpeek : s.cursor.peek = '!')
    (hs' : s.tag? = some s') : P s' := by
  obtain ⟨⟨handle, c⟩, hread, hs'⟩ := Option.bind_eq_some_iff.mp hs'
  cases hs'
  have hcursor := (lasts_cursor s.cursor).saved rfl false
  have hreach := reaches_readTag? (hcursor ▸ hpeek) hread
  exact h.push (h.move (h.saved hs false) hreach) rfl (h.mark hs)

theorem quotedScalar? (h : LastsOn P Good) (hs : P s) {single : Bool}
    (hpeek : isLineEnd s.cursor.peek = false) (hs' : s.quotedScalar? single = some s') : P s' := by
  obtain ⟨q, hread, hs'⟩ := Option.bind_eq_some_iff.mp hs'
  obtain ⟨s₁, hskip, hs'⟩ := Option.bind_eq_some_iff.mp hs'
  cases hs'
  have hcursor := (lasts_cursor s.cursor).saved rfl false
  have hreach := reaches_readQuoted? (hcursor ▸ hpeek) hread
  have hs₁ : P s₁ := h.skipToToken? (h.move (h.saved hs false) hreach) hskip
  have hpush : P (s₁.push (.scalar (if single then .single else .double) q.text.reverse)
      ⟨s.cursor.mark, q.cursor.mark⟩) := by
    refine h.push hs₁ ?_ (h.mark hs)
    cases single <;> rfl
  exact h.same hpush rfl rfl rfl

end LastsOn

/-! ### Whole steps -/

/-- Passes over what stands in front of the next token. -/
def prepare? (s : Scanner) : Option Scanner := do
  let s ← skipToToken? (s.cursor.rest.length + 1) s
  let s ← s.staleKeys?
  return s.unroll s.column

/-- Reads the token that the cursor stands at. -/
def readToken? (s : Scanner) : Option Scanner :=
  if isEnd s.cursor.peek then s.streamEnd?
  else if s.column = 0 && s.cursor.peek = '%' then s.directive?
  else if s.column = 0 && s.cursor.atDocumentStart then s.documentIndicator? .documentStart
  else if s.column = 0 && s.cursor.atDocumentEnd then s.documentEnd?
  else s.contentToken?

theorem step?_of_started (h : s.started = true) : s.step? = s.prepare?.bind readToken? := by
  rw [step?, h]
  simp only [prepare?, Option.bind_eq_bind, Option.bind_assoc, Option.pure_def, Option.bind_some]
  rfl

theorem step?_of_not_started (h : s.started = false) : s.step? = some s.streamStart := by
  rw [step?, h]
  rfl

/-- What is read as a token inside a document, and what stands there. -/
inductive ContentStep (s s' : Scanner) : Prop
  | flowStart {mapping : Bool} (hpeek : isLineEnd s.cursor.peek = false)
      (h : s.flowStart? mapping = some s')
  | flowEnd {mapping : Bool} (hpeek : isLineEnd s.cursor.peek = false)
      (h : s.flowEnd? mapping = some s')
  | flowEntry (hpeek : isLineEnd s.cursor.peek = false) (h : s.flowEntry? = some s')
  | blockEntry (hpeek : isLineEnd s.cursor.peek = false) (h : s.blockEntry? = some s')
  | key (hpeek : isLineEnd s.cursor.peek = false) (h : s.key? = some s')
  | value (hpeek : isLineEnd s.cursor.peek = false) (h : s.value? = some s')
  | flowValue (hpeek : isLineEnd s.cursor.peek = false) (h : s.flowValue? = some s')
  | anchor {isAlias : Bool} (hpeek : s.cursor.peek = if isAlias then '*' else '&')
      (h : s.anchor? isAlias = some s')
  | tag (hpeek : s.cursor.peek = '!') (h : s.tag? = some s')
  | blockScalar {folded : Bool} (hpeek : s.cursor.peek = if folded then '>' else '|')
      (h : s.blockScalar? folded = some s')
  | quotedScalar {single : Bool} (hpeek : isLineEnd s.cursor.peek = false)
      (h : s.quotedScalar? single = some s')
  | plainScalar (h : s.plainScalar? = some s')

theorem contentStep_of_contentToken? (h : s.contentToken? = some s') : ContentStep s s' := by
  have hpeek : ∀ {d : Char}, s.cursor.peek = d → isLineEnd d = false →
      isLineEnd s.cursor.peek = false := fun hd hend => hd ▸ hend
  unfold contentToken? at h
  dsimp only at h
  rcases of_ite_eq h with ⟨-, h⟩ | h
  · cases h
  rcases of_ite_eq h with ⟨hc, h⟩ | h
  · exact .flowStart (hpeek hc rfl) h
  rcases of_ite_eq h with ⟨hc, h⟩ | h
  · exact .flowStart (hpeek hc rfl) h
  rcases of_ite_eq h with ⟨hc, h⟩ | h
  · exact .flowEnd (hpeek hc rfl) h
  rcases of_ite_eq h with ⟨hc, h⟩ | h
  · exact .flowEnd (hpeek hc rfl) h
  rcases of_ite_eq h with ⟨hc, h⟩ | h
  · exact .flowEntry (hpeek hc rfl) h
  rcases of_ite_eq h with ⟨hc, h⟩ | h
  · rw [Bool.and_eq_true, decide_eq_true_eq] at hc
    exact .blockEntry (hpeek hc.1 rfl) h
  rcases of_ite_eq h with ⟨hc, h⟩ | h
  · rw [Bool.and_eq_true, decide_eq_true_eq] at hc
    exact .key (hpeek hc.1 rfl) h
  rcases of_ite_eq h with ⟨hc, h⟩ | h
  · rw [Bool.and_eq_true, decide_eq_true_eq] at hc
    exact .value (hpeek hc.1 rfl) h
  rcases of_ite_eq h with ⟨hc, h⟩ | h
  · rw [Bool.and_eq_true, Bool.and_eq_true, decide_eq_true_eq] at hc
    exact .flowValue (hpeek hc.1.1 rfl) h
  rcases of_ite_eq h with ⟨hc, h⟩ | h
  · exact @ContentStep.anchor s s' true hc h
  rcases of_ite_eq h with ⟨hc, h⟩ | h
  · exact @ContentStep.anchor s s' false hc h
  rcases of_ite_eq h with ⟨hc, h⟩ | h
  · exact .tag hc h
  rcases of_ite_eq h with ⟨hc, h⟩ | h
  · rw [Bool.and_eq_true, decide_eq_true_eq] at hc
    exact @ContentStep.blockScalar s s' false hc.1 h
  rcases of_ite_eq h with ⟨hc, h⟩ | h
  · rw [Bool.and_eq_true, decide_eq_true_eq] at hc
    exact @ContentStep.blockScalar s s' true hc.1 h
  rcases of_ite_eq h with ⟨hc, h⟩ | h
  · exact .quotedScalar (hpeek hc rfl) h
  rcases of_ite_eq h with ⟨hc, h⟩ | h
  · exact .quotedScalar (hpeek hc rfl) h
  rcases of_ite_eq h with ⟨-, h⟩ | h
  · cases h
  · exact .plainScalar h

theorem isLineEnd_of_atTriple {c : Cursor} {d : Char} (hd : isLineEnd d = false)
    (h : c.atTriple d = true) : ∀ k < 3, isLineEnd (c.peekAt k) = false := by
  simp only [atTriple, Bool.and_eq_true, decide_eq_true_eq] at h
  obtain ⟨⟨⟨h₀, h₁⟩, h₂⟩, -⟩ := h
  intro k hk
  obtain rfl | rfl | rfl : k = 0 ∨ k = 1 ∨ k = 2 := by omega
  · rw [peekAt_zero, h₀, hd]
  · rw [h₁, hd]
  · rw [h₂, hd]

/-- What is read as the next token, and what stands there. -/
inductive TokenStep (s s' : Scanner) : Prop
  | streamEnd (hend : isEnd s.cursor.peek = true) (h : s.streamEnd? = some s')
  | directive (hpeek : isLineEnd s.cursor.peek = false) (h : s.directive? = some s')
  | documentStart (hpeek : ∀ k < 3, isLineEnd (s.cursor.peekAt k) = false)
      (h : s.documentIndicator? .documentStart = some s')
  | documentEnd (hpeek : ∀ k < 3, isLineEnd (s.cursor.peekAt k) = false)
      (h : s.documentEnd? = some s')
  | content (h : s.contentToken? = some s')

theorem tokenStep_of_readToken? (h : s.readToken? = some s') : TokenStep s s' := by
  unfold readToken? at h
  split_ifs at h with hend hdirective hbegin hstop
  · exact .streamEnd hend h
  · rw [Bool.and_eq_true, decide_eq_true_eq, decide_eq_true_eq] at hdirective
    refine .directive ?_ h
    rw [hdirective.2]
    decide
  · rw [Bool.and_eq_true] at hbegin
    exact .documentStart (isLineEnd_of_atTriple (by decide) hbegin.2) h
  · rw [Bool.and_eq_true] at hstop
    exact .documentEnd (isLineEnd_of_atTriple (by decide) hstop.2) h
  · exact .content h

/-- A step that reads a token whose text is of interest, or the end. -/
inductive TextStep (s s' : Scanner) : Prop
  | streamEnd (hend : isEnd s.cursor.peek = true) (h : s.streamEnd? = some s')
  | anchor {isAlias : Bool} (hpeek : s.cursor.peek = if isAlias then '*' else '&')
      (h : s.anchor? isAlias = some s')
  | blockScalar {folded : Bool} (hpeek : s.cursor.peek = if folded then '>' else '|')
      (h : s.blockScalar? folded = some s')
  | plainScalar (h : s.plainScalar? = some s')

namespace LastsOn

theorem prepare? (h : LastsOn P Good) (hs : P s) (hs' : s.prepare? = some s') : P s' := by
  obtain ⟨s₁, hskip, hs'⟩ := Option.bind_eq_some_iff.mp hs'
  obtain ⟨s₂, hstale, hs'⟩ := Option.bind_eq_some_iff.mp hs'
  cases hs'
  exact h.unroll (h.staleKeys? (h.skipToToken? hs hskip) hstale) _

/-- What lasts, lasts over every token without a text of interest. -/
theorem readToken? (h : LastsOn P Good) (hs : P s) (hs' : s.readToken? = some s') :
    P s' ∨ TextStep s s' := by
  cases tokenStep_of_readToken? hs' with
  | streamEnd hend hs' => exact .inr (.streamEnd hend hs')
  | directive hpeek hs' => exact .inl (h.directive? hs hpeek hs')
  | documentStart hpeek hs' => exact .inl (h.documentIndicator? hs rfl hpeek hs')
  | documentEnd hpeek hs' => exact .inl (h.documentEnd? hs hpeek hs')
  | content hs' =>
    cases contentStep_of_contentToken? hs' with
    | flowStart hpeek hs' => exact .inl (h.flowStart? hs hpeek hs')
    | flowEnd hpeek hs' => exact .inl (h.flowEnd? hs hpeek hs')
    | flowEntry hpeek hs' => exact .inl (h.flowEntry? hs hpeek hs')
    | blockEntry hpeek hs' => exact .inl (h.blockEntry? hs hpeek hs')
    | key hpeek hs' => exact .inl (h.key? hs hpeek hs')
    | value hpeek hs' => exact .inl (h.value? hs hpeek hs')
    | flowValue hpeek hs' => exact .inl (h.flowValue? hs hpeek hs')
    | anchor hpeek hs' => exact .inr (.anchor hpeek hs')
    | tag hpeek hs' => exact .inl (h.tag? hs hpeek hs')
    | blockScalar hpeek hs' => exact .inr (.blockScalar hpeek hs')
    | quotedScalar hpeek hs' => exact .inl (h.quotedScalar? hs hpeek hs')
    | plainScalar hs' => exact .inr (.plainScalar hs')

end LastsOn

end Scanner

end PipelineScripts.Yaml
