import PipelineScripts.Proofs.MaskedTags
import PipelineScripts.Proofs.WrittenTokens

/-!
# A scanner in front of a placeholder

With a placeholder over a `*` further on, a scanner takes the same steps up to there. There is one
exception: where only tabs stand between a `:` and the `*`, a placeholder is an error.
-/
namespace PipelineScripts.Yaml

open Cursor

namespace Scanner

variable {n : Nat} {s s' : Scanner}

/-- A scanner with a placeholder over the `*` in front of the last `n` characters. -/
def mask (n : Nat) (s : Scanner) : Scanner := { s with cursor := s.cursor.mask n }

@[simp] theorem cursor_mask : (s.mask n).cursor = s.cursor.mask n := by rw [mask]

@[simp] theorem queue_mask : (s.mask n).queue = s.queue := by rw [mask]

@[simp] theorem levels_mask : (s.mask n).levels = s.levels := by rw [mask]

@[simp] theorem indent_mask : (s.mask n).indent = s.indent := by rw [mask]

@[simp] theorem flowLevel_mask : (s.mask n).flowLevel = s.flowLevel := by rw [mask]

@[simp] theorem keyAllowed_mask : (s.mask n).keyAllowed = s.keyAllowed := by rw [mask]

@[simp] theorem keys_mask : (s.mask n).keys = s.keys := by rw [mask]

@[simp] theorem adjacentValueAt_mask :
    (s.mask n).adjacentValueAt = s.adjacentValueAt := by rw [mask]

@[simp] theorem column_mask : (s.mask n).column = s.column := by
  rw [column, cursor_mask, mark_mask, column]

@[simp] theorem inFlow_mask : (s.mask n).inFlow = s.inFlow := by rw [mask, inFlow, inFlow]

/-! ### Steps without reading -/

theorem unroll_mask (column : Int) : (s.mask n).unroll column = (s.unroll column).mask n := by
  have hgo : ∀ (levels : List IndentLevel) (s : Scanner),
      unroll.go column (s.mask n) levels = (unroll.go column s levels).mask n := by
    intro levels
    induction levels with
    | nil => exact fun s => rfl
    | cons level levels ih =>
      intro s
      rw [unroll.go, unroll.go, apply_ite (mask n)]
      refine ite_congr rfl (fun _ => rfl) fun _ => ?_
      rw [← ih, apply_ite (mask n)]
      rfl
  rw [unroll, unroll, apply_ite (mask n)]
  exact ite_congr (by simp) (fun _ => rfl) fun _ => hgo _ _

theorem roll_mask (column : Nat) (number : Option Nat) (kind : TokenKind) (mark : Mark) :
    (s.mask n).roll column number kind mark = (s.roll column number kind mark).mask n := by
  unfold roll
  rw [apply_ite (mask n)]
  refine ite_congr (by simp) (fun _ => rfl) fun _ => ?_
  extract_lets s₁ _ t₁ _
  have hs₁ : s₁ = t₁.mask n := by
    have hlevels : (s.mask n).levels = s.levels := rfl
    unfold s₁ t₁
    rw [hlevels]
    split
    · rw [apply_ite (mask n)]
      exact ite_congr rfl (fun _ => rfl) fun _ => rfl
    · rfl
  clear_value s₁ t₁
  subst hs₁
  rw [apply_ite (mask n)]
  exact ite_congr rfl (fun _ => by cases number <;> rfl) fun _ => rfl

theorem rollOne_mask : (s.mask n).rollOne = s.rollOne.mask n := by
  have hlevels : (s.mask n).levels = s.levels := rfl
  unfold rollOne
  rw [hlevels]
  split
  · rw [apply_ite (mask n)]
    exact ite_congr (by simp) (fun _ => rfl) fun _ => rfl
  · rfl

theorem unrollOnes_mask : (s.mask n).unrollOnes = s.unrollOnes.mask n := by
  have hgo : ∀ (levels : List IndentLevel) (s : Scanner),
      unrollOnes.go (s.mask n) levels = (unrollOnes.go s levels).mask n := by
    intro levels
    induction levels with
    | nil => exact fun s => rfl
    | cons level levels ih =>
      intro s
      rw [unrollOnes.go, unrollOnes.go, apply_ite (mask n)]
      exact ite_congr rfl (fun _ => rfl) fun _ =>
        ih { s with indent := level.indent, levels := levels }
  exact hgo _ _

theorem saveKey_mask : (s.mask n).saveKey = s.saveKey.mask n := by
  unfold saveKey
  rw [apply_ite (mask n)]
  refine ite_congr rfl (fun _ => rfl) fun _ => ?_
  cases hkeys : s.keys with
  | nil => simp [mask, hkeys]
  | cons key rest => simp [mask, hkeys, inFlow, column]

theorem removeKey?_mask : (s.mask n).removeKey? = s.removeKey?.map (mask n) := by
  cases hkeys : s.keys with
  | nil => simp [removeKey?, mask, hkeys]
  | cons key rest =>
    simp only [removeKey?, mask, hkeys]
    split_ifs <;> rfl

theorem staleKey?_mask : (s.mask n).staleKey? = s.staleKey? := by
  funext key
  simp [staleKey?]

theorem staleKeys?_mask : (s.mask n).staleKeys? = s.staleKeys?.map (mask n) := by
  unfold staleKeys?
  rw [staleKey?_mask]
  cases hkeys : s.keys.mapM s.staleKey? with
  | none => simp [mask, hkeys]
  | some keys => simp [mask, hkeys]

theorem endPair_mask : (s.mask n).endPair = s.endPair.mask n := by
  unfold endPair
  cases hpairs : s.pairs with
  | nil => simp [mask, hpairs]
  | cons pair rest => cases pair <;> simp [mask, hpairs, push]

theorem leaveFlow_mask : (s.mask n).leaveFlow = s.leaveFlow.mask n := by
  rw [leaveFlow, leaveFlow, apply_ite (mask n)]
  exact ite_congr (by simp) (fun _ => rfl) fun _ => rfl

/-! ### Passing over what is no token -/

theorem skipToToken?_mask (fuel : Nat) (s : Scanner) :
    skipToToken? fuel (s.mask n) = (skipToToken? fuel s).map (mask n) := by
  induction fuel generalizing s with
  | zero => rfl
  | succ fuel ih =>
    rw [skipToToken?, skipToToken?]
    simp only [cursor_mask, apply_ite (Option.map (mask n))]
    refine ite_congr (by simp) (fun _ => ?_) fun _ => ite_congr (by simp) (fun _ => ?_)
      fun _ => ite_congr (by simp) (fun _ => ?_) fun _ => ite_congr (by simp) (fun _ => ?_)
        fun _ => rfl
    · rw [Cursor.skipBlanks?_mask]
      cases s.cursor.skipBlanks? with
      | none => rfl
      | some b =>
        simp only [Option.map_some, Blanks.mask, isLineEnd_peek_mask,
          apply_ite (Option.map (mask n))]
        exact ite_congr rfl (fun _ => ih { s with cursor := b.cursor }) fun _ => rfl
    · rw [skip_mask]
      exact ih { s with cursor := s.cursor.skip 1 }
    · rw [skipBreak_mask]
      exact ih { s with cursor := s.cursor.skipBreak, keyAllowed := s.keyAllowed || !s.inFlow }
    · rw [skipLine_mask]
      exact ih { s with cursor := s.cursor.skipLine }

theorem skipBlanks?_mask : (s.mask n).skipBlanks? = s.skipBlanks?.map (mask n) := by
  unfold Scanner.skipBlanks?
  rw [cursor_mask, Cursor.skipBlanks?_mask]
  cases s.cursor.skipBlanks? <;> rfl

theorem skipAfterKey_mask (fuel : Nat) (s : Scanner) :
    skipAfterKey fuel (s.mask n) = (skipAfterKey fuel s).mask n := by
  induction fuel generalizing s with
  | zero => rfl
  | succ fuel ih =>
    rw [skipAfterKey, skipAfterKey]
    simp only [cursor_mask, apply_ite (mask n)]
    refine ite_congr (by simp) (fun _ => ?_) fun _ => ite_congr (by simp) (fun _ => ?_)
      fun _ => ite_congr (by simp) (fun _ => ?_) fun _ => rfl
    · rw [skip_mask]
      exact ih { s with cursor := s.cursor.skip 1 }
    · rw [skipBreak_mask]
      exact ih { s with cursor := s.cursor.skipBreak, keyAllowed := s.keyAllowed || !s.inFlow }
    · rw [skipLine_mask]
      exact ih { s with cursor := s.cursor.skipLine }

theorem prepare?_mask : (s.mask n).prepare? = s.prepare?.map (mask n) := by
  unfold prepare?
  rw [cursor_mask, length_mask, skipToToken?_mask]
  cases skipToToken? (s.cursor.rest.length + 1) s with
  | none => rfl
  | some s₁ =>
    simp only [Option.map_some, Option.bind_eq_bind, Option.bind_some, staleKeys?_mask]
    cases s₁.staleKeys? with
    | none => rfl
    | some s₂ => simp [unroll_mask]

/-! ### Tokens of structure -/

/-- A step that is taken in the same way, where its start is written differently. -/
theorem step_follows {f : Scanner → Option Scanner}
    (hf : ∀ s, f (s.mask n) = (f s).map (mask n)) {t : Scanner} (ht : t = s.mask n)
    (h : f s = some s') : f t = some (s'.mask n) := by
  rw [ht, hf, h]
  rfl

theorem unrollAll?_mask (s : Scanner) :
    ((s.mask n).unroll (-1)).removeKey? = (s.unroll (-1)).removeKey?.map (mask n) := by
  rw [unroll_mask, removeKey?_mask]

theorem streamEnd?_mask (h : s.streamEnd? = some s') :
    (s.mask n).streamEnd? = some (s'.mask n) := by
  unfold Scanner.streamEnd? at h ⊢
  refine guard_follows Iff.rfl h fun h => ?_
  obtain ⟨s₁, hremove, h⟩ := Option.bind_eq_some_iff.mp h
  cases h
  exact Option.bind_eq_some_iff.mpr ⟨s₁.mask n,
    step_follows (f := fun s => (s.unroll (-1)).removeKey?) unrollAll?_mask rfl hremove, rfl⟩

theorem documentIndicator?_mask {kind : TokenKind} (h : s.documentIndicator? kind = some s') :
    (s.mask n).documentIndicator? kind = some (s'.mask n) := by
  obtain ⟨s₁, hremove, h⟩ := Option.bind_eq_some_iff.mp h
  cases h
  refine Option.bind_eq_some_iff.mpr ⟨s₁.mask n, ?_, ?_⟩
  · rw [unrollAll?_mask, hremove]
    rfl
  · simp only [cursor_mask, pass_mask]
    rfl

theorem documentEnd?_mask (h : s.documentEnd? = some s') :
    (s.mask n).documentEnd? = some (s'.mask n) := by
  obtain ⟨s₁, hindicator, h⟩ := Option.bind_eq_some_iff.mp h
  obtain ⟨s₂, hblanks, h⟩ := Option.bind_eq_some_iff.mp h
  refine Option.bind_eq_some_iff.mpr ⟨s₁.mask n, documentIndicator?_mask hindicator,
    Option.bind_eq_some_iff.mpr ⟨s₂.mask n, ?_, ?_⟩⟩
  · rw [skipBlanks?_mask, hblanks]
    rfl
  · refine ite_follows (by simp) h (fun _ h => ?_) fun _ h => by cases h
    cases h
    rfl

theorem directive?_mask (h : s.directive? = some s') (hn : n < s'.cursor.rest.length) :
    (s.mask n).directive? = some (s'.mask n) := by
  obtain ⟨s₁, hremove, h⟩ := Option.bind_eq_some_iff.mp h
  obtain ⟨⟨kind, c⟩, hread, h⟩ := Option.bind_eq_some_iff.mp h
  obtain ⟨after, hafter, h⟩ := Option.bind_eq_some_iff.mp h
  refine Option.bind_eq_some_iff.mpr ⟨s₁.mask n, ?_, Option.bind_eq_some_iff.mpr
    ⟨(kind, c.mask n), ?_, Option.bind_eq_some_iff.mpr ⟨after.mask n, ?_, ?_⟩⟩⟩
  · rw [unrollAll?_mask, hremove]
    rfl
  · rw [cursor_mask, pass_mask]
    refine readDirective?_mask hread ?_
    have hs' := (of_guard_eq_some h).2
    cases hs'
    exact hn.trans_le ((reaches_skipBlanks? hafter).trans (reaches_skipBreak _)).length_le
  · rw [Cursor.skipBlanks?_mask, hafter]
    rfl
  · refine guard_follows (by simp [Blanks.mask]) h fun h => ?_
    cases h
    simp only [Blanks.mask, skipBreak_mask, mark_mask]
    rfl

theorem flowStart?_mask {mapping : Bool} (h : s.flowStart? mapping = some s') :
    (s.mask n).flowStart? mapping = some (s'.mask n) := by
  unfold Scanner.flowStart? at h ⊢
  simp only [saveKey_mask, rollOne_mask, cursor_mask, pass_mask, mark_mask]
  refine guard_follows (by simp) h fun h => ?_
  obtain ⟨s₁, hblanks, h⟩ := Option.bind_eq_some_iff.mp h
  cases h
  refine Option.bind_eq_some_iff.mpr ⟨s₁.mask n, ?_, ?_⟩
  · refine step_follows (fun _ => skipBlanks?_mask) ?_ hblanks
    cases mapping <;> rfl
  · simp only [pushFrom, cursor_mask, mark_mask]
    rfl

/-- A token that starts at the same place. -/
theorem pushFrom_mask {t : Scanner} {kind : TokenKind} {start start' : Mark} (ht : t = s.mask n)
    (hstart : start' = start) : t.pushFrom kind start' = (s.pushFrom kind start).mask n := by
  rw [ht, hstart, pushFrom, cursor_mask, mark_mask]
  rfl

/-- Leaves a flow collection, with the pair that may be open in it. -/
def closeFlow (s : Scanner) (mapping : Bool) : Scanner :=
  let s := { s.leaveFlow with keyAllowed := false }
  if mapping then s
  else
    let s := s.endPair
    { s with pairs := s.pairs.drop 1 }

theorem closeFlow_mask (mapping : Bool) :
    (s.mask n).closeFlow mapping = (s.closeFlow mapping).mask n := by
  have hpair : ({ s.leaveFlow.mask n with keyAllowed := false } : Scanner).endPair =
      ({ s.leaveFlow with keyAllowed := false } : Scanner).endPair.mask n :=
    endPair_mask (s := { s.leaveFlow with keyAllowed := false })
  unfold closeFlow
  rw [leaveFlow_mask, apply_ite (mask n)]
  exact ite_congr rfl (fun _ => rfl) fun _ => by
    simp only [hpair]
    rfl

theorem flowEnd?_mask {mapping : Bool} (h : s.flowEnd? mapping = some s') :
    (s.mask n).flowEnd? mapping = some (s'.mask n) := by
  obtain ⟨s₁, hremove, h⟩ := Option.bind_eq_some_iff.mp h
  dsimp only at h
  obtain ⟨s₂, hblanks, h⟩ := Option.bind_eq_some_iff.mp h
  cases h
  have hclose := @closeFlow_mask n s₁ mapping
  refine Option.bind_eq_some_iff.mpr ⟨s₁.mask n, ?_, Option.bind_eq_some_iff.mpr
    ⟨s₂.mask n, ?_, ?_⟩⟩
  · rw [removeKey?_mask, hremove]
    rfl
  · refine step_follows (fun _ => skipBlanks?_mask)
      (t := { (s₁.mask n).closeFlow mapping with
        cursor := ((s₁.mask n).closeFlow mapping).cursor.pass 1 }) ?_ hblanks
    rw [hclose, cursor_mask, pass_mask]
    rfl
  · have hmark : ((s₁.mask n).closeFlow mapping).cursor.mark =
        (s₁.closeFlow mapping).cursor.mark := by rw [hclose, cursor_mask, mark_mask]
    refine congrArg some (pushFrom_mask ?_ hmark)
    rw [inFlow_mask, cursor_mask, mark_mask, apply_ite (mask n)]
    rfl

theorem flowEntry?_mask (h : s.flowEntry? = some s') :
    Scanner.flowEntry? (s.mask n) = some (s'.mask n) := by
  obtain ⟨s₁, hremove, h⟩ := Option.bind_eq_some_iff.mp h
  obtain ⟨s₂, hblanks, h⟩ := Option.bind_eq_some_iff.mp h
  cases h
  have hpair : ({ s₁.mask n with keyAllowed := true } : Scanner).endPair =
      ({ s₁ with keyAllowed := true } : Scanner).endPair.mask n :=
    endPair_mask (s := { s₁ with keyAllowed := true })
  refine Option.bind_eq_some_iff.mpr ⟨s₁.mask n, ?_, Option.bind_eq_some_iff.mpr
    ⟨s₂.mask n, ?_, ?_⟩⟩
  · rw [removeKey?_mask, hremove]
    rfl
  · refine step_follows (fun _ => skipBlanks?_mask) ?_ hblanks
    rw [hpair, cursor_mask, pass_mask]
    rfl
  · refine congrArg some (pushFrom_mask rfl ?_)
    rw [hpair, cursor_mask, mark_mask]

theorem blockEntry?_mask (h : s.blockEntry? = some s') :
    Scanner.blockEntry? (s.mask n) = some (s'.mask n) := by
  unfold Scanner.blockEntry? at h ⊢
  refine guard_follows (by simp) h fun h => ?_
  refine guard_follows (by simp [afterFirstColumnProperty]) h fun h => ?_
  have hroll : ({ s.mask n with cursor := (s.mask n).cursor.pass 1 } : Scanner).roll
      (s.mask n).cursor.mark.column none .blockSequenceStart (s.mask n).cursor.mark =
        (({ s with cursor := s.cursor.pass 1 } : Scanner).roll s.cursor.mark.column none
          .blockSequenceStart s.cursor.mark).mask n := by
    rw [cursor_mask, pass_mask, mark_mask, ← roll_mask]
    rfl
  obtain ⟨blanks, hblanks, h⟩ := Option.bind_eq_some_iff.mp h
  refine Option.bind_eq_some_iff.mpr ⟨blanks.mask n, ?_, ?_⟩
  · rw [hroll, cursor_mask, Cursor.skipBlanks?_mask, hblanks]
    rfl
  refine guard_follows (by simp [Blanks.mask]) h fun h => ?_
  obtain ⟨s₁, hremove, h⟩ := Option.bind_eq_some_iff.mp h
  cases h
  refine Option.bind_eq_some_iff.mpr ⟨s₁.mask n, ?_, ?_⟩
  · refine step_follows (fun _ => removeKey?_mask) ?_ hremove
    rw [hroll, apply_ite (mask n), ← rollOne_mask]
    exact ite_congr (by simp [Blanks.mask]) (fun _ => rfl) fun _ => rfl
  · simp only [cursor_mask, mark_mask]
    rfl

theorem key?_mask (h : s.key? = some s') : (s.mask n).key? = some (s'.mask n) := by
  unfold Scanner.key? at h ⊢
  refine guard_follows (by simp) h fun h => ?_
  obtain ⟨s₁, hremove, h⟩ := Option.bind_eq_some_iff.mp h
  refine Option.bind_eq_some_iff.mpr ⟨s₁.mask n, ?_, ?_⟩
  · refine step_follows (fun _ => removeKey?_mask) ?_ hremove
    rw [inFlow_mask, roll_mask, cursor_mask, mark_mask, apply_ite (mask n)]
    rfl
  dsimp only at h ⊢
  rw [cursor_mask, pass_mask, inFlow_mask]
  refine guard_follows (by simp) h fun h => ?_
  have hskip : ∀ fuel, skipAfterKey fuel
      { s₁.mask n with keyAllowed := !s₁.inFlow, cursor := (s₁.cursor.pass 1).mask n } =
        (skipAfterKey fuel
          { s₁ with keyAllowed := !s₁.inFlow, cursor := s₁.cursor.pass 1 }).mask n :=
    fun fuel => skipAfterKey_mask fuel
      { s₁ with keyAllowed := !s₁.inFlow, cursor := s₁.cursor.pass 1 }
  rw [length_mask, hskip]
  refine guard_follows (by simp) h fun h => ?_
  cases h
  exact congrArg some (pushFrom_mask rfl mark_mask)

theorem valueOfKey?_mask {key : SimpleKey} {pair : Bool} {start : Mark}
    (h : s.valueOfKey? key pair start = some s') :
    (s.mask n).valueOfKey? key pair start = some (s'.mask n) := by
  unfold Scanner.valueOfKey? at h ⊢
  refine guard_follows Iff.rfl h fun h => ?_
  cases h
  have hpair : (if pair = true then ((s.mask n).insertAt key.number .key key.mark).insertAt
      key.number .flowMappingStart key.mark else (s.mask n).insertAt key.number .key key.mark) =
        mask n (if pair = true then (s.insertAt key.number .key key.mark).insertAt
          key.number .flowMappingStart key.mark else s.insertAt key.number .key key.mark) := by
    rw [apply_ite (mask n)]
    rfl
  dsimp only
  rw [hpair, roll_mask, rollOne_mask]
  rfl

theorem valueAlone?_mask {pair : Bool} {start : Mark} (h : s.valueAlone? pair start = some s') :
    (s.mask n).valueAlone? pair start = some (s'.mask n) := by
  unfold Scanner.valueAlone? at h ⊢
  have hpair : (if pair = true then (s.mask n).push .flowMappingStart start.span else s.mask n) =
      (if pair = true then s.push .flowMappingStart start.span else s).mask n := by
    rw [apply_ite (mask n)]
    rfl
  rw [hpair]
  refine guard_follows (by simp) h fun h => ?_
  cases h
  have hroll : ∀ s : Scanner, (if (s.mask n).inFlow = true then s.mask n else
      (s.mask n).roll start.column none .blockMappingStart start) =
        mask n (if s.inFlow = true then s else
          s.roll start.column none .blockMappingStart start) := by
    intro s
    rw [apply_ite (mask n), roll_mask, inFlow_mask]
  rw [hroll]
  dsimp only
  rw [rollOne_mask, inFlow_mask]
  rfl

theorem tabbedValue?_mask {c c' : Cursor} (h : tabbedValue? c = some (c', false)) :
    ∃ tabbed, tabbedValue? (c.mask n) = some (c'.mask n, tabbed) := by
  unfold tabbedValue? at h ⊢
  by_cases htab : c.peek = '\t'
  · rw [if_pos htab] at h
    obtain ⟨b, hb, h⟩ := Option.map_eq_some_iff.mp h
    obtain ⟨rfl, -⟩ := Prod.mk.inj h
    rw [if_pos (by simpa using htab), Cursor.skipBlanks?_mask, hb]
    exact ⟨_, rfl⟩
  · rw [if_neg htab] at h
    cases h
    exact ⟨false, if_neg (by simpa using htab)⟩

/-- Whether a value belongs to a single pair. -/
def inPair (s : Scanner) : Bool := !s.pairs.isEmpty && !s.flowMapping

/-- Opens the single pair that a value belongs to. -/
def openPair (s : Scanner) : Scanner :=
  if s.inPair then { s with pairs := true :: s.pairs.drop 1 } else s

theorem openPair_mask : (s.mask n).openPair = s.openPair.mask n := by
  rw [openPair, openPair, apply_ite (mask n)]
  rfl

/-- Reads a value behind its `:`. -/
def valueBehind? (s : Scanner) (pair : Bool) (start : Mark) : Option Scanner :=
  (if (s.keys.headD {}).possible then s.valueOfKey? (s.keys.headD {}) pair start
    else s.valueAlone? pair start).bind fun s => some (s.push .value start.span)

theorem valueBehind?_mask {pair : Bool} {start : Mark} (h : s.valueBehind? pair start = some s') :
    (s.mask n).valueBehind? pair start = some (s'.mask n) := by
  obtain ⟨s₁, hvalue, h⟩ := Option.bind_eq_some_iff.mp h
  cases h
  refine Option.bind_eq_some_iff.mpr ⟨s₁.mask n, ?_, rfl⟩
  exact ite_follows (by simp) hvalue (fun _ h => by simpa using valueOfKey?_mask h)
    fun _ h => valueAlone?_mask h

theorem value?_eq (s : Scanner) : s.value? =
    (tabbedValue? (s.openPair.cursor.pass 1)).bind fun x => if x.2 then none
      else ({ s.openPair with cursor := x.1 } : Scanner).valueBehind? s.inPair s.cursor.mark := by
  refine congrArg (Option.bind (tabbedValue? (s.openPair.cursor.pass 1))) (funext fun x => ?_)
  refine ite_congr rfl (fun _ => rfl) fun _ => ?_
  refine Eq.trans ?_ (apply_ite (Option.bind · _) _ _ _).symm
  exact ite_congr rfl (fun _ => rfl) fun _ => rfl

/-- A placeholder is an error behind tabs alone. -/
theorem value?_mask (h : s.value? = some s') :
    (s.mask n).value? = some (s'.mask n) ∨ (s.mask n).value? = none := by
  rw [value?_eq] at h ⊢
  obtain ⟨⟨c, tabbed⟩, htab, h⟩ := Option.bind_eq_some_iff.mp h
  cases tabbed with
  | true => cases h
  | false =>
    obtain ⟨tabbed, hmask⟩ := @tabbedValue?_mask n _ _ htab
    rw [openPair_mask, cursor_mask, cursor_mask, pass_mask, hmask, mark_mask]
    cases tabbed with
    | true => exact .inr rfl
    | false => exact .inl (valueBehind?_mask (s := { s.openPair with cursor := c }) h)

theorem flowValue?_mask (h : s.flowValue? = some s') :
    (s.mask n).flowValue? = some (s'.mask n) ∨ (s.mask n).flowValue? = none := by
  unfold Scanner.flowValue? at h ⊢
  dsimp only at h ⊢
  split_ifs at h ⊢ with hnext hnext'
  · exact .inr rfl
  · exact value?_mask h

/-! ### Tokens with text -/

theorem anchor?_mask {isAlias : Bool} (h : s.anchor? isAlias = some s')
    (hn : n < s'.cursor.rest.length) : (s.mask n).anchor? isAlias = some (s'.mask n) := by
  unfold Scanner.anchor? at h ⊢
  extract_lets mark t s₁ c name at h
  have hc : ({ (s.mask n).saveKey with keyAllowed := false } : Scanner).cursor.pass 1 =
      c.mask n := by
    rw [saveKey_mask]
    exact pass_mask 1
  have hlength : n < (c.pass name.length).rest.length := by
    rcases of_ite_eq h with ⟨-, h⟩ | h
    · cases h
    · cases h
      exact hn
  have hname : (c.mask n).rest.takeWhile isAnchorNameChar = name :=
    takeWhile_maskStar (by decide) hlength
  dsimp only
  rw [hc, hname]
  refine ite_follows Iff.rfl h (fun _ h => by cases h) fun _ h => ?_
  cases h
  refine congrArg some (pushFrom_mask ?_ (by rw [cursor_mask, mark_mask]))
  rw [saveKey_mask, pass_mask]
  rfl

theorem tag?_mask (h : s.tag? = some s') (hn : n < s'.cursor.rest.length) :
    (s.mask n).tag? = some (s'.mask n) := by
  obtain ⟨⟨handle, c⟩, hread, h⟩ := Option.bind_eq_some_iff.mp h
  cases h
  refine Option.bind_eq_some_iff.mpr ⟨(handle, c.mask n), ?_, ?_⟩
  · rw [saveKey_mask]
    exact readTag?_mask hread hn
  · rw [saveKey_mask]
    exact congrArg some (pushFrom_mask rfl mark_mask)

theorem blockScalar?_mask {folded : Bool} (h : s.blockScalar? folded = some s')
    (hn : n < s'.cursor.rest.length) : (s.mask n).blockScalar? folded = some (s'.mask n) := by
  have hstart : ({ (s.mask n).saveKey with keyAllowed := true } : Scanner).unrollOnes =
      ({ s.saveKey with keyAllowed := true } : Scanner).unrollOnes.mask n := by
    rw [saveKey_mask, ← unrollOnes_mask]
    rfl
  obtain ⟨b, hread, h⟩ := Option.bind_eq_some_iff.mp h
  cases h
  refine Option.bind_eq_some_iff.mpr ⟨b.mask n, ?_, ?_⟩
  · rw [hstart]
    exact readBlock?_mask hread hn
  · refine congrArg some (pushFrom_mask ?_ rfl)
    rw [hstart]
    rfl

theorem quotedScalar?_mask {single : Bool} (h : s.quotedScalar? single = some s')
    (hn : n < s'.cursor.rest.length) : (s.mask n).quotedScalar? single = some (s'.mask n) := by
  obtain ⟨q, hread, h⟩ := Option.bind_eq_some_iff.mp h
  obtain ⟨s₁, hskip, h⟩ := Option.bind_eq_some_iff.mp h
  cases h
  have hle := (reaches_skipToToken? hskip).1.length_le
  refine Option.bind_eq_some_iff.mpr ⟨q.mask n, ?_, Option.bind_eq_some_iff.mpr ⟨s₁.mask n, ?_, ?_⟩⟩
  · rw [saveKey_mask]
    exact readQuoted?_mask hread (hn.trans_le hle)
  · rw [saveKey_mask]
    simp only [QuotedRead.cursor_mask, length_mask]
    exact step_follows (skipToToken?_mask _) rfl hskip
  · simp only [cursor_mask, mark_mask]
    rfl

theorem plainScalar?_mask (h : s.plainScalar? = some s') (hn : n < s'.cursor.rest.length) :
    (s.mask n).plainScalar? = some (s'.mask n) := by
  have hstart : ({ (s.mask n).saveKey with keyAllowed := false } : Scanner).unrollOnes =
      ({ s.saveKey with keyAllowed := false } : Scanner).unrollOnes.mask n := by
    rw [saveKey_mask, ← unrollOnes_mask]
    rfl
  obtain ⟨p, hread, h⟩ := Option.bind_eq_some_iff.mp h
  cases h
  refine Option.bind_eq_some_iff.mpr ⟨p.mask n, ?_, ?_⟩
  · rw [hstart]
    exact readPlain?_mask hread hn
  · rw [hstart]
    simp only [PlainRead.cursor_mask, leading_mask, cursor_mask, mark_mask]
    rfl

/-! ### Steps -/

/-- A step to `s'` is taken with the placeholder too, unless it is an error there. -/
def Follows (n : Nat) (s' : Scanner) (r : Option Scanner) : Prop := r = some (s'.mask n) ∨ r = none

theorem Follows.ite {p p' : Prop} [Decidable p] [Decidable p'] {a b a' b' : Option Scanner}
    (hp : p' ↔ p) (h : (if p then a else b) = some s') (ha : p → a = some s' → Follows n s' a')
    (hb : ¬ p → b = some s' → Follows n s' b') : Follows n s' (if p' then a' else b') :=
  ite_of_ite (Follows n s') hp h ha hb

theorem contentToken?_mask (h : s.contentToken? = some s') (hn : n < s'.cursor.rest.length)
    (hpeek : (s.cursor.mask n).peek = s.cursor.peek) : Follows n s' (s.mask n).contentToken? := by
  unfold Scanner.contentToken? at h ⊢
  dsimp only at h ⊢
  rw [cursor_mask, hpeek]
  refine Follows.ite (by simp) h (fun _ h => by cases h) fun _ h => ?_
  refine Follows.ite Iff.rfl h (fun _ h => .inl (flowStart?_mask h)) fun _ h => ?_
  refine Follows.ite Iff.rfl h (fun _ h => .inl (flowStart?_mask h)) fun _ h => ?_
  refine Follows.ite Iff.rfl h (fun _ h => .inl (flowEnd?_mask h)) fun _ h => ?_
  refine Follows.ite Iff.rfl h (fun _ h => .inl (flowEnd?_mask h)) fun _ h => ?_
  refine Follows.ite Iff.rfl h (fun _ h => .inl (flowEntry?_mask h)) fun _ h => ?_
  refine Follows.ite (by simp) h (fun _ h => .inl (blockEntry?_mask h)) fun _ h => ?_
  refine Follows.ite (by simp) h (fun _ h => .inl (key?_mask h)) fun _ h => ?_
  refine Follows.ite (by simp) h (fun _ h => value?_mask h) fun _ h => ?_
  refine Follows.ite (by simp) h (fun _ h => flowValue?_mask h) fun _ h => ?_
  refine Follows.ite Iff.rfl h (fun _ h => .inl (anchor?_mask h hn)) fun _ h => ?_
  refine Follows.ite Iff.rfl h (fun _ h => .inl (anchor?_mask h hn)) fun _ h => ?_
  refine Follows.ite Iff.rfl h (fun _ h => .inl (tag?_mask h hn)) fun _ h => ?_
  refine Follows.ite (by simp) h (fun _ h => .inl (blockScalar?_mask h hn)) fun _ h => ?_
  refine Follows.ite (by simp) h (fun _ h => .inl (blockScalar?_mask h hn)) fun _ h => ?_
  refine Follows.ite Iff.rfl h (fun _ h => .inl (quotedScalar?_mask h hn)) fun _ h => ?_
  refine Follows.ite Iff.rfl h (fun _ h => .inl (quotedScalar?_mask h hn)) fun _ h => ?_
  exact Follows.ite Iff.rfl h (fun _ h => by cases h) fun _ h => .inl (plainScalar?_mask h hn)

/-- A token that ends in front of the `*`, and does not start there. -/
theorem readToken?_mask (h : s.readToken? = some s') (hn : n < s'.cursor.rest.length)
    (hpeek : (s.cursor.mask n).peek = s.cursor.peek) : Follows n s' (s.mask n).readToken? := by
  unfold readToken? at h ⊢
  rw [cursor_mask, hpeek]
  refine Follows.ite Iff.rfl h (fun _ h => .inl (streamEnd?_mask h)) fun _ h => ?_
  refine Follows.ite (by simp) h (fun _ h => .inl (directive?_mask h hn)) fun _ h => ?_
  refine Follows.ite (by simp) h (fun _ h => .inl (documentIndicator?_mask h)) fun _ h => ?_
  refine Follows.ite (by simp) h (fun _ h => .inl (documentEnd?_mask h)) fun _ h => ?_
  exact contentToken?_mask h hn hpeek

end Scanner

end PipelineScripts.Yaml
