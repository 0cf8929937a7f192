import PipelineScripts.Proofs.ScannerSteps
import PipelineScripts.Yaml.Event

/-!
# Turns of a reader

What a reader of tokens does in a step. Inside a collection, behind tokens of structure, it closes
the collection, opens a single pair, or comes to a node, that may be left out; a node is an alias, a
scalar or the start of a collection. What holds of every step is proved of these few cases, whatever
was expected.
-/
namespace PipelineScripts.Yaml

namespace Expectation

/-- How many collections an expectation belongs to. A single pair is one in a sequence. -/
def weight : Expectation → Nat
  | .pairKey | .pairValue | .pairEnd _ => 2
  | .blockSequence _ | .indentlessSequence | .blockKey _ | .blockValue | .flowSequence _
  | .flowKey _ | .flowValue | .flowValueMissing => 1
  | _ => 0

/-- A state in which the next token is passed over without a look. -/
def isFirst : Expectation → Bool
  | .streamStart | .blockSequence true | .blockKey true | .flowSequence true | .flowKey true => true
  | _ => false

end Expectation

namespace EventReader

variable {r₀ r : EventReader} {t : Token} {ts : List Token} {w : Nat}

/-- A reader that passes over no token of interest without a look. -/
structure Ready (r : EventReader) : Prop where
  head : r.state.isFirst = true → ∀ t ts, r.tokens = t :: ts → t.kind.isFree = true
  stack : ∀ state ∈ r.stack, state.isFirst = false

/-- The next token is looked at, or the tokens end early. -/
theorem of_peek {P : Step → Prop} {f : Token → Step} (hmalformed : P (.error .malformed))
    (h : ∀ t ts, r.tokens = t :: ts → P (f t)) : P (r.peek >>= f) := by
  cases htokens : r.tokens with
  | nil =>
    have hpeek : r.peek = .error .malformed := by rw [peek, htokens]
    rwa [hpeek]
  | cons t ts =>
    have hpeek : r.peek = .ok t := by rw [peek, htokens]
    rw [hpeek]
    exact h t ts htokens

/-! ### Tokens of structure -/

/-- Some tokens are passed over and nothing else is done. A reader that is ready passes over tokens
of structure only. -/
structure Over (r₀ r : EventReader) : Prop where
  tokens : ∃ skipped, r₀.tokens = skipped ++ r.tokens ∧
    (r₀.Ready → ∀ t ∈ skipped, t.kind.isFree = true)
  anchors : r.anchors = r₀.anchors
  stack : r.stack = r₀.stack

namespace Over

theorem refl (r : EventReader) : r.Over r := ⟨⟨[], rfl, by simp⟩, rfl, rfl⟩

theorem mem (h : r₀.Over r) (ht : r.tokens = t :: ts) : t ∈ r₀.tokens := by
  obtain ⟨skipped, hskipped, -⟩ := h.tokens
  rw [hskipped, ht]
  simp

theorem skip (h : r₀.Over r)
    (hfree : r₀.Ready → ∀ t ts, r.tokens = t :: ts → t.kind.isFree = true) : r₀.Over r.skip := by
  obtain ⟨skipped, hskipped, hall⟩ := h.tokens
  refine ⟨⟨skipped ++ r.tokens.take 1, ?_, fun hready t ht => ?_⟩, h.anchors, h.stack⟩
  · rw [List.append_assoc, EventReader.skip, List.take_append_drop, hskipped]
  · rcases List.mem_append.mp ht with ht | ht
    · exact hall hready t ht
    · cases htokens : r.tokens with
      | nil => simp [htokens] at ht
      | cons t' ts =>
        obtain rfl : t = t' := by simpa [htokens] using ht
        exact hfree hready t ts htokens

/-- Some more tokens of structure are passed over. -/
theorem skips (h : r₀.Over r) {r' : EventReader} (skipped : List Token)
    (htokens : r.tokens = skipped ++ r'.tokens) (hfree : ∀ t ∈ skipped, t.kind.isFree = true)
    (hanchors : r'.anchors = r.anchors) (hstack : r'.stack = r.stack) : r₀.Over r' := by
  obtain ⟨before, hbefore, hall⟩ := h.tokens
  refine ⟨⟨before ++ skipped, ?_, fun hready t ht => ?_⟩, hanchors.trans h.anchors,
    hstack.trans h.stack⟩
  · rw [hbefore, htokens, List.append_assoc]
  · exact (List.mem_append.mp ht).elim (hall hready t) (hfree t)

/-- A token is passed over after a look at it. -/
theorem skip_of_isFree (h : r₀.Over r) (ht : r.tokens = t :: ts) (hfree : t.kind.isFree = true) :
    r₀.Over r.skip :=
  h.skips [t] (by rw [EventReader.skip, ht]; rfl) (by simpa using hfree) rfl rfl

/-- The token that starts a collection is passed over in its first step. -/
theorem ite_skip {first : Bool} (hfirst : first = true → r.state.isFirst = true) :
    r.Over (if first then r.skip else r) := by
  cases first with
  | false => exact refl r
  | true => exact (refl r).skip fun hready => hready.head (hfirst rfl)

end Over

/-! ### Nodes -/

/-- The properties of a node are read, in either order. -/
inductive HasProperties (r : EventReader) : Properties → EventReader → Prop
  | none : HasProperties r {} r
  | tag {t : Token} {ts : List Token} {handle : List Char} (ht : r.tokens = t :: ts)
      (hkind : t.kind = .tag handle) : HasProperties r ⟨0, true⟩ r.skip
  | anchor {t : Token} {ts : List Token} {name : List Char} (ht : r.tokens = t :: ts)
      (hkind : t.kind = .anchor name) :
      HasProperties r ⟨r.anchors.length + 1, false⟩ (r.skip.define name).2
  | anchorTag {t t' : Token} {ts ts' : List Token} {name handle : List Char}
      (ht : r.tokens = t :: ts) (hkind : t.kind = .anchor name) (ht' : r.skip.tokens = t' :: ts')
      (hkind' : t'.kind = .tag handle) :
      HasProperties r ⟨r.anchors.length + 1, true⟩ (r.skip.define name).2.skip
  | tagAnchor {t t' : Token} {ts ts' : List Token} {name handle : List Char}
      (ht : r.tokens = t :: ts) (hkind : t.kind = .tag handle) (ht' : r.skip.tokens = t' :: ts')
      (hkind' : t'.kind = .anchor name) :
      HasProperties r ⟨r.anchors.length + 1, true⟩ (r.skip.skip.define name).2

theorem of_properties {P : Step → Prop} {f : Properties × EventReader → Step}
    (hmalformed : P (.error .malformed))
    (h : ∀ p r₁, r.HasProperties p r₁ → P (f (p, r₁))) : P (r.properties >>= f) := by
  rw [properties, bind_assoc]
  refine of_peek hmalformed fun t ts ht => ?_
  split
  next name hkind =>
    rw [bind_assoc]
    refine of_peek hmalformed fun t' ts' ht' => ?_
    split
    next handle hkind' =>
      split_ifs
      · exact h _ _ (.anchorTag ht hkind ht' hkind')
      · exact hmalformed
    next => exact h _ _ (.anchor ht hkind)
  next handle hkind =>
    split_ifs
    · exact hmalformed
    rw [bind_assoc]
    refine of_peek hmalformed fun t' ts' ht' => ?_
    split
    next name hkind' => exact h _ _ (.tagAnchor ht hkind ht' hkind')
    next => exact h _ _ (.tag ht hkind)
  next => exact h _ _ .none

/-- What a reader does where a node stands. -/
inductive NodeTurn (r : EventReader) : Step → Prop
  | refuse : NodeTurn r (.error .malformed)
  | unknown {t : Token} {ts : List Token} {name : List Char} (ht : r.tokens = t :: ts)
      (hkind : t.kind = .aliasOf name) (hnumber : r.anchorNumber? name = none) :
      NodeTurn r (.error (.unknownAnchor t.span.start))
  | aliasOf {t : Token} {ts : List Token} {name : List Char} {number : Nat}
      (ht : r.tokens = t :: ts) (hkind : t.kind = .aliasOf name)
      (hnumber : r.anchorNumber? name = some number) :
      NodeTurn r (r.resume.skip.emit (.aliasOf number) t.span)
  | scalar {r₁ : EventReader} {t : Token} {ts : List Token} {p : Properties} {form : ScalarForm}
      {text : List Char} (hp : r.HasProperties p r₁) (ht : r₁.tokens = t :: ts)
      (hkind : t.kind = .scalar form text) :
      NodeTurn r (r₁.resume.skip.emit (.scalar form text p) t.span)
  /-- The token that starts a collection is passed over in the next step. -/
  | collection {r₁ : EventReader} {t : Token} {ts : List Token} {p : Properties}
      {state : Expectation} {kind : EventKind} (hp : r.HasProperties p r₁)
      (ht : r₁.tokens = t :: ts) (hfree : t.kind.isFree = true) (hstate : state.weight = 1)
      (hkind : kind = .sequenceStart p ∨ kind = .mappingStart p) :
      NodeTurn r ((r₁.expect state).emit kind t.span)
  | empty {r₁ : EventReader} {t : Token} {ts : List Token} {p : Properties}
      (hp : r.HasProperties p r₁) (ht : r₁.tokens = t :: ts) :
      NodeTurn r (r₁.resume.emit (.scalar .plain [] p) t.span)
  | leaveOut {t : Token} {ts : List Token} (ht : r.tokens = t :: ts) :
      NodeTurn r (r.resume.emitMissing t.span)

theorem nodeTurn_node (r : EventReader) (block indentless : Bool) :
    r.NodeTurn (r.node block indentless) := by
  refine of_peek .refuse fun t ts ht => ?_
  split
  next name hkind =>
    cases hnumber : r.anchorNumber? name with
    | some number => exact .aliasOf ht hkind hnumber
    | none => exact .unknown ht hkind hnumber
  next =>
    refine of_properties .refuse fun p r₁ hp => of_peek .refuse fun t' ts' ht' => ?_
    split
    next hkind => exact .scalar hp ht' hkind
    next hkind => exact .collection hp ht' (by rw [hkind]; rfl) rfl (.inl rfl)
    next hkind => exact .collection hp ht' (by rw [hkind]; rfl) rfl (.inr rfl)
    next =>
      split_ifs with hentry hsequence hmapping
      · rw [Bool.and_eq_true, decide_eq_true_eq] at hentry
        exact .collection hp ht' (by rw [hentry.1]; rfl) rfl (.inl rfl)
      · rw [Bool.and_eq_true, decide_eq_true_eq] at hsequence
        exact .collection hp ht' (by rw [hsequence.1]; rfl) rfl (.inl rfl)
      · rw [Bool.and_eq_true, decide_eq_true_eq] at hmapping
        exact .collection hp ht' (by rw [hmapping.1]; rfl) rfl (.inr rfl)
      · exact .empty hp ht'
      · exact .refuse

theorem nodeTurn_documentContent (r : EventReader) : r.NodeTurn r.documentContent := by
  refine of_peek .refuse fun t ts ht => ?_
  have hmissing : r.NodeTurn (r.resume.emitMissing t.span) := .leaveOut ht
  have hnode := nodeTurn_node r true false
  split <;> assumption

/-! ### Documents -/

/-- What a reader does in front of a document. -/
inductive DocumentTurn (r₀ : EventReader) : Step → Prop
  | refuse : DocumentTurn r₀ (.error .malformed)
  | finish {r : EventReader} {t : Token} {ts : List Token} (hover : r₀.Over r)
      (ht : r.tokens = t :: ts) (hkind : t.kind = .streamEnd) :
      DocumentTurn r₀ ((r.expect .done).skip.emit .streamEnd t.span)
  | start {r : EventReader} {state : Expectation} {span : Span} (hover : r₀.Over r)
      (hstate : state = .blockNode ∨ state = .documentContent) :
      DocumentTurn r₀ (((r.putAside .documentEnd).expect state).emit .documentStart span)

theorem of_directives {P : Step → Prop} {f : EventReader → Step} {fuel : Nat} {seen : Bool}
    (hmalformed : P (.error .malformed)) (h : r₀.Over r)
    (hf : ∀ r₁, r₀.Over r₁ → P (f r₁)) : P (directives fuel seen r >>= f) := by
  induction fuel generalizing seen r with
  | zero => exact hf r h
  | succ fuel ih =>
    rw [directives, bind_assoc]
    refine of_peek hmalformed fun t ts ht => ?_
    split
    next hkind =>
      have hskip := h.skip_of_isFree ht (by rw [hkind]; rfl)
      split_ifs
      · exact hmalformed
      · exact ih ⟨hskip.tokens, hskip.anchors, hskip.stack⟩
    next hkind =>
      have hskip := h.skip_of_isFree ht (by rw [hkind]; rfl)
      exact ih ⟨hskip.tokens, hskip.anchors, hskip.stack⟩
    next => exact hf r h

theorem documentTurn_explicitDocument (h : r₀.Over r) : r₀.DocumentTurn r.explicitDocument := by
  refine of_directives .refuse h fun r₁ h₁ => of_peek .refuse fun t ts ht => ?_
  split_ifs with hkind
  · exact .start (r := r₁.skip) (h₁.skip_of_isFree ht (by rw [hkind]; rfl)) (.inr rfl)
  · exact .refuse

theorem documentTurn_document (r : EventReader) (implicit : Bool) :
    r.DocumentTurn (r.document implicit) := by
  unfold document
  extract_lets r₁
  have h₁ : r.Over r₁ := by
    refine (Over.refl r).skips (r.tokens.takeWhile (·.kind == TokenKind.documentEnd))
      List.takeWhile_append_dropWhile.symm (fun t ht => ?_) rfl rfl
    have hkind := List.mem_takeWhile_imp (p := fun t : Token => t.kind == .documentEnd) ht
    rw [eq_of_beq hkind]
    rfl
  have hexplicit := documentTurn_explicitDocument h₁
  refine of_peek .refuse fun t ts ht => ?_
  split
  next hkind => exact .finish h₁ ht hkind
  next => exact hexplicit
  next => exact hexplicit
  next => exact hexplicit
  next =>
    split_ifs
    · exact .start h₁ (.inl rfl)
    · exact .refuse

/-! ### Collections -/

/-- What a reader does in place of expectations of weight `w`, after it has passed over some tokens
of structure. -/
inductive Turn (r₀ : EventReader) (w : Nat) : Step → Prop
  | refuse : Turn r₀ w (.error .malformed)
  | close {r : EventReader} {kind : EventKind} {span : Span} (hover : r₀.Over r) (hw : w = 1)
      (hkind : kind = .sequenceEnd ∨ kind = .mappingEnd) : Turn r₀ w (r.resume.emit kind span)
  /-- The sequence goes on behind the pair. -/
  | closePair {r : EventReader} {span : Span} (hover : r₀.Over r) (hw : w = 2) :
      Turn r₀ w ((r.expect (.flowSequence false)).emit .mappingEnd span)
  | openPair {r : EventReader} {t : Token} (hover : r₀.Over r) (hw : w = 1) (ht : t ∈ r₀.tokens) :
      Turn r₀ w ((r.expect .pairKey).emit (.mappingStart {}) t.span)
  | leaveOut {r : EventReader} {t : Token} {state : Expectation} (hover : r₀.Over r)
      (hw : w = state.weight) (hfirst : state.isFirst = false) (ht : t ∈ r₀.tokens) :
      Turn r₀ w ((r.expect state).emitMissing t.span)
  | node {r : EventReader} {state : Expectation} {block indentless : Bool} (hover : r₀.Over r)
      (hw : w = state.weight) (hfirst : state.isFirst = false) :
      Turn r₀ w ((r.putAside state).node block indentless)

theorem turn_peek {f : Token → Step} (h : ∀ t ts, r.tokens = t :: ts → r₀.Turn w (f t)) :
    r₀.Turn w (r.peek >>= f) := of_peek .refuse h

/-- The token that ends a collection is passed over. -/
theorem turn_close {kind : EventKind} {span : Span} (h : r₀.Over r) (ht : r.tokens = t :: ts)
    (hfree : t.kind.isFree = true) (hkind : kind = .sequenceEnd ∨ kind = .mappingEnd) :
    r₀.Turn 1 (r.resume.skip.emit kind span) :=
  .close (r := r.skip) (h.skip_of_isFree ht hfree) rfl hkind

/-- A token of structure is passed over, and the node behind it is left out or read. -/
theorem turn_behind {f : Token → Step} (state : Expectation) (block indentless : Bool)
    (h : r₀.Over r) (ht : r.tokens = t :: ts) (hfree : t.kind.isFree = true)
    (hw : w = state.weight) (hfirst : state.isFirst = false)
    (hf : ∀ t', f t' = (r.skip.expect state).emitMissing t.span ∨
      f t' = (r.skip.expect state).emitMissing t'.span ∨
      f t' = (r.skip.putAside state).node block indentless) :
    r₀.Turn w (r.skip.peek >>= f) := by
  have hskip := h.skip_of_isFree ht hfree
  refine turn_peek fun t' ts' ht' => ?_
  rcases hf t' with hleft | hleft | hnode
  · exact hleft ▸ .leaveOut hskip hw hfirst (h.mem ht)
  · exact hleft ▸ .leaveOut hskip hw hfirst (hskip.mem ht')
  · exact hnode ▸ .node hskip hw hfirst

theorem turn_blockSequence {first : Bool} (hfirst : first = true → r.state.isFirst = true) :
    r.Turn 1 (r.blockSequence first) := by
  unfold blockSequence
  extract_lets +onlyGivenNames r₁
  have h₁ : r.Over r₁ := .ite_skip hfirst
  refine turn_peek fun t ts ht => ?_
  split
  next hkind => exact turn_close h₁ ht (by rw [hkind]; rfl) (.inl rfl)
  next hkind =>
    refine turn_behind (.blockSequence false) true false h₁ ht (by rw [hkind]; rfl) rfl rfl
      fun t' => ?_
    split <;> simp only [true_or, or_true]
  next => exact .refuse

theorem turn_indentlessSequence (r : EventReader) : r.Turn 1 r.indentlessSequence := by
  refine turn_peek fun t ts ht => ?_
  split
  next hkind =>
    refine turn_behind .indentlessSequence true false (.refl r) ht (by rw [hkind]; rfl) rfl rfl
      fun t' => ?_
    split <;> simp only [true_or, or_true]
  next => exact .close (.refl r) rfl (.inl rfl)

theorem turn_blockKey {first : Bool} (hfirst : first = true → r.state.isFirst = true) :
    r.Turn 1 (r.blockKey first) := by
  unfold blockKey
  extract_lets +onlyGivenNames r₁
  have h₁ : r.Over r₁ := .ite_skip hfirst
  refine turn_peek fun t ts ht => ?_
  split
  next hkind =>
    refine turn_behind .blockValue true true h₁ ht (by rw [hkind]; rfl) rfl rfl
      fun t' => ?_
    split <;> simp only [true_or, or_true]
  next => exact .leaveOut h₁ rfl rfl (h₁.mem ht)
  next hkind => exact turn_close h₁ ht (by rw [hkind]; rfl) (.inr rfl)
  next => exact .refuse

theorem turn_blockValue (r : EventReader) : r.Turn 1 r.blockValue := by
  refine turn_peek fun t ts ht => ?_
  split
  next hkind =>
    refine turn_behind (.blockKey false) true true (.refl r) ht (by rw [hkind]; rfl) rfl rfl
      fun t' => ?_
    split <;> simp only [true_or, or_true]
  next => exact .leaveOut (.refl r) rfl rfl ((Over.refl r).mem ht)

theorem turn_flowSequenceItem (h : r₀.Over r) : r₀.Turn 1 r.flowSequenceItem := by
  refine turn_peek fun t ts ht => ?_
  split
  next hkind => exact turn_close h ht (by rw [hkind]; rfl) (.inl rfl)
  next hkind =>
    have hskip := h.skip_of_isFree ht (by rw [hkind]; rfl)
    exact .openPair (r := r.skip) hskip rfl (h.mem ht)
  next => exact .node h rfl rfl

theorem turn_flowSequence {first : Bool} (hfirst : first = true → r.state.isFirst = true) :
    r.Turn 1 (r.flowSequence first) := by
  have h₁ : r.Over (if first then r.skip else r) := .ite_skip hfirst
  unfold flowSequence
  split_ifs with hskipped
  · rw [if_pos hskipped] at h₁
    exact turn_flowSequenceItem h₁
  rw [if_neg hskipped] at h₁
  refine turn_peek fun t ts ht => ?_
  split
  next hkind => exact turn_close h₁ ht (by rw [hkind]; rfl) (.inl rfl)
  next hkind => exact turn_flowSequenceItem (h₁.skip_of_isFree ht (by rw [hkind]; rfl))
  next => exact .refuse

theorem turn_pairKey (r : EventReader) : r.Turn 2 r.pairKey := by
  refine turn_peek fun t ts ht => ?_
  have hmissing : t.kind.isFree = true → r.Turn 2 ((r.skip.expect .pairValue).emitMissing t.span) :=
    fun hfree =>
      .leaveOut ((Over.refl r).skip_of_isFree ht hfree) rfl rfl ((Over.refl r).mem ht)
  split
  next hkind => exact hmissing (by rw [hkind]; rfl)
  next hkind => exact hmissing (by rw [hkind]; rfl)
  next hkind => exact hmissing (by rw [hkind]; rfl)
  next => exact .node (.refl r) rfl rfl

theorem turn_pairValue (r : EventReader) : r.Turn 2 r.pairValue := by
  refine turn_peek fun t ts ht => ?_
  split
  next hkind =>
    have h₁ := (Over.refl r).skip_of_isFree ht (by rw [hkind]; rfl)
    refine turn_peek fun t' ts' ht' => ?_
    have hmissing : r.Turn 2 ((r.skip.expect (.pairEnd t'.span)).emitMissing t'.span) :=
      .leaveOut h₁ rfl rfl (h₁.mem ht')
    have hnode : r.Turn 2 ((r.skip.putAside (.pairEnd t.span)).node false false) :=
      .node h₁ rfl rfl
    split <;> assumption
  next => exact .leaveOut (.refl r) rfl rfl ((Over.refl r).mem ht)

theorem turn_flowKeyItem (h : r₀.Over r) (span : Span) : r₀.Turn 1 (r.flowKeyItem span) := by
  refine turn_peek fun t ts ht => ?_
  split
  next hkind =>
    refine turn_behind .flowValue false false h ht (by rw [hkind]; rfl) rfl rfl
      fun t' => ?_
    split <;> simp only [true_or, or_true]
  next => exact .leaveOut h rfl rfl (h.mem ht)
  next hkind => exact turn_close h ht (by rw [hkind]; rfl) (.inr rfl)
  next => exact .node h rfl rfl

theorem turn_flowKey {first : Bool} (hfirst : first = true → r.state.isFirst = true) :
    r.Turn 1 (r.flowKey first) := by
  unfold flowKey
  extract_lets r₁
  have h₁ : r.Over r₁ := .ite_skip hfirst
  refine turn_peek fun t ts ht => ?_
  split
  next hkind => exact turn_close h₁ ht (by rw [hkind]; rfl) (.inr rfl)
  next hkind =>
    split_ifs
    · exact turn_flowKeyItem h₁ t.span
    · exact turn_flowKeyItem (h₁.skip_of_isFree ht (by rw [hkind]; rfl)) t.span
  next =>
    split_ifs
    · exact turn_flowKeyItem h₁ t.span
    · exact .refuse

theorem turn_flowValue (r : EventReader) : r.Turn 1 r.flowValue := by
  refine turn_peek fun t ts ht => ?_
  split
  next hkind =>
    refine turn_behind (.flowKey false) false false (.refl r) ht (by rw [hkind]; rfl) rfl rfl
      fun t' => ?_
    split <;> simp only [true_or, or_true]
  next => exact .leaveOut (.refl r) rfl rfl ((Over.refl r).mem ht)

/-- A step inside a collection is a turn in place of what is expected. -/
theorem turn_step (hstate : 0 < r.state.weight) : r.Turn r.state.weight r.step := by
  unfold step
  cases hs : r.state with
  | streamStart | implicitDocument | explicitDocument | documentContent | documentEnd | blockNode
  | done =>
    rw [hs] at hstate
    cases hstate
  | blockSequence first => exact turn_blockSequence fun hfirst => by rw [hs, hfirst]; rfl
  | indentlessSequence => exact turn_indentlessSequence r
  | blockKey first => exact turn_blockKey fun hfirst => by rw [hs, hfirst]; rfl
  | blockValue => exact turn_blockValue r
  | flowSequence first => exact turn_flowSequence fun hfirst => by rw [hs, hfirst]; rfl
  | pairKey => exact turn_pairKey r
  | pairValue => exact turn_pairValue r
  | pairEnd span => exact .closePair (.refl r) rfl
  | flowKey first => exact turn_flowKey fun hfirst => by rw [hs, hfirst]; rfl
  | flowValue => exact turn_flowValue r
  | flowValueMissing =>
    exact turn_peek fun t ts ht => .leaveOut (.refl r) rfl rfl ((Over.refl r).mem ht)

end EventReader

end PipelineScripts.Yaml
