import PipelineScripts.Proofs.ReaderTurns
import PipelineScripts.Proofs.WrittenTokens

/-!
# What a reader takes from the tokens

A reader takes the tokens one after the other up to the end of the stream, or up to the first alias
whose anchor is not known. Every plain scalar among the tokens that it takes gives an event.
-/
namespace PipelineScripts.Yaml

/-! ### Known anchors -/

/-- The names of the anchors that are known behind a token. -/
def Token.define (t : Token) (anchors : List (List Char)) : List (List Char) :=
  match t.kind with
  | .anchor name => name :: anchors
  | _ => anchors

/-- A token that a reader may take: no alias without its anchor, and not the end. -/
def Token.IsKnown (anchors : List (List Char)) (t : Token) : Prop :=
  match t.kind with
  | .aliasOf name => name ∈ anchors
  | .streamEnd => False
  | _ => True

/-- The names of the anchors that are known behind some tokens. -/
def anchorsAfter (anchors : List (List Char)) (ts : List Token) : List (List Char) :=
  ts.foldl (fun anchors t => t.define anchors) anchors

/-- The anchor of every alias is known before it, and the end is not among the tokens. -/
def Known : List (List Char) → List Token → Prop
  | _, [] => True
  | anchors, t :: ts => t.IsKnown anchors ∧ Known (t.define anchors) ts

variable {anchors : List (List Char)} {ts ts' : List Token} {t : Token}

theorem anchorsAfter_append (anchors : List (List Char)) (ts ts' : List Token) :
    anchorsAfter anchors (ts ++ ts') = anchorsAfter (anchorsAfter anchors ts) ts' :=
  List.foldl_append

theorem known_append : Known anchors (ts ++ ts') ↔
    Known anchors ts ∧ Known (anchorsAfter anchors ts) ts' := by
  induction ts generalizing anchors with
  | nil => simp [Known, anchorsAfter]
  | cons t ts ih =>
    rw [List.cons_append, Known, Known, ih, and_assoc]
    rfl

theorem Token.define_of_isFree (h : t.kind.isFree = true) : t.define anchors = anchors := by
  unfold define
  split
  next hkind => simp [hkind, TokenKind.isFree] at h
  next => rfl

theorem Token.isKnown_of_isFree (h : t.kind.isFree = true) : t.IsKnown anchors := by
  unfold IsKnown
  split
  next hkind => simp [hkind, TokenKind.isFree] at h
  next hkind => simp [hkind, TokenKind.isFree] at h
  next => trivial

/-- Only the tokens of interest matter. -/
theorem known_tracked (anchors : List (List Char)) (ts : List Token) :
    (Known anchors (tracked ts) ↔ Known anchors ts) ∧
      anchorsAfter anchors (tracked ts) = anchorsAfter anchors ts := by
  induction ts generalizing anchors with
  | nil => exact ⟨Iff.rfl, rfl⟩
  | cons t ts ih =>
    cases hfree : t.kind.isFree
    · rw [tracked_cons hfree, Known, Known, (ih _).1]
      exact ⟨Iff.rfl, (ih (t.define anchors)).2⟩
    · have hdefine : t.define anchors = anchors := t.define_of_isFree hfree
      rw [tracked_cons_of_isFree hfree, Known, hdefine, (ih anchors).1, (ih anchors).2]
      refine ⟨(and_iff_right (t.isKnown_of_isFree hfree)).symm, ?_⟩
      rw [anchorsAfter, anchorsAfter, List.foldl_cons, hdefine]

namespace EventReader

variable {r₀ r r' : EventReader} {e : Event} {kind : EventKind} {span : Span}

/-! ### What was passed over -/

/-- Known tokens are passed over, none of them a plain scalar. -/
structure Passed (r₀ r : EventReader) : Prop where
  tokens : ∃ used, r₀.tokens = used ++ r.tokens ∧ Known r₀.anchors used ∧
    r.anchors = anchorsAfter r₀.anchors used ∧ ∀ t ∈ used, ∀ text, t.kind ≠ .scalar .plain text
  stack : ∀ state ∈ r.stack, state.isFirst = false

namespace Passed

theorem refl (h : r.Ready) : r.Passed r := ⟨⟨[], rfl, trivial, rfl, by simp⟩, h.stack⟩

/-- One more token is passed over, that may define an anchor. -/
theorem next (h : r₀.Passed r) (ht : r.tokens = t :: ts) (htokens : r'.tokens = ts)
    (hanchors : r'.anchors = t.define r.anchors) (hstack : r'.stack = r.stack)
    (hknown : t.IsKnown r.anchors) (hplain : ∀ text, t.kind ≠ .scalar .plain text) :
    r₀.Passed r' := by
  obtain ⟨used, hused, hk, ha, hp⟩ := h.tokens
  refine ⟨⟨used ++ [t], ?_, ?_, ?_, ?_⟩, hstack ▸ h.stack⟩
  · rw [hused, ht, htokens, List.append_assoc]
    rfl
  · rw [known_append, ← ha]
    exact ⟨hk, hknown, trivial⟩
  · rw [anchorsAfter_append, ← ha, hanchors]
    rfl
  · intro u hu
    rcases List.mem_append.mp hu with hu | hu
    · exact hp u hu
    · rw [List.mem_singleton.mp hu]
      exact hplain

/-- Tokens of structure are passed over. -/
theorem skips (h : r₀.Passed r) (skipped : List Token) (ht : r.tokens = skipped ++ r'.tokens)
    (hfree : ∀ t ∈ skipped, t.kind.isFree = true) (hanchors : r'.anchors = r.anchors)
    (hstack : r'.stack = r.stack) : r₀.Passed r' := by
  induction skipped generalizing r with
  | nil =>
    obtain ⟨used, hused, hk, ha, hp⟩ := h.tokens
    exact ⟨⟨used, by rw [hused, ht, List.nil_append], hk, hanchors.trans ha, hp⟩, hstack ▸ h.stack⟩
  | cons t skipped ih =>
    have ht' := hfree t List.mem_cons_self
    have hnext : r₀.Passed { r with tokens := skipped ++ r'.tokens } := by
      refine h.next ht rfl (t.define_of_isFree ht').symm rfl (t.isKnown_of_isFree ht') ?_
      rintro text hkind
      rw [hkind] at ht'
      cases ht'
    exact ih hnext rfl (fun u hu => hfree u (List.mem_cons_of_mem _ hu)) hanchors hstack

theorem skip (h : r₀.Passed r) (ht : r.tokens = t :: ts) (hfree : t.kind.isFree = true) :
    r₀.Passed r.skip :=
  h.skips [t] (by rw [EventReader.skip, ht]; rfl) (by simpa using hfree) rfl rfl

theorem define (h : r₀.Passed r) (ht : r.tokens = t :: ts) {name : List Char}
    (hkind : t.kind = .anchor name) : r₀.Passed (r.skip.define name).2 := by
  refine h.next ht (by rw [EventReader.define, EventReader.skip, ht]; rfl) ?_ rfl ?_ ?_
  · rw [Token.define, hkind]
    rfl
  · rw [Token.IsKnown, hkind]
    trivial
  · simp [hkind]

theorem expect (h : r₀.Passed r) (state : Expectation) : r₀.Passed (r.expect state) :=
  ⟨h.tokens, h.stack⟩

theorem putAside (h : r₀.Passed r) {state : Expectation} (hstate : state.isFirst = false) :
    r₀.Passed (r.putAside state) := by
  refine ⟨h.tokens, fun other hother => ?_⟩
  rcases List.mem_cons.mp hother with rfl | hother
  · exact hstate
  · exact h.stack other hother

theorem resume (h : r₀.Passed r) : r₀.Passed r.resume :=
  ⟨h.tokens, fun state hstate => h.stack state (List.mem_of_mem_drop hstate)⟩

theorem isFirst_resume (h : r₀.Passed r) : r.resume.state.isFirst = false := by
  rw [EventReader.resume]
  dsimp only
  cases hstack : r.stack with
  | nil => rfl
  | cons state stack => exact h.stack state (hstack ▸ List.mem_cons_self)

theorem ready (h : r₀.Passed r) (hstate : r.state.isFirst = false) : r.Ready :=
  ⟨fun hfirst => by simp [hfirst] at hstate, h.stack⟩

end Passed

/-! ### Outcomes -/

/-- A step of a reader that does not end the stream: the tokens that it takes are known, and a
plain scalar among them gives the event. -/
structure Takes (r : EventReader) (e : Event) (r' : EventReader) : Prop where
  ready : r'.Ready
  tokens : ∃ used, r.tokens = used ++ r'.tokens ∧ Known r.anchors used ∧
    r'.anchors = anchorsAfter r.anchors used ∧ ∀ t ∈ used, ∀ text,
      t.kind = .scalar .plain text → ∃ p, e = ⟨.scalar .plain text p, t.span⟩

/-- The end of the stream is reached over known tokens, none of them a plain scalar. -/
def Ends (r : EventReader) : Prop :=
  ∃ (r₁ : EventReader) (t : Token) (ts : List Token), r.Passed r₁ ∧ r₁.tokens = t :: ts ∧
    t.kind = .streamEnd

/-- An alias is reached over known tokens, and its anchor is not known. -/
def Misses (r : EventReader) (mark : Mark) : Prop :=
  ∃ (r₁ : EventReader) (t : Token) (ts : List Token) (name : List Char), r.Passed r₁ ∧
    r₁.tokens = t :: ts ∧ t.kind = .aliasOf name ∧ name ∉ r₁.anchors ∧ t.span.start = mark

/-- What a step of a reader comes to. -/
def Outcome (r : EventReader) : Step → Prop
  | .ok (e, r') => if e.kind = .streamEnd then r.Ends else r.Takes e r'
  | .error .malformed => True
  | .error (.unknownAnchor mark) => r.Misses mark

theorem outcome_peek {f : Token → Step}
    (h : ∀ t ts, r.tokens = t :: ts → r₀.Outcome (f t)) : r₀.Outcome (r.peek >>= f) :=
  of_peek trivial h

theorem outcome_of_ready (h : r₀.Passed r) (hready : r.Ready) (hkind : kind ≠ .streamEnd) :
    r₀.Outcome (r.emit kind span) := by
  obtain ⟨used, hused, hk, ha, hp⟩ := h.tokens
  rw [emit, Outcome, if_neg hkind]
  exact ⟨hready, used, hused, hk, ha, fun t ht text hkind => absurd hkind (hp t ht text)⟩

theorem outcome_emit (h : r₀.Passed r) (hstate : r.state.isFirst = false)
    (hkind : kind ≠ .streamEnd) : r₀.Outcome (r.emit kind span) :=
  outcome_of_ready h (h.ready hstate) hkind

/-- A collection starts at its token, which is passed over in the next step. -/
theorem outcome_open (h : r₀.Passed r) (ht : r.tokens = t :: ts) (hfree : t.kind.isFree = true)
    (state : Expectation) (hkind : kind ≠ .streamEnd) :
    r₀.Outcome ((r.expect state).emit kind span) := by
  refine outcome_of_ready (h.expect state) ⟨fun _ t' ts' ht' => ?_, h.stack⟩ hkind
  obtain ⟨rfl, -⟩ := List.cons.inj (ht.symm.trans ht')
  exact hfree

theorem outcome_emitMissing (h : r₀.Passed r) (hstate : r.state.isFirst = false) :
    r₀.Outcome (r.emitMissing span) := outcome_emit h hstate (by simp)

/-- A node goes on with what was put aside. -/
theorem outcome_resume (h : r₀.Passed r) (hkind : kind ≠ .streamEnd) :
    r₀.Outcome (r.resume.emit kind span) := outcome_emit h.resume h.isFirst_resume hkind

/-! ### Nodes -/

theorem free_of_tag {handle : List Char} (h : t.kind = .tag handle) : t.kind.isFree = true := by
  rw [h]
  rfl

theorem HasProperties.passed {p : Properties} (hp : r.HasProperties p r') (h : r₀.Passed r) :
    r₀.Passed r' := by
  cases hp with
  | none => exact h
  | tag ht hkind => exact h.skip ht (free_of_tag hkind)
  | anchor ht hkind => exact h.define ht hkind
  | anchorTag ht hkind ht' hkind' => exact (h.define ht hkind).skip ht' (free_of_tag hkind')
  | tagAnchor ht hkind ht' hkind' => exact (h.skip ht (free_of_tag hkind)).define ht' hkind'

theorem anchorNumber?_eq_none_iff {name : List Char} :
    r.anchorNumber? name = none ↔ name ∉ r.anchors := by
  simp only [anchorNumber?, Option.map_eq_none_iff, List.findIdx?_eq_none_iff, beq_eq_false_iff_ne]
  exact ⟨fun h hmem => h name hmem rfl, fun h other hother heq => h (heq ▸ hother)⟩

/-- A node of one token is taken. -/
theorem outcome_take (h : r₀.Passed r) (ht : r.tokens = t :: ts) (hknown : t.IsKnown r.anchors)
    (hdefine : t.define r.anchors = r.anchors) (hkind : kind ≠ .streamEnd)
    (hplain : ∀ text, t.kind = .scalar .plain text → ∃ p, kind = .scalar .plain text p) :
    r₀.Outcome (r.resume.skip.emit kind t.span) := by
  obtain ⟨used, hused, hk, ha, hp⟩ := h.tokens
  have hskip : r.resume.skip.tokens = ts := by
    rw [EventReader.skip, EventReader.resume, ht]
    rfl
  have hready : r.resume.skip.Ready :=
    ⟨fun hfirst => by simp [EventReader.skip, h.isFirst_resume] at hfirst, h.resume.stack⟩
  rw [emit, Outcome, if_neg hkind]
  refine ⟨hready, used ++ [t], ?_, ?_, ?_, fun u hu text hu' => ?_⟩
  · rw [hused, ht, hskip, List.append_assoc]
    rfl
  · rw [known_append, ← ha]
    exact ⟨hk, hknown, trivial⟩
  · rw [anchorsAfter_append, ← ha]
    exact hdefine.symm
  · rcases List.mem_append.mp hu with hu | hu
    · exact absurd hu' (hp u hu text)
    · obtain rfl := List.mem_singleton.mp hu
      obtain ⟨p, rfl⟩ := hplain text hu'
      exact ⟨p, rfl⟩

/-- What a node comes to. -/
theorem NodeTurn.outcome {x : Step} (hturn : r.NodeTurn x) (h : r₀.Passed r) :
    r₀.Outcome x := by
  cases hturn with
  | refuse => trivial
  | unknown ht hkind hnumber =>
    exact ⟨r, _, _, _, h, ht, hkind, anchorNumber?_eq_none_iff.mp hnumber, rfl⟩
  | aliasOf ht hkind hnumber =>
    refine outcome_take h ht ?_ ?_ (by simp) (by simp [hkind])
    · rw [Token.IsKnown, hkind]
      by_contra hmem
      rw [anchorNumber?_eq_none_iff.mpr hmem] at hnumber
      cases hnumber
    · rw [Token.define, hkind]
  | scalar hp ht hkind =>
    refine outcome_take (hp.passed h) ht ?_ ?_ (by simp) fun text' hkind' => ?_
    · rw [Token.IsKnown, hkind]
      trivial
    · rw [Token.define, hkind]
    · rw [hkind] at hkind'
      cases hkind'
      exact ⟨_, rfl⟩
  | collection hp ht hfree _ hkind =>
    refine outcome_open (hp.passed h) ht hfree _ ?_
    rcases hkind with rfl | rfl <;> simp
  | empty hp _ => exact outcome_resume (hp.passed h) (by simp)
  | leaveOut => exact outcome_resume h (by simp)

/-! ### Structure -/

/-- What is passed over in a turn. -/
theorem Over.passed (h : r₀.Over r) (hready : r₀.Ready) : r₀.Passed r := by
  obtain ⟨skipped, hskipped, hfree⟩ := h.tokens
  exact (Passed.refl hready).skips skipped hskipped (hfree hready) h.anchors h.stack

theorem DocumentTurn.outcome {x : Step} (h : r.DocumentTurn x) (hready : r.Ready) :
    r.Outcome x := by
  cases h with
  | refuse => trivial
  | finish hover ht hkind =>
    rw [emit, Outcome, if_pos rfl]
    exact ⟨_, _, _, hover.passed hready, ht, hkind⟩
  | start hover hstate =>
    refine outcome_emit (((hover.passed hready).putAside rfl).expect _) ?_ (by simp)
    rcases hstate with rfl | rfl <;> rfl

theorem outcome_documentEnd (h : r₀.Passed r) : r₀.Outcome r.documentEnd := by
  refine outcome_peek fun t ts ht => ?_
  have h₁ : r₀.Passed { r with handle := none } := ⟨h.tokens, h.stack⟩
  dsimp only
  split
  next hkind => exact outcome_emit ((h₁.skip ht (by rw [hkind]; rfl)).expect _) rfl (by simp)
  next => trivial
  next => trivial
  next => exact outcome_emit (h₁.expect _) rfl (by simp)

/-- What a turn inside a collection comes to. -/
theorem Turn.outcome {w : Nat} {x : Step} (h : r.Turn w x) (hready : r.Ready) : r.Outcome x := by
  cases h with
  | refuse => trivial
  | close hover _ hkind =>
    refine outcome_resume (hover.passed hready) ?_
    rcases hkind with rfl | rfl <;> simp
  | closePair hover _ => exact outcome_emit ((hover.passed hready).expect _) rfl (by simp)
  | openPair hover _ _ => exact outcome_emit ((hover.passed hready).expect _) rfl (by simp)
  | leaveOut hover _ hfirst _ => exact outcome_emitMissing ((hover.passed hready).expect _) hfirst
  | node hover _ hfirst =>
    exact (nodeTurn_node _ _ _).outcome ((hover.passed hready).putAside hfirst)

/-- Whatever is expected, known tokens are taken. -/
theorem outcome_step (hready : r.Ready) : r.Outcome r.step := by
  by_cases hinside : 0 < r.state.weight
  · exact (turn_step hinside).outcome hready
  have h := Passed.refl hready
  unfold step
  cases hs : r.state with
  | streamStart =>
    refine outcome_peek fun t ts ht => ?_
    have hfree := hready.head (by rw [hs]; rfl) t ts ht
    exact outcome_emit ((h.skip ht hfree).expect _) rfl (by simp)
  | implicitDocument | explicitDocument => exact (documentTurn_document r _).outcome hready
  | documentContent => exact (nodeTurn_documentContent r).outcome h
  | documentEnd => exact outcome_documentEnd h
  | blockNode => exact (nodeTurn_node r _ _).outcome h
  | done => trivial
  | _ => simp [hs, Expectation.weight] at hinside

/-! ### Runs -/

/-- A run up to the end of the stream takes known tokens, and every plain scalar among them is an
event. -/
theorem taken_of_run {fuel : Nat} {events : List Event} (hready : r.Ready)
    (h : run fuel r = .ok events) : ∃ pre t rest, r.tokens = pre ++ t :: rest ∧
      t.kind = .streamEnd ∧ Known r.anchors pre ∧ ∀ u ∈ pre, ∀ text,
        u.kind = .scalar .plain text → ∃ p, ⟨.scalar .plain text p, u.span⟩ ∈ events := by
  induction fuel generalizing r events with
  | zero => cases h
  | succ fuel ih =>
    have hstep := outcome_step hready
    rw [run] at h
    cases hr : r.step with
    | error e =>
      rw [hr] at h
      cases h
    | ok x =>
      obtain ⟨e, r'⟩ := x
      rw [hr] at h hstep
      rw [Outcome] at hstep
      dsimp only at h
      split_ifs at h hstep with hend
      · obtain ⟨r₁, t, ts, hpassed, ht, hkind⟩ := hstep
        obtain ⟨used, hused, hk, ha, hp⟩ := hpassed.tokens
        exact ⟨used, t, ts, by rw [hused, ht], hkind, hk,
          fun u hu text hu' => absurd hu' (hp u hu text)⟩
      · cases hrun : run fuel r' with
        | error e' =>
          rw [hrun] at h
          cases h
        | ok events' =>
          rw [hrun] at h
          cases h
          obtain ⟨pre, t, rest, htokens, hkind, hpre, hplain⟩ := ih hstep.ready hrun
          obtain ⟨used, hused, hk, ha, hp⟩ := hstep.tokens
          refine ⟨used ++ pre, t, rest, by rw [hused, htokens, List.append_assoc], hkind, ?_, ?_⟩
          · rw [known_append, ← ha]
            exact ⟨hk, hpre⟩
          · intro u hu text hu'
            rcases List.mem_append.mp hu with hu | hu
            · obtain ⟨p, rfl⟩ := hp u hu text hu'
              exact ⟨p, List.mem_cons_self⟩
            · obtain ⟨p, hevent⟩ := hplain u hu text hu'
              exact ⟨p, List.mem_cons_of_mem _ hevent⟩

/-- A run up to an unknown alias takes known tokens before it. -/
theorem missed_of_run {fuel : Nat} {mark : Mark} (hready : r.Ready)
    (h : run fuel r = .error (.unknownAnchor mark)) : ∃ pre t rest name,
      r.tokens = pre ++ t :: rest ∧ t.kind = .aliasOf name ∧ t.span.start = mark ∧
        Known r.anchors pre ∧ name ∉ anchorsAfter r.anchors pre := by
  induction fuel generalizing r with
  | zero => cases h
  | succ fuel ih =>
    have hstep := outcome_step hready
    rw [run] at h
    cases hr : r.step with
    | error e =>
      rw [hr] at h hstep
      cases h
      obtain ⟨r₁, t, ts, name, hpassed, ht, hkind, hname, hmark⟩ := hstep
      obtain ⟨used, hused, hk, ha, -⟩ := hpassed.tokens
      exact ⟨used, t, ts, name, by rw [hused, ht], hkind, hmark, hk, ha ▸ hname⟩
    | ok x =>
      obtain ⟨e, r'⟩ := x
      rw [hr] at h hstep
      rw [Outcome] at hstep
      dsimp only at h
      split_ifs at h hstep with hend
      cases hrun : run fuel r' with
      | ok events =>
        rw [hrun] at h
        cases h
      | error e' =>
        rw [hrun] at h
        cases h
        obtain ⟨pre, t, rest, name, htokens, hkind, hmark, hpre, hname⟩ := ih hstep.ready hrun
        obtain ⟨used, hused, hk, ha, -⟩ := hstep.tokens
        refine ⟨used ++ pre, t, rest, name, by rw [hused, htokens, List.append_assoc], hkind, hmark,
          ?_, ?_⟩
        · rw [known_append, ← ha]
          exact ⟨hk, hpre⟩
        · rwa [anchorsAfter_append, ← ha]

end EventReader

/-! ### Whole texts -/

/-- The stream starts in front of all tokens. -/
theorem isFree_of_scan {source : List Char} (h : (scan source).tokens = t :: ts) :
    t.kind.isFree = true := by
  have hsettle : Scanner.settle? (source.length + 3) { cursor := { rest := source } } =
      some (Scanner.streamStart { cursor := { rest := source } }) := rfl
  rw [scan, Scanner.tokens_succ, hsettle] at h
  obtain ⟨rfl, -⟩ := List.cons.inj h
  rfl

theorem ready_of_scan (source : List Char) :
    ({ tokens := (scan source).tokens } : EventReader).Ready :=
  ⟨fun _ _ _ h => isFree_of_scan h, by simp⟩

end PipelineScripts.Yaml
