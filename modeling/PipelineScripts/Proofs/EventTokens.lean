import PipelineScripts.Proofs.ReaderTurns
import Mathlib.Data.List.Infix

/-!
# What an event is made of

A step of the reader gives an alias, a node with its properties, or a mark of structure. An alias
has the number of the last anchor of its name, a node with an anchor defines the next one, and
block scalars are taken from their tokens as they are.
-/
namespace PipelineScripts.Yaml

/-- The properties of the node that an event starts. -/
def EventKind.properties? : EventKind → Option Properties
  | .scalar _ _ p | .sequenceStart p | .mappingStart p => some p
  | _ => none

/-- The form and the text of a scalar that is not plain. -/
def EventKind.formed? : EventKind → Option (ScalarForm × List Char)
  | .scalar .plain _ _ => none
  | .scalar form text _ => some (form, text)
  | _ => none

namespace EventReader

variable {r r₁ r' : EventReader} {e : Event}

/-- Tokens are passed over and no anchor is defined. -/
def Passes (r r' : EventReader) : Prop := r'.tokens <:+ r.tokens ∧ r'.anchors = r.anchors

theorem Passes.refl (r : EventReader) : r.Passes r := ⟨List.suffix_rfl, rfl⟩

theorem Passes.skip (h : r.Passes r') : r.Passes r'.skip := ⟨(List.drop_suffix 1 _).trans h.1, h.2⟩

theorem Passes.trans (h : r.Passes r₁) (h' : r₁.Passes r') : r.Passes r' :=
  ⟨h'.1.trans h.1, h'.2.trans h.2⟩

theorem Over.passes (h : r.Over r') : r.Passes r' := by
  obtain ⟨skipped, hskipped, -⟩ := h.tokens
  exact ⟨⟨skipped, hskipped.symm⟩, h.anchors⟩

/-- What becomes of the anchors where properties are read: one more, with the next number. -/
inductive Defines (r : EventReader) (p : Properties) (anchors : List (List Char)) : Prop
  | none (hp : p.anchor = 0) (hanchors : anchors = r.anchors)
  | anchor {t : Token} {name : List Char} (ht : t ∈ r.tokens) (hkind : t.kind = .anchor name)
      (hp : p.anchor = r.anchors.length + 1) (hanchors : anchors = name :: r.anchors)

/-- What a step can do. -/
inductive Yields (r : EventReader) : Event → EventReader → Prop
  | aliasOf {t : Token} {name : List Char} {number : Nat} {r' : EventReader} (ht : t ∈ r.tokens)
      (hkind : t.kind = .aliasOf name) (hnumber : r.anchorNumber? name = some number)
      (hpasses : r.Passes r') : Yields r ⟨.aliasOf number, t.span⟩ r'
  | node {e : Event} {p : Properties} {r' : EventReader} (hp : e.kind.properties? = some p)
      (hdefines : r.Defines p r'.anchors) (hspan : ∃ t ∈ r.tokens, t.span = e.span)
      (hformed : ∀ form text, e.kind.formed? = some (form, text) →
        ∃ t ∈ r.tokens, t.kind = .scalar form text ∧ t.span = e.span)
      (htokens : r'.tokens <:+ r.tokens) : Yields r e r'
  | mark {e : Event} {r' : EventReader} (hp : e.kind.properties? = none)
      (halias : ∀ number, e.kind ≠ .aliasOf number) (hpasses : r.Passes r') : Yields r e r'

theorem Yields.suffix (h : r.Yields e r') : r'.tokens <:+ r.tokens := by
  cases h with
  | aliasOf _ _ _ hpasses => exact hpasses.1
  | node _ _ _ _ htokens => exact htokens
  | mark _ _ hpasses => exact hpasses.1

theorem mem_of_tokens {t : Token} {ts : List Token} (h : r.tokens = t :: ts) : t ∈ r.tokens :=
  h ▸ List.mem_cons_self

theorem Yields.of_passes (h : r₁.Yields e r') (hr : r.Passes r₁) : r.Yields e r' := by
  have hmem : ∀ t ∈ r₁.tokens, t ∈ r.tokens := fun t ht => hr.1.subset ht
  cases h with
  | aliasOf ht hkind hnumber hpasses =>
    refine .aliasOf (hmem _ ht) hkind ?_ (hr.trans hpasses)
    rwa [anchorNumber?, ← hr.2]
  | node hp hdefines hspan hformed htokens =>
    obtain ⟨t, ht, hspan⟩ := hspan
    refine .node hp ?_ ⟨t, hmem t ht, hspan⟩ (fun form text hform => ?_) (htokens.trans hr.1)
    · cases hdefines with
      | none hp hanchors => exact .none hp (hanchors.trans hr.2)
      | anchor ht hkind hp hanchors =>
        exact .anchor (hmem _ ht) hkind (by rw [hp, hr.2]) (by rw [hanchors, hr.2])
    · obtain ⟨t, ht, hkind⟩ := hformed form text hform
      exact ⟨t, hmem t ht, hkind⟩
  | mark hp halias hpasses => exact .mark hp halias (hr.trans hpasses)

/-- A mark of structure is given out. -/
theorem yields_emit {kind : EventKind} {span : Span} (h : r₁.emit kind span = .ok (e, r'))
    (hr : r.Passes r₁) (hp : kind.properties? = none) (halias : ∀ number, kind ≠ .aliasOf number) :
    r.Yields e r' := by
  cases h
  exact .mark hp halias hr

/-- A node without properties is given out, at a token. -/
theorem yields_plain {kind : EventKind} {t : Token} (h : r₁.emit kind t.span = .ok (e, r'))
    (hr : r.Passes r₁) (ht : t ∈ r.tokens) (hp : kind.properties? = some {})
    (hformed : kind.formed? = none) : r.Yields e r' := by
  cases h
  refine .node hp (.none rfl hr.2) ⟨t, ht, rfl⟩ (fun form text hform => ?_) hr.1
  rw [hformed] at hform
  cases hform

theorem yields_emitMissing {t : Token} (h : r₁.emitMissing t.span = .ok (e, r'))
    (hr : r.Passes r₁) (ht : t ∈ r.tokens) : r.Yields e r' :=
  @yields_plain r r₁ r' e (.scalar .plain ['~'] {}) t h hr ht rfl rfl

/-! ### Nodes -/

theorem HasProperties.defines {p : Properties} (h : r.HasProperties p r₁) :
    r₁.tokens <:+ r.tokens ∧ r.Defines p r₁.anchors := by
  have hskip : r.skip.tokens <:+ r.tokens := List.drop_suffix 1 _
  cases h with
  | none => exact ⟨List.suffix_rfl, .none rfl rfl⟩
  | tag => exact ⟨hskip, .none rfl rfl⟩
  | anchor ht hkind => exact ⟨hskip, .anchor (mem_of_tokens ht) hkind rfl rfl⟩
  | anchorTag ht hkind _ _ =>
    exact ⟨(List.drop_suffix 1 _).trans hskip, .anchor (mem_of_tokens ht) hkind rfl rfl⟩
  | tagAnchor _ _ ht' hkind' =>
    exact ⟨(List.drop_suffix 1 _).trans hskip,
      .anchor (hskip.subset (mem_of_tokens ht')) hkind' rfl rfl⟩

/-- A collection or a node that is not written has no text. -/
theorem yields_textless {r₂ : EventReader} {kind : EventKind} {p : Properties} {t : Token}
    (h : r₂.emit kind t.span = .ok (e, r')) (hp : r.HasProperties p r₁) (ht : t ∈ r₁.tokens)
    (htokens : r₂.tokens = r₁.tokens) (hanchors : r₂.anchors = r₁.anchors)
    (hkind : kind.properties? = some p) (hformed : kind.formed? = none) : r.Yields e r' := by
  cases h
  obtain ⟨hsuffix, hdefines⟩ := hp.defines
  refine .node hkind (hanchors ▸ hdefines) ⟨t, hsuffix.subset ht, rfl⟩
    (fun form text hform => ?_) (htokens ▸ hsuffix)
  rw [hformed] at hform
  cases hform

/-- What a node gives. -/
theorem NodeTurn.yields {x : Step} (h : r.NodeTurn x) (hx : x = .ok (e, r')) :
    r.Yields e r' := by
  cases h with
  | refuse | unknown => cases hx
  | aliasOf ht hkind hnumber =>
    cases hx
    exact .aliasOf (mem_of_tokens ht) hkind hnumber (Passes.refl r).skip
  | @scalar _ t _ _ _ _ hp ht hkind =>
    cases hx
    obtain ⟨hsuffix, hdefines⟩ := hp.defines
    have hmem : t ∈ r.tokens := hsuffix.subset (mem_of_tokens ht)
    refine .node rfl hdefines ⟨t, hmem, rfl⟩ (fun form' text' hform => ⟨t, hmem, ?_, rfl⟩)
      ((List.drop_suffix 1 _).trans hsuffix)
    unfold EventKind.formed? at hform
    split at hform
    · cases hform
    next heq =>
      cases heq
      cases hform
      exact hkind
    next => cases hform
  | collection hp ht _ _ hkind =>
    rcases hkind with rfl | rfl
    · exact yields_textless hx hp (mem_of_tokens ht) rfl rfl rfl rfl
    · exact yields_textless hx hp (mem_of_tokens ht) rfl rfl rfl rfl
  | empty hp ht => exact yields_textless hx hp (mem_of_tokens ht) rfl rfl rfl rfl
  | leaveOut ht => exact yields_emitMissing hx (.refl r) (mem_of_tokens ht)

/-! ### Structure -/

/-- What is given in front of a document. -/
theorem DocumentTurn.yields {x : Step} (h : r.DocumentTurn x) (hx : x = .ok (e, r')) :
    r.Yields e r' := by
  cases h with
  | refuse => cases hx
  | finish hover _ _ => exact yields_emit hx hover.passes.skip rfl (by simp)
  | start hover _ => exact yields_emit hx hover.passes rfl (by simp)

theorem yields_documentEnd (h : r.documentEnd = .ok (e, r')) : r.Yields e r' := by
  obtain ⟨t, -, h⟩ := bind_eq_ok.mp h
  dsimp only at h
  split at h
  · exact yields_emit h (Passes.refl r).skip rfl (by simp)
  · cases h
  · cases h
  · exact yields_emit h (.refl r) rfl (by simp)

/-- What a turn inside a collection gives. -/
theorem Turn.yields {w : Nat} {x : Step} (h : r.Turn w x) (hx : x = .ok (e, r')) :
    r.Yields e r' := by
  cases h with
  | refuse => cases hx
  | close hover _ hkind =>
    rcases hkind with rfl | rfl
    · exact yields_emit hx hover.passes rfl (by simp)
    · exact yields_emit hx hover.passes rfl (by simp)
  | closePair hover _ => exact yields_emit hx hover.passes rfl (by simp)
  | openPair hover _ ht => exact yields_plain hx hover.passes ht rfl rfl
  | leaveOut hover _ _ ht => exact yields_emitMissing hx hover.passes ht
  | node hover _ _ =>
    have hnode := (nodeTurn_node _ _ _).yields hx
    exact hnode.of_passes hover.passes

/-- Whatever is expected, a step does one of the three things. -/
theorem yields_step (h : r.step = .ok (e, r')) : r.Yields e r' := by
  by_cases hinside : 0 < r.state.weight
  · exact (turn_step hinside).yields h
  unfold step at h
  cases hs : r.state with
  | streamStart =>
    rw [hs] at h
    obtain ⟨t, -, h⟩ := bind_eq_ok.mp h
    exact yields_emit h (Passes.refl r).skip rfl (by simp)
  | implicitDocument | explicitDocument =>
    rw [hs] at h
    exact (documentTurn_document _ _).yields h
  | documentContent =>
    rw [hs] at h
    exact (nodeTurn_documentContent _).yields h
  | documentEnd =>
    rw [hs] at h
    exact yields_documentEnd h
  | blockNode =>
    rw [hs] at h
    exact (nodeTurn_node _ _ _).yields h
  | done =>
    rw [hs] at h
    cases h
  | _ => simp [hs, Expectation.weight] at hinside

/-! ### Runs -/

/-- A run, step by step. -/
inductive Runs : EventReader → List Event → Prop
  | last {r r' : EventReader} {e : Event} (hstep : r.step = .ok (e, r'))
      (hend : e.kind = .streamEnd) : Runs r [e]
  | next {r r' : EventReader} {e : Event} {events : List Event} (hstep : r.step = .ok (e, r'))
      (hend : e.kind ≠ .streamEnd) (hrest : Runs r' events) : Runs r (e :: events)

theorem runs_of_run {fuel : Nat} {events : List Event} (h : run fuel r = .ok events) :
    r.Runs events := by
  induction fuel generalizing r events with
  | zero => cases h
  | succ fuel ih =>
    rw [run] at h
    split at h
    next => cases h
    next e r' hstep =>
      split_ifs at h with hend
      · cases h
        exact .last hstep hend
      · split at h
        next => cases h
        next hrest =>
          cases h
          exact .next hstep hend (ih hrest)

/-- What holds of the event of any step, and with more tokens too, holds of all events of a run. -/
theorem Runs.forall_events {P : List Token → Event → Prop} {events : List Event} (h : r.Runs events)
    (hmono : ∀ {ts ts' : List Token} {e : Event}, ts ⊆ ts' → P ts e → P ts' e)
    (hstep : ∀ {r r' : EventReader} {e : Event}, r.Yields e r' → P r.tokens e) :
    ∀ e ∈ events, P r.tokens e := by
  induction h with
  | last hlast _ =>
    intro e he
    obtain rfl := List.mem_singleton.mp he
    exact hstep (yields_step hlast)
  | next hnext _ _ ih =>
    intro e he
    have hyields := yields_step hnext
    rcases List.mem_cons.mp he with rfl | he
    · exact hstep hyields
    · exact hmono hyields.suffix.subset (ih e he)

/-- A scalar that is not plain is a token of the text. -/
theorem Runs.exists_token {events : List Event} (h : r.Runs events) {form : ScalarForm}
    {text : List Char} (he : e ∈ events) (hform : e.kind.formed? = some (form, text)) :
    ∃ t ∈ r.tokens, t.kind = .scalar form text ∧ t.span = e.span := by
  refine h.forall_events (P := fun ts e => e.kind.formed? = some (form, text) →
    ∃ t ∈ ts, t.kind = .scalar form text ∧ t.span = e.span) ?_ ?_ e he hform
  · rintro ts ts' e hsubset htoken hform
    obtain ⟨t, ht, hkind⟩ := htoken hform
    exact ⟨t, hsubset ht, hkind⟩
  · intro r r' e hyields hform
    cases hyields with
    | aliasOf => cases hform
    | node _ _ _ hformed _ => exact hformed form text hform
    | mark hp _ _ =>
      unfold EventKind.formed? at hform
      split at hform
      · cases hform
      next heq => simp [heq, EventKind.properties?] at hp
      next => cases hform

end EventReader

end PipelineScripts.Yaml
