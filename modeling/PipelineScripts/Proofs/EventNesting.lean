import Mathlib.Algebra.Ring.Nat
import PipelineScripts.Proofs.EventTokens

/-!
# Nesting of events

What a reader still expects tells how many collections are open. So behind the node that a document
starts with comes nothing but the end of the document.
-/
namespace PipelineScripts.Yaml

namespace EventKind

/-- Whether an event belongs to a node or ends a collection. -/
def isInner : EventKind → Bool
  | .aliasOf _ | .scalar .. | .sequenceStart _ | .mappingStart _ | .sequenceEnd
  | .mappingEnd => true
  | _ => false

/-- The number of collections that an event opens. -/
def opens : EventKind → Nat
  | .sequenceStart _ | .mappingStart _ => 1
  | _ => 0

/-- The number of collections that an event closes. -/
def closes : EventKind → Nat
  | .sequenceEnd | .mappingEnd => 1
  | _ => 0

end EventKind

namespace EventReader

variable {r r₁ r' : EventReader} {e : Event}

/-- All that is expected, innermost first. -/
def plan (r : EventReader) : List Expectation := r.state :: r.stack

/-- A step in place of expectations of weight `w`: it puts others there, and the weights tell which
collections it opened and closed. -/
structure TakesTurn (w : Nat) (stack : List Expectation) (e : Event) (r' : EventReader) : Prop where
  inner : e.kind.isInner = true
  plan : ∃ inners : List Expectation, r'.plan = inners ++ stack ∧ (∀ x ∈ inners, 0 < x.weight) ∧
    (inners.map Expectation.weight).sum + e.kind.closes = w + e.kind.opens

variable {w : Nat} {stack : List Expectation}

theorem takesTurn_of_expect {state : Expectation} (hplan : r'.plan = state :: stack)
    (hinner : e.kind.isInner = true) (hstate : 0 < state.weight)
    (hw : state.weight + e.kind.closes = w + e.kind.opens) : TakesTurn w stack e r' :=
  ⟨hinner, [state], hplan, by simpa using hstate, by simpa using hw⟩

theorem takesTurn_of_resume (hplan : r'.plan = stack) (hinner : e.kind.isInner = true)
    (hw : e.kind.closes = w + e.kind.opens) : TakesTurn w stack e r' :=
  ⟨hinner, [], hplan, by simp, by simpa using hw⟩

/-- What was put aside comes after the node. -/
theorem TakesTurn.putAside {state : Expectation} (h : TakesTurn 0 (state :: stack) e r')
    (hstate : 0 < state.weight) : TakesTurn state.weight stack e r' := by
  obtain ⟨inners, hplan, hinners, hsum⟩ := h.plan
  refine ⟨h.inner, inners ++ [state], by simpa using hplan, fun x hx => ?_, ?_⟩
  · rcases List.mem_append.mp hx with hx | hx
    · exact hinners x hx
    · rwa [List.mem_singleton.mp hx]
  · simp only [List.map_append, List.map_cons, List.map_nil, List.sum_append, List.sum_cons,
      List.sum_nil]
    omega

theorem plan_resume (hstack : r.stack ≠ []) : r.resume.plan = r.stack := by
  obtain ⟨state, stack, hcons⟩ := List.exists_cons_of_ne_nil hstack
  rw [resume, plan, hcons]
  rfl

theorem HasProperties.stack_eq {p : Properties} (h : r.HasProperties p r₁) :
    r₁.stack = r.stack := by
  cases h <;> rfl

/-- A node is a leaf, or a collection is open behind it. -/
theorem NodeTurn.takesTurn {x : Step} (h : r.NodeTurn x) (hx : x = .ok (e, r'))
    (hstack : r.stack ≠ []) : TakesTurn 0 r.stack e r' := by
  cases h with
  | refuse | unknown => cases hx
  | aliasOf | leaveOut =>
    cases hx
    exact takesTurn_of_resume (plan_resume hstack) rfl rfl
  | scalar hp | empty hp =>
    rw [← hp.stack_eq] at hstack ⊢
    cases hx
    exact takesTurn_of_resume (plan_resume hstack) rfl rfl
  | collection hp _ _ hstate hkind =>
    rw [← hp.stack_eq]
    cases hx
    rcases hkind with rfl | rfl
    · exact takesTurn_of_expect rfl rfl (hstate ▸ Nat.one_pos) hstate
    · exact takesTurn_of_expect rfl rfl (hstate ▸ Nat.one_pos) hstate

/-- A turn in place of an expectation. -/
theorem Turn.takesTurn {x : Step} (h : r.Turn w x) (hx : x = .ok (e, r')) (hw : 0 < w)
    (hstack : r.stack ≠ []) : TakesTurn w r.stack e r' := by
  cases h with
  | refuse => cases hx
  | close hover hclose hkind =>
    rw [← hover.stack] at hstack ⊢
    cases hx
    rcases hkind with rfl | rfl
    · exact takesTurn_of_resume (plan_resume hstack) rfl hclose.symm
    · exact takesTurn_of_resume (plan_resume hstack) rfl hclose.symm
  | closePair hover hpair =>
    cases hx
    exact hover.stack ▸ takesTurn_of_expect rfl rfl Nat.one_pos hpair.symm
  | openPair hover hsequence _ =>
    cases hx
    exact hover.stack ▸ takesTurn_of_expect rfl rfl Nat.two_pos (by rw [hsequence]; rfl)
  | leaveOut hover hstate _ _ =>
    cases hx
    exact hover.stack ▸ takesTurn_of_expect rfl rfl (hstate ▸ hw) (by rw [hstate]; rfl)
  | node hover hstate _ =>
    -- What was put aside comes after the node.
    have hnode := (nodeTurn_node _ _ _).takesTurn hx (List.cons_ne_nil _ _)
    have hturn := hnode.putAside (hstate ▸ hw)
    rwa [hstate, ← hover.stack]

/-- A step inside a collection. -/
theorem takesTurn_step (h : r.step = .ok (e, r')) (hstate : 0 < r.state.weight)
    (hstack : r.stack ≠ []) : TakesTurn r.state.weight r.stack e r' :=
  (turn_step hstate).takesTurn h hstate hstack

/-! ### Documents -/

/-- A document starts, with its node and its end ahead, or the stream is over. -/
theorem plan_of_document {implicit : Bool} (h : r.document implicit = .ok (e, r')) :
    e.kind = .streamEnd ∨ e.kind = .documentStart ∧
      ∃ state, (state = .blockNode ∨ state = .documentContent) ∧
        r'.plan = state :: .documentEnd :: r.stack := by
  have hturn := documentTurn_document r implicit
  rw [h] at hturn
  cases hturn with
  | finish => exact .inl rfl
  | start hover hstate => exact .inr ⟨rfl, _, hstate, by rw [← hover.stack]; rfl⟩

theorem kind_of_documentEnd (h : r.documentEnd = .ok (e, r')) : e.kind = .documentEnd ∧
    (r'.state = .implicitDocument ∨ r'.state = .explicitDocument) := by
  obtain ⟨t, ht, h⟩ := bind_eq_ok.mp h
  dsimp only at h
  split at h
  · cases h
    exact ⟨rfl, .inl rfl⟩
  · cases h
  · cases h
  · cases h
    exact ⟨rfl, .inr rfl⟩

/-- The node of a document. -/
theorem takesTurn_start (h : r.step = .ok (e, r'))
    (hstate : r.state = .blockNode ∨ r.state = .documentContent) (hstack : r.stack ≠ []) :
    TakesTurn 0 r.stack e r' := by
  unfold step at h
  rcases hstate with hstate | hstate
  · rw [hstate] at h
    exact (nodeTurn_node _ _ _).takesTurn h hstack
  · rw [hstate] at h
    exact (nodeTurn_documentContent _).takesTurn h hstack

/-- Only collections and the end of the document are ahead, and `depth` of them are open. -/
def Nested (r : EventReader) (depth : Nat) : Prop :=
  ∃ inners : List Expectation, r.plan = inners ++ [.documentEnd] ∧
    (∀ x ∈ inners, 0 < x.weight) ∧ (inners.map Expectation.weight).sum = depth

/-- Where all collections are closed the document ends. -/
theorem Nested.plan_of_zero (h : r.Nested 0) : r.plan = [.documentEnd] := by
  obtain ⟨inners, hplan, hinners, hsum⟩ := h
  cases inners with
  | nil => exact hplan
  | cons x inners =>
    have hpos := hinners x (by simp)
    rw [List.map_cons, List.sum_cons] at hsum
    omega

/-- Inside a document, what was opened and closed tells what is ahead. The induction is on the
events; as long as they belong to nodes, the document is not at its end. -/
theorem Runs.nested {es rest : List Event} {depth : Nat} (h : r.Runs (es ++ rest))
    (hnested : r.Nested depth) (hes : ∀ e ∈ es, e.kind.isInner = true) :
    ∃ (r' : EventReader) (depth' : Nat), r'.Runs rest ∧ r'.Nested depth' ∧
      depth' + (es.map (·.kind.closes)).sum = depth + (es.map (·.kind.opens)).sum := by
  induction es generalizing r depth with
  | nil => exact ⟨r, depth, h, hnested, rfl⟩
  | cons e es ih =>
    have hinner := hes e (by simp)
    generalize hall : e :: es ++ rest = all at h
    cases h with
    | last _ hend =>
      obtain ⟨rfl, -⟩ := List.cons.inj hall
      rw [hend] at hinner
      cases hinner
    | @next _ r₁ _ _ hstep _ hrest =>
      obtain ⟨rfl, rfl⟩ := List.cons.inj hall
      obtain ⟨inners, hplan, hinners, hsum⟩ := hnested
      cases inners with
      | nil =>
        -- The end of the document is no part of a node.
        obtain ⟨hstate, -⟩ := List.cons.inj hplan
        unfold step at hstep
        rw [hstate] at hstep
        rw [(kind_of_documentEnd hstep).1] at hinner
        cases hinner
      | cons x inners =>
        obtain ⟨hstate, hstack⟩ := List.cons.inj hplan
        rw [List.map_cons, List.sum_cons] at hsum
        have hturn := takesTurn_step hstep (hstate ▸ hinners x (by simp)) (by simp [hstack])
        rw [hstate, hstack] at hturn
        obtain ⟨-, inners', hplan', hinners', hsum'⟩ := hturn
        have hnested₁ : r₁.Nested ((inners' ++ inners).map Expectation.weight).sum := by
          refine ⟨inners' ++ inners, by rw [hplan', List.append_assoc]; rfl, fun y hy => ?_, rfl⟩
          rcases List.mem_append.mp hy with hy | hy
          · exact hinners' y hy
          · exact hinners y (List.mem_cons_of_mem x hy)
        obtain ⟨r', depth', hruns, hnested', hdepth⟩ :=
          ih hrest hnested₁ fun d hd => hes d (List.mem_cons_of_mem e hd)
        refine ⟨r', depth', hruns, hnested', ?_⟩
        simp only [List.map_append, List.sum_append, List.map_cons, List.sum_cons] at hdepth ⊢
        omega

end EventReader

end PipelineScripts.Yaml
