import PipelineScripts.Proofs.BlockNodes
import PipelineScripts.Proofs.EventNesting
import PipelineScripts.Proofs.MetNodes

/-!
# The nodes of a document

In a stream of one document every event that starts a node belongs to that document, and the tree
below its root has one node for each of them.
-/
namespace PipelineScripts.Yaml

open EventReader

namespace TreeBuilder

/-- How many collections a part closes more than it opens. -/
def Part.excess : Part → Nat
  | .node _ => 0
  | .items _ | .entries _ => 1

/-- The events that a part is built from close what they open. -/
structure Reads (b b' : TreeBuilder) (part : Part) (es : List Event) : Prop where
  nonempty : es ≠ []
  events : b.events = es ++ b'.events
  inner : ∀ e ∈ es, e.kind.isInner = true
  closed : (es.map (·.kind.closes)).sum = (es.map (·.kind.opens)).sum + part.excess

theorem events_next {b : TreeBuilder} {e : Event} {rest : List Event} (h : b.events = e :: rest)
    (length : Nat) : (b.next length).events = rest := by
  simp [next, h]

namespace Reads

variable {b b₁ b₂ b' : TreeBuilder} {part part₁ part₂ : Part} {e : Event} {es es' : List Event}

theorem one (hevents : b.events = e :: b'.events) (hinner : e.kind.isInner = true)
    (hclosed : e.kind.closes = e.kind.opens + part.excess) : b.Reads b' part [e] :=
  ⟨List.cons_ne_nil _ _, hevents, by simpa using hinner, by simpa using hclosed⟩

theorem collection (h : b₁.Reads b₂ part es) (hexcess : part.excess = 1) {id : NodeId}
    (hevents : b.events = e :: b₁.events) (hb' : b'.events = b₂.events)
    (hinner : e.kind.isInner = true) (hcloses : e.kind.closes = 0) (hopens : e.kind.opens = 1) :
    b.Reads b' (.node id) (e :: es) where
  nonempty := List.cons_ne_nil _ _
  events := by rw [hevents, h.events, hb', List.cons_append]
  inner := by
    intro d hd
    rcases List.mem_cons.mp hd with rfl | hd
    · exact hinner
    · exact h.inner d hd
  closed := by
    have hclosed := h.closed
    have hnode : (Part.node id).excess = 0 := rfl
    rw [List.map_cons, List.sum_cons, List.map_cons, List.sum_cons, hcloses, hopens, hnode]
    omega

theorem append (h : b.Reads b₁ part₁ es) (h' : b₁.Reads b' part₂ es') (hfirst : part₁.excess = 0)
    (hpart : part.excess = part₂.excess) : b.Reads b' part (es ++ es') where
  nonempty := List.append_ne_nil_of_left_ne_nil h.nonempty _
  events := by rw [h.events, h'.events, List.append_assoc]
  inner := by
    intro d hd
    exact (List.mem_append.mp hd).elim (h.inner d) (h'.inner d)
  closed := by
    have hclosed := h.closed
    have hclosed' := h'.closed
    rw [List.map_append, List.sum_append, List.map_append, List.sum_append, hpart]
    omega

theorem of_adds (h : b.Reads b₁ part es) (hadds : b₁.Adds b') : b.Reads b' part es :=
  ⟨h.nonempty, by rw [hadds.events, h.events], h.inner, h.closed⟩

end Reads

/-- A run of the builder reads a part as a whole. -/
theorem exists_reads {s : TreeSource} {b b' : TreeBuilder} {part : Part}
    (h : Builds s b part b') : ∃ es, b.Reads b' part es := by
  induction h with
  | aliasOf hevents hkind hpush | placeholder hevents hkind _ hpush =>
    refine ⟨_, Reads.of_adds (.one ?_ (by rw [hkind]; rfl) (by rw [hkind]; rfl)) (adds_push hpush)⟩
    rw [hevents, events_next hevents]
  | scalar hevents hkind _ hpush hwrap =>
    refine ⟨_, Reads.of_adds (.one ?_ (by rw [hkind]; rfl) (by rw [hkind]; rfl))
      ((adds_pushScalar hpush).trans (adds_wrap hwrap))⟩
    rw [hevents, events_next hevents]
  | sequence hevents hkind _ hpush hwrap ih | mapping hevents hkind _ hpush hwrap ih =>
    obtain ⟨es, hes⟩ := ih
    refine ⟨_, hes.collection rfl ?_ ((adds_push hpush).trans (adds_wrap hwrap)).events
      (by rw [hkind]; rfl) (by rw [hkind]; rfl) (by rw [hkind]; rfl)⟩
    rw [hevents, events_next hevents]
  | noItem hevents hkind | noEntry hevents hkind =>
    refine ⟨_, .one ?_ (by rw [hkind]; rfl) (by rw [hkind]; rfl)⟩
    rw [hevents, events_next hevents]
  | item _ _ ih ihs =>
    obtain ⟨es, hes⟩ := ih
    obtain ⟨es', hes'⟩ := ihs
    exact ⟨_, hes.append hes' rfl rfl⟩
  | @entry _ _ _ _ _ _ value _ _ _ _ _ hpush _ ihkey ihvalue ihentries =>
    obtain ⟨es₁, hes₁⟩ := ihkey
    obtain ⟨es₂, hes₂⟩ := ihvalue
    obtain ⟨es₃, hes₃⟩ := ihentries
    have hboth := @Reads.append _ _ _ (.node value) _ _ _ _ hes₁ hes₂ rfl rfl
    exact ⟨_, (hboth.of_adds (adds_push hpush)).append hes₃ rfl rfl⟩

end TreeBuilder

namespace EventReader

/-- A stream starts, and then a document does or the stream is over. -/
theorem Runs.exists_start {tokens : List Token} {events : List Event}
    (h : EventReader.Runs { tokens } events) : ∃ (e d : Event) (rest : List Event),
      events = e :: d :: rest ∧ e.kind = .streamStart ∧ (d.kind = .streamEnd ∧ rest = [] ∨
        d.kind = .documentStart ∧ ∃ r : EventReader, r.Runs rest ∧
          (r.state = .blockNode ∨ r.state = .documentContent) ∧ r.stack = [.documentEnd]) := by
  have hfirst : ∀ {e : Event} {r : EventReader}, step { tokens } = .ok (e, r) →
      e.kind = .streamStart ∧ r.state = .implicitDocument ∧ r.stack = [] := by
    intro e r hstep
    obtain ⟨t, ht, hstep⟩ := bind_eq_ok.mp hstep
    cases hstep
    exact ⟨rfl, rfl, rfl⟩
  cases h with
  | last hstep hend =>
    rw [(hfirst hstep).1] at hend
    cases hend
  | @next _ r e events hstep _ hrest =>
    obtain ⟨hkind, hstate, hstack⟩ := hfirst hstep
    have hdocument : ∀ {d : Event} {r' : EventReader}, r.step = .ok (d, r') →
        r.document true = .ok (d, r') := by
      intro d r' hstep
      unfold step at hstep
      rwa [hstate] at hstep
    cases hrest with
    | @last _ r' d hstep' hend => exact ⟨e, d, [], rfl, hkind, .inl ⟨hend, rfl⟩⟩
    | @next _ r' d rest hstep' hend hrest' =>
      refine ⟨e, d, rest, rfl, hkind, .inr ?_⟩
      obtain hover | ⟨hstart, state, hnode, hplan⟩ := plan_of_document (hdocument hstep')
      · exact absurd hover hend
      · obtain ⟨hstate', hstack'⟩ := List.cons.inj hplan
        exact ⟨hstart, r', hrest', hstate'.symm ▸ hnode, by rw [hstack', hstack]⟩

/-- Behind the events of a document's node nothing is left open. -/
theorem Runs.exists_closed {r : EventReader} {es rest : List Event} (h : r.Runs (es ++ rest))
    (hes : es ≠ []) (hinner : ∀ e ∈ es, e.kind.isInner = true)
    (hclosed : (es.map (·.kind.closes)).sum = (es.map (·.kind.opens)).sum)
    (hstate : r.state = .blockNode ∨ r.state = .documentContent)
    (hstack : r.stack = [.documentEnd]) :
    ∃ r' : EventReader, r'.Runs rest ∧ r'.Nested 0 := by
  obtain ⟨first, es, rfl⟩ := List.exists_cons_of_ne_nil hes
  generalize hall : first :: es ++ rest = all at h
  cases h with
  | last _ hend =>
    obtain ⟨rfl, -⟩ := List.cons.inj hall
    have hfirst := hinner first (by simp)
    rw [hend] at hfirst
    cases hfirst
  | next hstep _ hrest =>
    obtain ⟨rfl, rfl⟩ := List.cons.inj hall
    have hturn := takesTurn_start hstep hstate (by simp [hstack])
    rw [hstack] at hturn
    obtain ⟨-, inners, hplan, hinners, hsum⟩ := hturn
    obtain ⟨r', depth, hruns, hnested, hdepth⟩ := hrest.nested ⟨inners, hplan, hinners, rfl⟩
      fun e he => hinner e (List.mem_cons_of_mem first he)
    rw [List.map_cons, List.sum_cons, List.map_cons, List.sum_cons] at hclosed
    obtain rfl : depth = 0 := by omega
    exact ⟨r', hruns, hnested⟩

/-- Where nothing is left open a document ends, and then another one starts or the stream is
over. -/
theorem Runs.exists_end {r : EventReader} {rest : List Event} (hruns : r.Runs rest)
    (hnested : r.Nested 0) : ∃ (e d : Event) (more : List Event), rest = e :: d :: more ∧
      e.kind = .documentEnd ∧ (d.kind = .streamEnd ∧ more = [] ∨ d.kind = .documentStart) := by
  obtain ⟨hend, -⟩ := List.cons.inj hnested.plan_of_zero
  have hdocumentEnd : ∀ {e : Event} {r₁ : EventReader}, r.step = .ok (e, r₁) →
      e.kind = .documentEnd ∧ (r₁.state = .implicitDocument ∨ r₁.state = .explicitDocument) := by
    intro e r₁ hstep
    unfold step at hstep
    rw [hend] at hstep
    exact kind_of_documentEnd hstep
  cases hruns with
  | last hstep hkind =>
    rw [(hdocumentEnd hstep).1] at hkind
    cases hkind
  | @next _ r₁ e more hstep _ hrest =>
    obtain ⟨hkind, hstate⟩ := hdocumentEnd hstep
    cases hrest with
    | @last _ _ d hstep' hend' => exact ⟨e, d, [], rfl, hkind, .inl ⟨hend', rfl⟩⟩
    | @next _ r₂ d more hstep' hend' _ =>
      refine ⟨e, d, more, rfl, hkind, .inr ?_⟩
      obtain ⟨implicit, hdocument⟩ : ∃ implicit, r₁.document implicit = .ok (d, r₂) := by
        unfold step at hstep'
        rcases hstate with hstate | hstate <;> rw [hstate] at hstep' <;> exact ⟨_, hstep'⟩
      exact ((plan_of_document hdocument).resolve_left hend').1

end EventReader

namespace TreeBuilder

namespace BuildsDocuments

variable {s : TreeSource} {b b' : TreeBuilder} {documents : List (Option NodeId)} {e : Event}
  {rest : List Event}

theorem nodes_of_nil (h : BuildsDocuments s b documents b') (hnone : documents = []) :
    b'.nodes = b.nodes := by
  induction h with
  | none => rfl
  | stop => exact nodes_next _ _
  | pass _ _ _ ih => rw [ih hnone, nodes_next]
  | empty | document => cases hnone

/-- Without events there are no documents. -/
theorem eq_nil (h : BuildsDocuments s b documents b') (hevents : b.events = []) :
    documents = [] := by
  cases h with
  | none | stop => rfl
  | pass hcons | empty hcons | document hcons => cases hevents.symm.trans hcons

/-- An event that neither starts a document nor ends the stream is passed over. -/
theorem pass_of_ne (h : BuildsDocuments s b documents b') (hevents : b.events = e :: rest)
    (hstart : e.kind ≠ .documentStart) (hend : e.kind ≠ .streamEnd) :
    BuildsDocuments s (b.next s.text.length) documents b' := by
  cases h with
  | none hnil => cases hevents.symm.trans hnil
  | stop hcons hkind =>
    obtain ⟨rfl, -⟩ := List.cons.inj (hevents.symm.trans hcons)
    exact absurd hkind hend
  | pass _ _ hrest => exact hrest
  | empty hcons hkind | document hcons hkind =>
    obtain ⟨rfl, -⟩ := List.cons.inj (hevents.symm.trans hcons)
    exact absurd hkind hstart

/-- The end of the stream starts no document. -/
theorem eq_nil_of_streamEnd (h : BuildsDocuments s b documents b') (hevents : b.events = [e])
    (hend : e.kind = .streamEnd) : documents = [] := by
  cases h with
  | none | stop => rfl
  | pass _ _ hrest => exact hrest.eq_nil (events_next hevents _)
  | empty hcons hkind | document hcons hkind =>
    obtain ⟨rfl, -⟩ := List.cons.inj (hevents.symm.trans hcons)
    rw [hend] at hkind
    cases hkind

/-- Where a document starts there is one. -/
theorem exists_of_documentStart (h : BuildsDocuments s b documents b')
    (hevents : b.events = e :: rest) (hstart : e.kind = .documentStart) :
    ∃ root more, documents = root :: more ∧ ∀ id, root = some id →
      ∃ b₁, Builds s (b.next s.text.length) (.node id) b₁ ∧ BuildsDocuments s b₁ more b' := by
  cases h with
  | none hnil => cases hevents.symm.trans hnil
  | stop hcons hkind =>
    obtain ⟨rfl, -⟩ := List.cons.inj (hevents.symm.trans hcons)
    rw [hstart] at hkind
    cases hkind
  | pass hcons hkind =>
    obtain ⟨rfl, -⟩ := List.cons.inj (hevents.symm.trans hcons)
    exact absurd hstart hkind
  | empty => exact ⟨_, _, rfl, by simp⟩
  | document _ _ hroot hrest =>
    refine ⟨_, _, rfl, fun id hid => ?_⟩
    cases hid
    exact ⟨_, hroot, hrest⟩

end BuildsDocuments

end TreeBuilder

/-- In a stream of one document, the document has all nodes of the stream. -/
theorem exists_document {s : TreeSource} {tokens : List Token} {events : List Event}
    {root : NodeId} {b' : TreeBuilder} (hruns : EventReader.Runs { tokens } events)
    (h : TreeBuilder.BuildsDocuments s { events } [some root] b') :
    ∃ before es after b b₁, events = before ++ (es ++ after) ∧ nodeEvents before = [] ∧
      nodeEvents after = [] ∧ b.stop = before.foldl s.stopAfter 0 ∧ b.events = es ++ after ∧
      b₁.events = after ∧ TreeBuilder.Builds s b (.node root) b₁ ∧ b'.nodes = b₁.nodes := by
  obtain ⟨e, d, rest, rfl, hstream, hstart⟩ := hruns.exists_start
  have hnext := h.pass_of_ne rfl (by simp [hstream]) (by simp [hstream])
  obtain ⟨hend, rfl⟩ | ⟨hstart, r, hrest, hstate, hstack⟩ := hstart
  · have hnil := hnext.eq_nil_of_streamEnd rfl hend
    cases hnil
  obtain ⟨_, _, heq, hroot⟩ := hnext.exists_of_documentStart rfl hstart
  cases heq
  obtain ⟨b₁, hbuilds, hdone⟩ := hroot root rfl
  obtain ⟨es, hreads⟩ := TreeBuilder.exists_reads hbuilds
  refine ⟨[e, d], es, b₁.events, _, b₁, ?_, ?_, ?_, ?_, hreads.events, rfl, hbuilds,
    hdone.nodes_of_nil rfl⟩
  · rw [← hreads.events]
    rfl
  · simp [nodeEvents, hstream, hstart, EventKind.isNode]
  · have hall : rest = es ++ b₁.events := hreads.events
    rw [hall] at hrest
    obtain ⟨r', hruns', hnested⟩ :=
      hrest.exists_closed hreads.nonempty hreads.inner hreads.closed hstate hstack
    obtain ⟨x, y, more, hafter, hx, hy⟩ := hruns'.exists_end hnested
    obtain ⟨hy, rfl⟩ | hy := hy
    · simp [hafter, nodeEvents, hx, hy, EventKind.isNode]
    · -- A second document would have been built.
      have hmore := hdone.pass_of_ne hafter (by simp [hx]) (by simp [hx])
      obtain ⟨_, _, heq, -⟩ :=
        hmore.exists_of_documentStart (TreeBuilder.events_next hafter _) hy
      cases heq
  · rfl

namespace File

/-- The tree of a file with one document has a node for each event of the stream that starts one. -/
theorem exists_met {name content : String} {f : File} {root : NodeId}
    (h : File.parse name content = .ok f) (hroot : f.documents = [some root]) :
    ∃ events, Event.read content.toList = .ok events ∧ ∃ pairs,
      f.Met (treeSource content.toList []) (f.preorder root) pairs ∧ (f.preorder root).Nodup ∧
      pairs.map Prod.fst = (treeSource content.toList []).spots 0 events := by
  obtain ⟨events, hread, hfile⟩ := exists_events_of_parse h
  obtain ⟨⟨documents, b'⟩, hb', hf⟩ := Option.bind_eq_some_iff.mp hfile
  have hshaped := shaped_of_read h
  have hholds : f.Holds b'.nodes := by
    cases hf
    exact holds_of_attachComments rfl
  obtain rfl : documents = [some root] := by
    cases hf
    exact hroot
  obtain ⟨before, es, after, b, b₁, rfl, hbefore, hafter, hstop, hevents, hrest, hbuilds, hnodes⟩ :=
    exists_document (EventReader.runs_of_run hread)
      (TreeBuilder.buildsDocuments_of_documents? _ _ _ _ _ hb')
  obtain ⟨es', pairs, hmakes⟩ := exists_makes hshaped rfl hbuilds (hnodes ▸ hholds)
  obtain rfl : es' = es := by
    have heq := hmakes.events
    rw [hevents, hrest] at heq
    exact (List.append_cancel_right heq).symm
  have hnone : ∀ stop events, nodeEvents events = [] →
      (treeSource content.toList []).spots stop events = [] := by
    intro stop events hnil
    rw [← TreeSource.map_event_spots] at hnil
    exact List.map_eq_nil_iff.mp hnil
  have hnodup : (f.preorder root).Nodup := by
    simpa [roots, hroot] using nodup_of_read h
  refine ⟨_, hread, pairs, hmakes.met, hnodup, ?_⟩
  rw [hmakes.spots, TreeSource.spots_append, TreeSource.spots_append, hnone _ _ hbefore,
    hnone _ _ hafter, List.nil_append, List.append_nil, hstop]
  rfl

end File

end PipelineScripts.Yaml
