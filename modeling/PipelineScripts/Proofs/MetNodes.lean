import PipelineScripts.Proofs.DistinctNodes
import PipelineScripts.Proofs.EventTokens

/-!
# Nodes and their events

Without entries, anchors and tags, the nodes of a tree in document order are the nodes of the
stream, one for each event that starts a node. Before its node stands an anchor, if one was set and
its name was found again, and a tag.
-/
namespace PipelineScripts.Yaml

/-- Whether an event starts a node. -/
def EventKind.isNode : EventKind → Bool
  | .aliasOf _ | .scalar .. | .sequenceStart _ | .mappingStart _ => true
  | _ => false

/-- The number of the anchor that an event sets; zero for none. -/
def EventKind.anchor (k : EventKind) : Nat := (k.properties?.map (·.anchor)).getD 0

/-- The number of the anchor that an alias names. -/
def EventKind.aliased? : EventKind → Option Nat
  | .aliasOf number => some number
  | _ => none

namespace EventKind

theorem aliased?_eq_some_iff {k : EventKind} {number : Nat} :
    k.aliased? = some number ↔ k = .aliasOf number := by
  cases k <;> simp [aliased?]

theorem isNode_of_properties? {k : EventKind} {p : Properties} (h : k.properties? = some p) :
    k.isNode = true := by
  cases k <;> first | rfl | cases h

theorem isNode_eq_false {k : EventKind} (hp : k.properties? = none)
    (halias : ∀ number, k ≠ .aliasOf number) : k.isNode = false := by
  cases k with
  | aliasOf number => exact absurd rfl (halias number)
  | scalar | sequenceStart | mappingStart => cases hp
  | _ => rfl

theorem anchor_of_properties? {k : EventKind} {p : Properties} (h : k.properties? = some p) :
    k.anchor = p.anchor := by
  rw [anchor, h]
  rfl

end EventKind

/-- A node stands where a token does, whether it is written or not. -/
theorem EventReader.Runs.exists_span {r : EventReader} {events : List Event} (h : r.Runs events)
    {e : Event} (he : e ∈ events) (hnode : e.kind.isNode = true) :
    ∃ t ∈ r.tokens, t.span = e.span := by
  refine h.forall_events (P := fun ts e => e.kind.isNode = true → ∃ t ∈ ts, t.span = e.span)
    ?_ ?_ e he hnode
  · rintro ts ts' e hsubset htoken hnode
    obtain ⟨t, ht, hspan⟩ := htoken hnode
    exact ⟨t, hsubset ht, hspan⟩
  · intro r r' e hyields hnode
    cases hyields with
    | aliasOf ht => exact ⟨_, ht, rfl⟩
    | node _ _ hspan _ _ => exact hspan
    | mark hnone halias _ =>
      rw [EventKind.isNode_eq_false hnone halias] at hnode
      cases hnode

/-- The events that start nodes. -/
def nodeEvents (events : List Event) : List Event := events.filter (·.kind.isNode)

/-- Where a node is met in a stream: its event, and where the events before it end. -/
structure Spot where
  event : Event
  stop : Nat

namespace TreeSource

/-- Where the nodes of a stream are met. -/
def spots (s : TreeSource) (stop : Nat) : List Event → List Spot
  | [] => []
  | e :: rest =>
    let later := s.spots (s.stopAfter stop e) rest
    if e.kind.isNode then ⟨e, stop⟩ :: later else later

/-- The name under which the anchor of a node is found again. -/
def anchorName? (s : TreeSource) (x : Spot) : Option String :=
  if x.event.kind.anchor = 0 then none else (s.propertiesAt x.stop x.event).1

theorem spots_append (s : TreeSource) (stop : Nat) (before after : List Event) :
    s.spots stop (before ++ after) =
      s.spots stop before ++ s.spots (before.foldl s.stopAfter stop) after := by
  induction before generalizing stop with
  | nil => rfl
  | cons e before ih =>
    rw [List.cons_append, spots, spots, ih]
    split_ifs <;> rfl

theorem map_event_spots (s : TreeSource) (stop : Nat) (events : List Event) :
    (s.spots stop events).map Spot.event = nodeEvents events := by
  induction events generalizing stop with
  | nil => rfl
  | cons e rest ih =>
    rw [spots, nodeEvents, List.filter_cons]
    split_ifs
    · rw [List.map_cons, ih, nodeEvents]
    · rw [ih, nodeEvents]

end TreeSource

/-- Neither an entry nor set around another node. -/
def NodeKind.isContent : NodeKind → Bool
  | .entry .. | .tagged .. | .anchor .. => false
  | _ => true

namespace File

/-- Whether a node is neither an entry nor set around another one. -/
def isContent (f : File) (id : NodeId) : Bool := (f.kind? id).any NodeKind.isContent

/-- The nodes of a tree in document order, without entries, anchors and tags. -/
def contents (f : File) (root : NodeId) : List NodeId := (f.preorder root).filter f.isContent

/-- What is behind a tag. -/
def behindTag (f : File) (id : NodeId) : NodeId :=
  match f.kind? id with
  | some (.tagged _ value) => value
  | _ => id

/-- A node is what an event says. -/
def Shows (f : File) (e : Event) (id : NodeId) : Prop :=
  match e.kind with
  | .aliasOf _ => ∃ name, f.kind? id = some (.aliasOf name)
  | .scalar _ text _ => (∃ style, f.kind? id = some (.scalar (String.ofList text) style)) ∨
      ∃ folded raw, f.kind? id = some (.block folded (String.ofList text) raw)
  | .sequenceStart _ => ∃ items comments, f.kind? id = some (.sequence items comments)
  | .mappingStart _ => ∃ entries, f.kind? id = some (.mapping entries)
  | _ => False

/-- A tag may stand around a node. -/
inductive Tags (f : File) (content : NodeId) : NodeId → List NodeId → Prop
  | none : Tags f content content []
  | tag {id : NodeId} {name : String} (hk : f.kind? id = some (.tagged name content)) :
      Tags f content id [id]

/-- An anchor stands around a node and its tag if its name was found. -/
inductive Wraps (f : File) (s : TreeSource) (x : Spot) (content : NodeId) : List NodeId → Prop
  | bare {inner : NodeId} {ids : List NodeId} (htags : f.Tags content inner ids)
      (hname : s.anchorName? x = none) : Wraps f s x content ids
  | anchor {id inner : NodeId} {name : String} {ids : List NodeId}
      (htags : f.Tags content inner ids) (hk : f.kind? id = some (.anchor name inner))
      (hname : s.anchorName? x = some name) : Wraps f s x content (id :: ids)

/-- Nodes in document order, and the places in the stream where they are met. -/
inductive Met (f : File) (s : TreeSource) : List NodeId → List (Spot × NodeId) → Prop
  | nil : Met f s [] []
  | entry {id key value : NodeId} {comments : List Comment} {ids : List NodeId}
      {pairs : List (Spot × NodeId)} (hk : f.kind? id = some (.entry key value comments))
      (h : Met f s ids pairs) : Met f s (id :: ids) pairs
  | node {x : Spot} {id : NodeId} {wraps ids : List NodeId} {pairs : List (Spot × NodeId)}
      (hshows : f.Shows x.event id)
      (halias : ∀ n, x.event.kind = .aliasOf n → f.kind? id = some (.aliasOf (s.aliasName x.event)))
      (hwraps : f.Wraps s x id wraps) (h : Met f s ids pairs) :
      Met f s (wraps ++ id :: ids) ((x, id) :: pairs)

section

variable {f : File} {s : TreeSource}

theorem Met.append {ids ids' : List NodeId} {pairs pairs' : List (Spot × NodeId)}
    (h : f.Met s ids pairs) (h' : f.Met s ids' pairs') :
    f.Met s (ids ++ ids') (pairs ++ pairs') := by
  induction h with
  | nil => exact h'
  | entry hk _ ih => exact ih.entry hk
  | node hshows halias hwraps _ ih =>
    rw [List.append_assoc, List.cons_append, List.cons_append]
    exact ih.node hshows halias hwraps

theorem Shows.isContent {e : Event} {id : NodeId} (h : f.Shows e id) :
    f.isContent id = true := by
  unfold File.isContent
  unfold Shows at h
  split at h
  · obtain ⟨name, hk⟩ := h
    rw [hk]
    rfl
  · obtain ⟨style, hk⟩ | ⟨folded, raw, hk⟩ := h <;> rw [hk] <;> rfl
  · obtain ⟨items, comments, hk⟩ := h
    rw [hk]
    rfl
  · obtain ⟨entries, hk⟩ := h
    rw [hk]
    rfl
  · cases h

theorem Tags.filter_isContent {content inner : NodeId} {ids : List NodeId}
    (h : f.Tags content inner ids) : ids.filter f.isContent = [] := by
  cases h with
  | none => rfl
  | tag hk => simp [isContent, hk, NodeKind.isContent]

theorem Wraps.filter_isContent {x : Spot} {content : NodeId} {ids : List NodeId}
    (h : f.Wraps s x content ids) :
    ids.filter f.isContent = [] := by
  cases h with
  | bare htags _ => exact htags.filter_isContent
  | anchor htags hk _ =>
    rw [List.filter_cons, htags.filter_isContent, isContent, hk]
    rfl

/-- Without entries, anchors and tags there is one node for each event. -/
theorem Met.filter_isContent {ids : List NodeId} {pairs : List (Spot × NodeId)}
    (h : f.Met s ids pairs) :
    ids.filter f.isContent = pairs.map Prod.snd := by
  induction h with
  | nil => rfl
  | entry hk _ ih =>
    rw [List.filter_cons, isContent, hk, ih]
    rfl
  | node hshows _ hwraps _ ih =>
    rw [List.filter_append, hwraps.filter_isContent, List.nil_append,
      List.filter_cons_of_pos hshows.isContent, ih, List.map_cons]

/-- Every node is what its event says. -/
theorem Met.shows {ids : List NodeId} {pairs : List (Spot × NodeId)} (h : f.Met s ids pairs) :
    ∀ p ∈ pairs, f.Shows p.1.event p.2 := by
  induction h with
  | nil => simp
  | entry _ _ ih => exact ih
  | node hshows _ _ _ ih => exact List.forall_mem_cons.mpr ⟨hshows, ih⟩

theorem Met.nodup_contents {ids : List NodeId} {pairs : List (Spot × NodeId)}
    (h : f.Met s ids pairs) (hids : ids.Nodup) : (pairs.map Prod.snd).Nodup := by
  rw [← h.filter_isContent]
  exact hids.filter _

end

variable {f : File} {s : TreeSource}

open TreeBuilder

/-- What a run makes of a part: the events it reads, and the nodes in document order. -/
structure Makes (f : File) (s : TreeSource) (b b' : TreeBuilder) (ids : List NodeId)
    (es : List Event) (pairs : List (Spot × NodeId)) : Prop where
  events : b.events = es ++ b'.events
  stop : b'.stop = es.foldl s.stopAfter b.stop
  nodes : Keeps b.nodes b'.nodes
  spots : pairs.map Prod.fst = s.spots b.stop es
  met : f.Met s ids pairs

namespace Makes

variable {b b₁ b₂ b' : TreeBuilder} {ids ids' : List NodeId} {es es' : List Event}
  {pairs pairs' : List (Spot × NodeId)}

theorem append (h : f.Makes s b b₁ ids es pairs) (h' : f.Makes s b₁ b' ids' es' pairs') :
    f.Makes s b b' (ids ++ ids') (es ++ es') (pairs ++ pairs') where
  events := by rw [h.events, h'.events, List.append_assoc]
  stop := by rw [h'.stop, h.stop, List.foldl_append]
  nodes := fun i n hn => h'.nodes i n (h.nodes i n hn)
  spots := by rw [List.map_append, h.spots, h'.spots, h.stop, TreeSource.spots_append]
  met := h.met.append h'.met

theorem refl (b : TreeBuilder) : f.Makes s b b [] [] [] :=
  ⟨rfl, rfl, fun _ _ hn => hn, rfl, .nil⟩

/-- Nothing is made where nothing is read but an end. -/
theorem next {e : Event} {rest : List Event} (hevents : b.events = e :: rest)
    (hnode : e.kind.isNode = false) : f.Makes s b (b.next s.text.length) [] [e] [] where
  events := by simp [hevents, TreeBuilder.next]
  stop := by simp [hevents, TreeBuilder.next, TreeSource.stopAfter]
  nodes := by
    rw [nodes_next]
    exact fun _ _ hn => hn
  spots := by simp [TreeSource.spots, hnode]
  met := .nil

/-- An alias is a node of its own. -/
theorem leaf (hf : f.Shaped) {e : Event} {rest : List Event} {number id : Nat}
    (hevents : b.events = e :: rest) (hkind : e.kind = .aliasOf number)
    (hadds : (b.next s.text.length).Adds b') (hk : f.kind? id = some (.aliasOf (s.aliasName e))) :
    f.Makes s b b' (f.preorder id) [e] [(⟨e, b.stop⟩, id)] := by
  have hname : s.anchorName? ⟨e, b.stop⟩ = none := by
    rw [TreeSource.anchorName?, hkind]
    rfl
  have hbelow : f.preorder id = [id] := hf.preorder_of_kind? hk
  rw [hbelow]
  refine ⟨?_, ?_, ?_, ?_, ?_⟩
  · simp [hadds.events, TreeBuilder.next, hevents]
  · simp [hadds.stop, TreeBuilder.next, hevents, TreeSource.stopAfter]
  · intro i n hn
    refine hadds.nodes i n ?_
    rwa [nodes_next]
  · simp [TreeSource.spots, hkind, EventKind.isNode]
  · have hshows : f.Shows e id := by
      rw [Shows, hkind]
      exact ⟨_, hk⟩
    have hmet : f.Met s ([] ++ id :: []) [(⟨e, b.stop⟩, id)] :=
      .node hshows (fun n _ => hk) (.bare .none hname) .nil
    exact hmet

/-- An entry is added behind its key and its value, and comes before them. -/
theorem entry (h : f.Makes s b b₁ ids es pairs) {key value id : NodeId} {position : Position}
    {path : String} (hpush : b₁.push (.entry key value []) position path = (id, b'))
    (hf : f.Holds b'.nodes) : f.Makes s b b' (id :: ids) es pairs := by
  have hadds := adds_push hpush
  obtain ⟨-, -, hn⟩ := getElem?_of_push hpush
  obtain ⟨k, hk, comments, rfl⟩ := hf id _ hn
  refine ⟨?_, ?_, ?_, h.spots, h.met.entry hk⟩
  · rw [hadds.events, h.events]
  · rw [hadds.stop, h.stop]
  · exact fun i n hn => hadds.nodes i n (h.nodes i n hn)

end Makes

/-- The nodes that are set around a content. -/
theorem exists_wraps (hf : f.Shaped) {b b' : TreeBuilder} {e : Event} {p : Properties} {stop : Nat}
    (hp : e.kind.properties? = some p) {content id : NodeId} {position : Position} {path : String}
    (hwrap : wrap s b content p stop (s.offset e) position path = (id, b'))
    (hholds : f.Holds b'.nodes) :
    ∃ wraps, f.preorder id = wraps ++ f.preorder content ∧ f.Wraps s ⟨e, stop⟩ content wraps := by
  have hanchorOf := EventKind.anchor_of_properties? hp
  obtain ⟨tagged, b₁, htag, hanchor⟩ := setsAround_of_wrap hwrap rfl
  obtain ⟨tags, hpreorder, htags⟩ : ∃ tags,
      f.preorder tagged = tags ++ f.preorder content ∧ f.Tags content tagged tags := by
    cases htag with
    | set _ _ hpush =>
      obtain ⟨-, -, hn⟩ := getElem?_of_push hpush
      obtain ⟨k, hk, rfl⟩ := hholds.of_keeps hanchor.adds.nodes _ _ hn
      refine ⟨[tagged], ?_, .tag hk⟩
      rw [hf.preorder_of_kind? hk]
      simp [NodeKind.children]
    | leave => exact ⟨[], rfl, .none⟩
  cases hanchor with
  | @set name _ _ hwanted hfound hpush =>
    obtain ⟨-, -, hn⟩ := getElem?_of_push hpush
    obtain ⟨k, hk, rfl⟩ := hholds id _ hn
    have hname : s.anchorName? ⟨e, stop⟩ = some name := by
      rw [TreeSource.anchorName?, if_neg (by rwa [hanchorOf])]
      exact hfound
    refine ⟨id :: tags, ?_, .anchor htags hk hname⟩
    rw [hf.preorder_of_kind? hk, List.cons_append, ← hpreorder]
    simp [NodeKind.children]
  | leave hnone =>
    have hname : s.anchorName? ⟨e, stop⟩ = none := by
      rw [TreeSource.anchorName?, hanchorOf]
      split_ifs with hzero
      · rfl
      · exact hnone.resolve_left (not_not_intro hzero)
    exact ⟨tags, hpreorder, .bare htags hname⟩

namespace Makes

variable {b b₁ b₂ b' : TreeBuilder} {ids : List NodeId} {es : List Event}
  {pairs : List (Spot × NodeId)}

/-- A node is made of its event and of what is below it. -/
theorem node (hf : f.Shaped) {e : Event} {rest : List Event} {p : Properties}
    (hevents : b.events = e :: rest) (hp : e.kind.properties? = some p)
    (h : f.Makes s (b.next s.text.length) b₁ ids es pairs) {content id : NodeId}
    {position : Position} {path : String} (hadds : b₁.Adds b₂)
    (hwrap : wrap s b₂ content p b.stop (s.offset e) position path = (id, b'))
    (hholds : f.Holds b'.nodes) (hshows : f.Shows e content)
    (hbelow : f.preorder content = content :: ids) :
    f.Makes s b b' (f.preorder id) (e :: es) ((⟨e, b.stop⟩, content) :: pairs) := by
  obtain ⟨wraps, hpreorder, hwraps⟩ := exists_wraps hf hp hwrap hholds
  have hadds' := adds_wrap hwrap
  have hnode := EventKind.isNode_of_properties? hp
  have halias : ∀ n, e.kind = .aliasOf n → f.kind? content = some (.aliasOf (s.aliasName e)) := by
    intro n hn
    rw [hn] at hp
    cases hp
  have hnext : (b.next s.text.length).stop = s.stopAfter b.stop e ∧
      (b.next s.text.length).events = rest := by
    simp [TreeBuilder.next, hevents, TreeSource.stopAfter]
  rw [hpreorder, hbelow]
  refine ⟨?_, ?_, ?_, ?_, .node hshows halias hwraps h.met⟩
  · rw [hevents, ← hnext.2, h.events, hadds'.events, hadds.events, List.cons_append]
  · rw [hadds'.stop, hadds.stop, h.stop, hnext.1, List.foldl_cons]
  · intro i n hn
    refine hadds'.nodes i n (hadds.nodes i n (h.nodes i n ?_))
    rwa [nodes_next]
  · rw [List.map_cons, h.spots, hnext.1, TreeSource.spots, if_pos hnode]

end Makes

/-- A run of the builder makes a node of each event that starts one, in the order of the stream. -/
theorem exists_makes (hf : f.Shaped) (haliases : s.aliases = []) {b b' : TreeBuilder} {part : Part}
    (h : Builds s b part b') (hholds : f.Holds b'.nodes) :
    ∃ es pairs, f.Makes s b b' (f.partNodes part) es pairs := by
  induction h with
  | @aliasOf b b' e rest number id path hevents hkind hpush =>
    obtain ⟨-, -, hn⟩ := getElem?_of_push hpush
    obtain ⟨k, hk, rfl⟩ := hholds id _ hn
    exact ⟨_, _, .leaf hf hevents hkind (adds_push hpush) hk⟩
  | placeholder hevents hkind halias hpush =>
    rw [haliases] at halias
    cases halias
  | @scalar b b₁ b' e rest form text p content id path hevents hkind halias hpush hwrap =>
    obtain ⟨-, -, n, hn, hscalar⟩ := getElem?_of_pushScalar hpush
    obtain ⟨k, hk, hlike⟩ := hholds.of_keeps (adds_wrap hwrap).nodes content n hn
    have hshows : f.Shows e content := by
      rw [Shows, hkind]
      refine hscalar.imp ?_ ?_
      · rintro ⟨style, hstyle⟩
        rw [hstyle] at hlike
        exact ⟨style, hlike ▸ hk⟩
      · rintro ⟨folded, raw, hblock⟩
        rw [hblock] at hlike
        exact ⟨folded, raw, hlike ▸ hk⟩
    have hbelow : f.preorder content = [content] := by
      obtain ⟨style, hk⟩ | ⟨folded, raw, hk⟩ := by rwa [Shows, hkind] at hshows
      · rw [hf.preorder_of_kind? hk]
        rfl
      · rw [hf.preorder_of_kind? hk]
        rfl
    exact ⟨_, _, .node hf hevents (by rw [hkind]; rfl) (.refl _) (adds_pushScalar hpush) hwrap
      hholds hshows hbelow⟩
  | @sequence b b₁ b₂ b' e rest p items content id path hevents hkind hitems hpush hwrap ih =>
    have hkeeps := (adds_wrap hwrap).nodes
    obtain ⟨-, -, hn⟩ := getElem?_of_push hpush
    obtain ⟨k, hk, comments, rfl⟩ := hholds.of_keeps hkeeps content _ hn
    obtain ⟨es, pairs, hmakes⟩ :=
      ih ((hholds.of_keeps hkeeps).of_keeps (adds_push hpush).nodes)
    exact ⟨_, _, .node hf hevents (by rw [hkind]; rfl) hmakes (adds_push hpush) hwrap hholds
      (by rw [Shows, hkind]; exact ⟨_, _, hk⟩) (hf.preorder_of_kind? hk)⟩
  | @mapping b b₁ b₂ b' e rest p entries content id path hevents hkind hentries hpush hwrap ih =>
    have hkeeps := (adds_wrap hwrap).nodes
    obtain ⟨-, -, hn⟩ := getElem?_of_push hpush
    obtain ⟨k, hk, rfl⟩ := hholds.of_keeps hkeeps content _ hn
    obtain ⟨es, pairs, hmakes⟩ :=
      ih ((hholds.of_keeps hkeeps).of_keeps (adds_push hpush).nodes)
    exact ⟨_, _, .node hf hevents (by rw [hkind]; rfl) hmakes (adds_push hpush) hwrap hholds
      (by rw [Shows, hkind]; exact ⟨_, hk⟩) (hf.preorder_of_kind? hk)⟩
  | noItem hevents hkind | noEntry hevents hkind =>
    exact ⟨_, _, .next hevents (by rw [hkind]; rfl)⟩
  | item hitem hitems ih ihs =>
    obtain ⟨es', pairs', hmakes'⟩ := ihs hholds
    obtain ⟨es, pairs, hmakes⟩ := ih (hholds.of_keeps hmakes'.nodes)
    exact ⟨_, _, hmakes.append hmakes'⟩
  | entry hkey hvalue hpush hentries ihkey ihvalue ihentries =>
    obtain ⟨es₃, pairs₃, hmakes₃⟩ := ihentries hholds
    have hholds₃ := hholds.of_keeps hmakes₃.nodes
    obtain ⟨es₂, pairs₂, hmakes₂⟩ := ihvalue (hholds₃.of_keeps (adds_push hpush).nodes)
    obtain ⟨es₁, pairs₁, hmakes₁⟩ :=
      ihkey ((hholds₃.of_keeps (adds_push hpush).nodes).of_keeps hmakes₂.nodes)
    obtain ⟨-, -, hn⟩ := getElem?_of_push hpush
    obtain ⟨k, hk, comments, rfl⟩ := hholds₃ _ _ hn
    have hpreorder := hf.preorder_of_kind? hk
    simp only [NodeKind.children, List.flatMap_cons, List.flatMap_nil, List.append_nil]
      at hpreorder
    have hentry := ((hmakes₁.append hmakes₂).entry hpush hholds₃).append hmakes₃
    rw [partNodes, partNodes, ← hpreorder] at hentry
    exact ⟨_, _, hentry⟩

end File

end PipelineScripts.Yaml
