import PipelineScripts.Proofs.BuilderRuns
import PipelineScripts.Proofs.EventTokens
import PipelineScripts.Proofs.ReadFiles

/-!
# Where scalars come from

A scalar in a tree is made of one scalar event, and stands where the event starts. The value of a
block scalar is the event's text, and its line and its body are looked up in the source from there.
-/
namespace PipelineScripts.Yaml

/-- The indicator a block scalar's header has. -/
def blockIndicator (folded : Bool) : Char := if folded then '>' else '|'

/-- The form of a block scalar's event. -/
def blockForm (folded : Bool) : ScalarForm := if folded then .folded else .literal

/-- A block scalar and its position are made of an event. -/
structure TreeSource.BlockOf (s : TreeSource) (e : Event) (folded : Bool) (value raw : String)
    (position : Position) : Prop where
  kind : ∃ p, e.kind = .scalar (blockForm folded) value.toList p
  raw : raw.toList = TreeSource.rawText (s.blockBody e.span (blockIndicator folded)).2
  position : position =
    ⟨(s.blockBody e.span (blockIndicator folded)).1, e.span.start.column + 1⟩

/-- If a node is a block scalar it is made of one of the events. -/
def Node.MadeOf (s : TreeSource) (events : List Event) (n : Node) : Prop :=
  ∀ folded value raw, n.kind = .block folded value raw →
    ∃ e ∈ events, s.BlockOf e folded value raw n.position

/-- If a node is a scalar of another form it stands where one of the events does. -/
def Node.StandsAt (events : List Event) (n : Node) : Prop :=
  ∀ value style, n.kind = .scalar value style →
    ∃ e ∈ events, e.kind.properties?.isSome ∧ n.position = e.span.start.position

namespace TreeBuilder

/-- What a run keeps: all that is still to be read is among the events, and so is what the scalars
were made of. -/
structure Sourced (s : TreeSource) (events : List Event) (b : TreeBuilder) : Prop where
  ahead : ∀ e ∈ b.events, e ∈ events
  made : ∀ n ∈ b.nodes, n.MadeOf s events
  stands : ∀ n ∈ b.nodes, n.StandsAt events

namespace Sourced

variable {s : TreeSource} {events : List Event} {b b' : TreeBuilder} {id : NodeId}

theorem next (h : b.Sourced s events) (length : Nat) : (b.next length).Sourced s events := by
  exact ⟨fun e he => h.ahead e (mem_of_mem_next he), by simpa using h.made,
    by simpa using h.stands⟩

theorem push (h : b.Sourced s events) {kind : NodeKind} {position : Position} {path : String}
    (hpush : b.push kind position path = (id, b'))
    (hmade : Node.MadeOf s events ⟨kind, position, path, 0⟩)
    (hstands : Node.StandsAt events ⟨kind, position, path, 0⟩) : b'.Sourced s events := by
  cases hpush
  refine ⟨h.ahead, fun n hn => ?_, fun n hn => ?_⟩
  · rcases Array.mem_push.mp hn with hn | rfl
    · exact h.made n hn
    · exact hmade
  · rcases Array.mem_push.mp hn with hn | rfl
    · exact h.stands n hn
    · exact hstands

/-- A node that is no scalar is added. -/
theorem push_other (h : b.Sourced s events) {kind : NodeKind} {position : Position} {path : String}
    (hpush : b.push kind position path = (id, b'))
    (hblock : ∀ folded value raw, kind ≠ .block folded value raw)
    (hscalar : ∀ value style, kind ≠ .scalar value style) : b'.Sourced s events :=
  h.push hpush (fun folded value raw heq => absurd heq (hblock folded value raw))
    fun value style heq => absurd heq (hscalar value style)

theorem pushScalar (h : b.Sourced s events) {e : Event} {form : ScalarForm} {text : List Char}
    {p : Properties} {path : String} (he : e ∈ events) (hkind : e.kind = .scalar form text p)
    (hpush : pushScalar s b form text e.span path = (id, b')) : b'.Sourced s events := by
  have hadd : ∀ first last, (b.addContent first last).Sourced s events :=
    fun first last => ⟨h.ahead, h.made, h.stands⟩
  have hblock : ∀ folded raw position, form = blockForm folded →
      raw.toList = TreeSource.rawText (s.blockBody e.span (blockIndicator folded)).2 →
      position = ⟨(s.blockBody e.span (blockIndicator folded)).1, e.span.start.column + 1⟩ →
      Node.MadeOf s events ⟨.block folded (String.ofList text) raw, position, path, 0⟩ := by
    intro folded raw position hform hraw hposition folded' value' raw' heq
    cases heq
    exact ⟨e, he, ⟨p, by rw [hkind, hform, String.toList_ofList]⟩, hraw, hposition⟩
  have hplain : ∀ {b : TreeBuilder} {value : String} {style : ScalarStyle}, b.Sourced s events →
      b.push (.scalar value style) e.span.start.position path = (id, b') →
      b'.Sourced s events := by
    intro b value style h hpush
    refine h.push hpush (fun _ _ _ heq => by cases heq) fun _ _ _ => ⟨e, he, ?_, rfl⟩
    rw [hkind]
    rfl
  unfold TreeBuilder.pushScalar at hpush
  dsimp only at hpush
  cases form with
  | plain => exact hplain h hpush
  | single => exact hplain (hadd _ _) hpush
  | double => exact hplain (hadd _ _) hpush
  | literal =>
    refine (hadd _ _).push hpush (hblock false _ _ rfl (String.toList_ofList ..) ?_)
      fun _ _ heq => by cases heq
    rfl
  | folded =>
    refine (hadd _ _).push hpush (hblock true _ _ rfl (String.toList_ofList ..) ?_)
      fun _ _ heq => by cases heq
    rfl

theorem setsAround (h : b.Sourced s events) {kind : String → NodeKind} {position : Position}
    {path : String} {wanted : Prop} {found : Option String} {inner : NodeId}
    (haround : SetsAround b kind position path wanted found inner id b')
    (hblock : ∀ name folded value raw, kind name ≠ .block folded value raw)
    (hscalar : ∀ name value style, kind name ≠ .scalar value style) : b'.Sourced s events := by
  cases haround with
  | set _ _ hpush => exact h.push_other hpush (hblock _) (hscalar _)
  | leave => exact h

theorem wrap (h : b.Sourced s events) {p : Properties} {content : NodeId} {from_ to_ : Nat}
    {position : Position} {path : String}
    (hwrap : wrap s b content p from_ to_ position path = (id, b')) : b'.Sourced s events := by
  obtain ⟨tagged, b₁, htag, hanchor⟩ := setsAround_of_wrap hwrap rfl
  exact (h.setsAround htag (by simp) (by simp)).setsAround hanchor (by simp) (by simp)

/-- A run adds scalars made of events it has read. -/
theorem builds {part : Part} (h : b.Sourced s events) (hbuilds : Builds s b part b') :
    b'.Sourced s events := by
  induction hbuilds with
  | aliasOf _ _ hpush | placeholder _ _ _ hpush =>
    exact (h.next _).push_other hpush (by simp) (by simp)
  | scalar hevents hkind _ hpush hwrap =>
    have he := h.ahead _ (by rw [hevents]; exact List.mem_cons_self)
    exact ((h.next _).pushScalar he hkind hpush).wrap hwrap
  | sequence _ _ _ hpush hwrap ih | mapping _ _ _ hpush hwrap ih =>
    exact ((ih (h.next _)).push_other hpush (by simp) (by simp)).wrap hwrap
  | noItem | noEntry => exact h.next _
  | item _ _ ihitem ihitems => exact ihitems (ihitem h)
  | entry _ _ hpush _ ihkey ihvalue ihentries =>
    exact ihentries ((ihvalue (ihkey h)).push_other hpush (by simp) (by simp))

theorem buildsDocuments {documents : List (Option NodeId)} (h : b.Sourced s events)
    (hbuilds : BuildsDocuments s b documents b') : b'.Sourced s events := by
  induction hbuilds with
  | none => exact h
  | stop => exact h.next _
  | pass _ _ _ ih | empty _ _ _ ih => exact ih (h.next _)
  | document _ _ hroot _ ih => exact ih ((h.next _).builds hroot)

end Sourced

end TreeBuilder

section Reading

-- The reader of events is looked at as a whole: opened up, it is too large to compute with.
attribute [local irreducible] Event.read

/-- One turn of reading a source. -/
theorem readEvents_succ (keep : Bool) (fuel : Nat) (source : List Char)
    (aliases : List (Nat × String)) : readEvents keep (fuel + 1) source aliases =
      match Event.read source with
      | .ok events => .ok ⟨source, events, aliases⟩
      | .error .malformed => .error .malformed
      | .error (.unknownAnchor mark) =>
        match aliasAt? source mark.index with
        | none => .error .malformed
        | some (star, name) =>
          if keep then
            readEvents keep fuel (source.set star aliasPlaceholder)
              ((star, String.ofList name) :: aliases)
          else .error (.unknownAlias (String.ofList name) mark.line) := rfl

/-- The tree of a file of its own is built from the events of its whole text. -/
theorem File.exists_events_of_parse {name content : String} {f : File}
    (h : File.parse name content = .ok f) : ∃ events, Event.read content.toList = .ok events ∧
      File.ofEvents? name content.toList events [] = some f := by
  obtain ⟨r, hr, hfile⟩ := exists_eventSource_of_read h
  have hevents : Event.read content.toList = .ok r.events ∧ r.source = content.toList ∧
      r.aliases = [] := by
    rw [readEvents_succ] at hr
    split at hr
    next events heq =>
      cases hr
      exact ⟨heq, rfl, rfl⟩
    next => cases hr
    next mark _ =>
      -- A file of its own keeps no unknown alias.
      split at hr <;> cases hr
  obtain ⟨hread, hsource, haliases⟩ := hevents
  rw [hsource, haliases] at hfile
  exact ⟨r.events, hread, hfile⟩

theorem read_of_readEvents {keep : Bool} {fuel : Nat} {source : List Char}
    {aliases : List (Nat × String)} {r : EventSource}
    (h : readEvents keep fuel source aliases = .ok r) : Event.read r.source = .ok r.events := by
  induction fuel generalizing source aliases with
  | zero => cases h
  | succ fuel ih =>
    rw [readEvents_succ] at h
    split at h
    next events heq =>
      cases h
      exact heq
    next => cases h
    next mark _ =>
      split at h
      next => cases h
      next star name _ =>
        split_ifs at h
        exact ih h

/-- A tree is built from the events of a text: that of the file, or the one that it became with its
unknown aliases replaced. -/
theorem File.exists_events_of_read {keep : Bool} {name content : String} {f : File}
    (h : File.read keep name content = .ok f) : ∃ source events aliases,
      Event.read source = .ok events ∧ File.ofEvents? name source events aliases = some f := by
  obtain ⟨r, hr, hfile⟩ := exists_eventSource_of_read h
  exact ⟨r.source, r.events, r.aliases, read_of_readEvents hr, hfile⟩

end Reading

namespace File

/-- What a tree is built from: a source and its lines. -/
def treeSource (source : List Char) (aliases : List (Nat × String)) : TreeSource :=
  ⟨source, (Text.lines source).toArray, aliases⟩

/-- The scalars of a tree are made of the events. -/
theorem made_and_stands {name : String} {source : List Char} {events : List Event}
    {aliases : List (Nat × String)} {f : File}
    (h : ofEvents? name source events aliases = some f) :
    ∀ n ∈ f.nodes, n.MadeOf (treeSource source aliases) events ∧ n.StandsAt events := by
  obtain ⟨⟨documents, b⟩, hb, hf⟩ := Option.bind_eq_some_iff.mp h
  cases hf
  have hstart : ({ events } : TreeBuilder).Sourced (treeSource source aliases) events :=
    ⟨fun e he => he, fun m hm => absurd hm (Array.not_mem_empty m),
      fun m hm => absurd hm (Array.not_mem_empty m)⟩
  have hend := hstart.buildsDocuments (TreeBuilder.buildsDocuments_of_documents? _ _ _ _ _ hb)
  intro n hn
  obtain ⟨m, hm, rfl⟩ := Array.mem_map.mp hn
  -- Comments are attached to entries and sequences only.
  constructor
  · intro folded value raw hk
    split at hk
    next => cases hk
    next => cases hk
    next => exact hend.made m hm folded value raw hk
  · intro value style hk
    split at hk
    next => cases hk
    next => cases hk
    next => exact hend.stands m hm value style hk

/-- A block scalar of a tree is made of an event. -/
theorem exists_event_of_block {name : String} {source : List Char} {events : List Event}
    {aliases : List (Nat × String)} {f : File}
    (h : ofEvents? name source events aliases = some f) {id : NodeId} {folded : Bool}
    {value raw : String} {n : Node} (hn : f.node? id = some n)
    (hk : n.kind = .block folded value raw) :
    ∃ e ∈ events, (treeSource source aliases).BlockOf e folded value raw n.position :=
  (made_and_stands h n (Array.mem_of_getElem? hn)).1 folded value raw hk

end File

end PipelineScripts.Yaml
