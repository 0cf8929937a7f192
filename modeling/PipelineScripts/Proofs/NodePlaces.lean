import PipelineScripts.Proofs.CountedLines
import PipelineScripts.Proofs.MetNodes
import PipelineScripts.Proofs.ReplacedAliases

/-!
# Where nodes stand

A node stands where the event does that starts it, a block scalar on the line of its header, and an
entry where its key does. The marks of events are those of the text that is read, and with its
aliases replaced in place these are the marks of the text as it was.
-/
namespace PipelineScripts.Yaml

/-! ### Places of nodes -/

/-- Where a node stands that an event starts: at its start, or on the line of a header. -/
inductive TreeSource.PlaceOf (s : TreeSource) (e : Event) : Position → Prop
  | start : PlaceOf s e e.span.start.position
  | header (folded : Bool) :
      PlaceOf s e ⟨s.headerLine (blockIndicator folded) (max e.span.start.line 1),
        e.span.start.column + 1⟩

namespace TreeBuilder

/-- What a run keeps: all that is still to be read is among the events, and every node stands where
one of them puts it. -/
structure Placed (s : TreeSource) (events : List Event) (b : TreeBuilder) : Prop where
  ahead : ∀ e ∈ b.events, e ∈ events
  placed : ∀ n ∈ b.nodes, ∃ e ∈ events, e.kind.isNode = true ∧ s.PlaceOf e n.position

variable {s : TreeSource} {events : List Event} {b b' : TreeBuilder} {id : NodeId}

namespace Placed

theorem next (h : b.Placed s events) (length : Nat) : (b.next length).Placed s events := by
  exact ⟨fun e he => h.ahead e (mem_of_mem_next he), by simpa using h.placed⟩

theorem push (h : b.Placed s events) {kind : NodeKind} {position : Position} {path : String}
    (hpush : b.push kind position path = (id, b')) {e : Event} (he : e ∈ events)
    (hnode : e.kind.isNode = true) (hplace : s.PlaceOf e position) : b'.Placed s events := by
  cases hpush
  refine ⟨h.ahead, fun n hn => ?_⟩
  rcases Array.mem_push.mp hn with hn | rfl
  · exact h.placed n hn
  · exact ⟨e, he, hnode, hplace⟩

theorem pushScalar (h : b.Placed s events) {e : Event} {form : ScalarForm} {text : List Char}
    {path : String} (hpush : pushScalar s b form text e.span path = (id, b')) (he : e ∈ events)
    (hnode : e.kind.isNode = true) : b'.Placed s events := by
  have hadd : ∀ first last, (b.addContent first last).Placed s events :=
    fun first last => ⟨h.ahead, h.placed⟩
  cases form with
  | plain => exact h.push hpush he hnode .start
  | single | double => exact (hadd _ _).push hpush he hnode .start
  | literal => exact (hadd _ _).push hpush he hnode (.header false)
  | folded => exact (hadd _ _).push hpush he hnode (.header true)

theorem setsAround (h : b.Placed s events) {kind : String → NodeKind} {e : Event} {path : String}
    {wanted : Prop} {found : Option String} {inner : NodeId}
    (haround : SetsAround b kind e.span.start.position path wanted found inner id b')
    (he : e ∈ events) (hnode : e.kind.isNode = true) : b'.Placed s events := by
  cases haround with
  | set _ _ hpush => exact h.push hpush he hnode .start
  | leave => exact h

theorem wrap (h : b.Placed s events) {p : Properties} {content : NodeId} {from_ to_ : Nat}
    {e : Event} {path : String}
    (hwrap : wrap s b content p from_ to_ e.span.start.position path = (id, b')) (he : e ∈ events)
    (hnode : e.kind.isNode = true) : b'.Placed s events := by
  obtain ⟨tagged, b₁, htag, hanchor⟩ := setsAround_of_wrap hwrap rfl
  exact (h.setsAround htag he hnode).setsAround hanchor he hnode

/-- An entry stands where its key does. -/
theorem pushEntry (h : b.Placed s events) {kind : NodeKind} {key : NodeId} {path : String}
    (hpush : b.push kind (b.positionOf key) path = (id, b'))
    (hkey : (b.nodes[key]?).isSome = true) : b'.Placed s events := by
  obtain ⟨n, hn⟩ := Option.isSome_iff_exists.mp hkey
  obtain ⟨e, he, hnode, hplace⟩ := h.placed n (Array.mem_of_getElem? hn)
  refine h.push hpush he hnode ?_
  rwa [positionOf, hn]

theorem mem_of_events (h : b.Placed s events) {e : Event} {rest : List Event}
    (hevents : b.events = e :: rest) : e ∈ events := h.ahead e (by simp [hevents])

/-- A run places its nodes by the events that it reads. -/
theorem builds {part : Part} (h : b.Placed s events) (hbuilds : Builds s b part b') :
    b'.Placed s events := by
  induction hbuilds with
  | aliasOf hevents hkind hpush | placeholder hevents hkind _ hpush =>
    exact (h.next _).push hpush (h.mem_of_events hevents) (by rw [hkind]; rfl) .start
  | scalar hevents hkind _ hpush hwrap =>
    have he := h.mem_of_events hevents
    have hnode := EventKind.isNode_of_properties? (congrArg EventKind.properties? hkind)
    exact ((h.next _).pushScalar hpush he hnode).wrap hwrap he hnode
  | sequence hevents hkind _ hpush hwrap ih | mapping hevents hkind _ hpush hwrap ih =>
    have he := h.mem_of_events hevents
    have hnode := EventKind.isNode_of_properties? (congrArg EventKind.properties? hkind)
    exact ((ih (h.next _)).push hpush he hnode .start).wrap hwrap he hnode
  | noItem | noEntry => exact h.next _
  | item _ _ ihitem ihitems => exact ihitems (ihitem h)
  | entry hkey hvalue hpush _ ihkey ihvalue ihentries =>
    obtain ⟨n, hn⟩ := Option.isSome_iff_exists.mp (isSome_of_builds hkey)
    have hkept := Option.isSome_of_eq_some (keeps_of_builds hvalue _ n hn)
    exact ihentries ((ihvalue (ihkey h)).pushEntry hpush hkept)

theorem buildsDocuments {documents : List (Option NodeId)} (h : b.Placed s events)
    (hbuilds : BuildsDocuments s b documents b') : b'.Placed s events := by
  induction hbuilds with
  | none => exact h
  | stop => exact h.next _
  | pass _ _ _ ih | empty _ _ _ ih => exact ih (h.next _)
  | document _ _ hroot _ ih => exact ih ((h.next _).builds hroot)

end Placed

end TreeBuilder

/-- Every node of a tree stands where one of the events puts it. -/
theorem File.exists_placeOf {name : String} {source : List Char} {events : List Event}
    {aliases : List (Nat × String)} {f : File}
    (h : ofEvents? name source events aliases = some f) : ∀ n ∈ f.nodes, ∃ e ∈ events,
      e.kind.isNode = true ∧ (treeSource source aliases).PlaceOf e n.position := by
  obtain ⟨⟨documents, b⟩, hb, hf⟩ := Option.bind_eq_some_iff.mp h
  cases hf
  have hstart : ({ events } : TreeBuilder).Placed (treeSource source aliases) events :=
    ⟨fun e he => he, fun m hm => absurd hm (Array.not_mem_empty m)⟩
  have hend := hstart.buildsDocuments (TreeBuilder.buildsDocuments_of_documents? _ _ _ _ _ hb)
  intro n hn
  obtain ⟨m, hm, rfl⟩ := Array.mem_map.mp hn
  obtain ⟨e, he, hnode, hplace⟩ := hend.placed m hm
  -- Attaching comments moves no node.
  refine ⟨e, he, hnode, ?_⟩
  split <;> exact hplace

/-- Every node of a text stands at a mark of the text. -/
theorem Event.isOf_of_mem_read {source : List Char} {events : List Event}
    (h : Event.read source = .ok events) {e : Event} (he : e ∈ events)
    (hnode : e.kind.isNode = true) : e.span.start.IsOf source := by
  obtain ⟨t, ht, hspan⟩ := (EventReader.runs_of_run h).exists_span he hnode
  rw [← hspan]
  exact isOf_of_mem_scan ht

/-! ### Placeholders move no node -/

/-- The header of a block scalar is found on the same line. -/
theorem Covers.headerLine_eq {content source : List Char} (h : Covers content source)
    (aliases : List (Nat × String)) (folded : Bool) (n : Nat) :
    (File.treeSource source aliases).headerLine (blockIndicator folded) n =
      (File.treeSource content []).headerLine (blockIndicator folded) n := by
  have hheader : ∀ l l', Covers l l' →
      endsWithHeader (blockIndicator folded) l' = endsWithHeader (blockIndicator folded) l :=
    fun l l' hl => hl.endsWithHeader_eq (by cases folded <;> decide) (by cases folded <;> decide)
  have hline : ∀ n, ((File.treeSource source aliases).line? n).any
      (endsWithHeader (blockIndicator folded)) =
        ((File.treeSource content []).line? n).any (endsWithHeader (blockIndicator folded)) := by
    intro n
    unfold TreeSource.line? File.treeSource
    dsimp only
    split_ifs
    · rfl
    · rw [List.getElem?_toArray, List.getElem?_toArray]
      exact Covers.any_getElem?_eq hheader h.lines _
  unfold TreeSource.headerLine
  simp only [hline]

theorem Covers.placeOf {content source : List Char} (h : Covers content source)
    {aliases : List (Nat × String)} {e : Event} {position : Position}
    (hplace : (File.treeSource source aliases).PlaceOf e position) :
    (File.treeSource content []).PlaceOf e position := by
  cases hplace with
  | start => exact .start
  | header folded =>
    rw [h.headerLine_eq]
    exact .header folded

open Reading in
/-- Reading with placeholders for aliases ends, and it moves nothing. Whatever a reader of events
answers, every turn overwrites a `*` of its own, so that there are at most as many turns as the text
has stars; the bound of the loop is never met. All characters keep their offsets and their lines.
So the nodes of a file stand where they stand in the text as it was. -/
theorem aliases_replaced_in_place (content : String) :
    (∀ (read : List Char → Except Fault (List Event)) (keep : Bool),
      (∀ r r' : Reading, r.turn read keep = .inr r' →
        ∃ star name, r.source[star]? = some '*' ∧ r' = r.replace star name) ∧
      (∃ n r answer, Turns read keep n (start content.toList) r ∧
        r.turn read keep = .inl answer ∧ ∀ fuel, content.toList.count '*' < fuel →
          (start content.toList).run read keep fuel = answer) ∧
      ∀ n r, Turns read keep n (start content.toList) r →
        n ≤ content.toList.count '*' ∧ r.offsets.length = n ∧ r.InPlace content.toList ∧
        KeepsPlaces content.toList r.source) ∧
    (∀ keep fuel, readEvents keep fuel content.toList [] =
      (start content.toList).run Event.read keep fuel) ∧
    ∀ keep name f, File.read keep name content = .ok f → ∃ n r events,
      Turns Event.read keep n (start content.toList) r ∧ Event.read r.source = .ok events ∧
      File.ofEvents? name r.source events r.aliases = some f ∧
      ∀ node ∈ f.nodes, ∃ e ∈ events, e.kind.isNode = true ∧
        e.span.start.IsOf content.toList ∧
        (File.treeSource content.toList []).PlaceOf e node.position := by
  have hcount : ∀ {read : List Char → Except Fault (List Event)} {keep : Bool} {n : Nat}
      {r : Reading}, Turns read keep n (start content.toList) r →
        n ≤ content.toList.count '*' := fun hturns =>
    (Nat.le_add_left _ _).trans hturns.count_add.le
  refine ⟨fun read keep => ⟨fun r r' => exists_star_of_turn, ?_, fun n r hturns => ?_⟩,
    fun keep fuel => readEvents_eq_run keep fuel (start content.toList), fun keep name f hf => ?_⟩
  · obtain ⟨n, r, answer, hturns, hlast⟩ := exists_turns read keep (start content.toList)
    exact ⟨n, r, answer, hturns, hlast, fun fuel hfuel =>
      hturns.run_eq hlast ((hcount hturns).trans_lt hfuel)⟩
  · have hplace := (InPlace.start content.toList).turns hturns
    refine ⟨hcount hturns, ?_, hplace, hplace.covers.keepsPlaces⟩
    rw [offsets, List.length_map, hturns.length_aliases]
    exact Nat.zero_add n
  · obtain ⟨s, hs, hfile⟩ := File.exists_eventSource_of_read hf
    obtain ⟨n, hturns, hread⟩ := exists_turns_of_readEvents hs
    have hcovers := (inPlace_of_readEvents hs).covers
    refine ⟨n, _, s.events, hturns, hread, hfile, fun node hnode => ?_⟩
    obtain ⟨e, he, hstarts, hplace⟩ := File.exists_placeOf hfile node hnode
    exact ⟨e, he, hstarts, hcovers.isOf (Event.isOf_of_mem_read hread he hstarts),
      hcovers.placeOf hplace⟩

/-- A fragment with two unknown aliases and a `*` that is none. -/
def scatteredAliases : String := "a: *x\r\nb: ['*', *y]\n"

open Reading in
/-- Two of its three stars are overwritten, and the second alias stands where it stood. -/
theorem scatteredAliases_in_place :
    (∃ r, Turns Event.read true 2 (start scatteredAliases.toList) r ∧ r.offsets = [16, 3] ∧
      2 ≤ scatteredAliases.toList.count '*' ∧ r.InPlace scatteredAliases.toList ∧
      KeepsPlaces scatteredAliases.toList r.source) ∧
    ∃ f, File.read true "ci.yml" scatteredAliases = .ok f ∧
      (f.node? 5).map (fun n => (n.kind, n.position)) = some (.aliasOf "y", ⟨2, 10⟩) ∧
      ∀ node ∈ f.nodes, ∃ e : Event, e.span.start.IsOf scatteredAliases.toList ∧
        (File.treeSource scatteredAliases.toList []).PlaceOf e node.position := by
  obtain ⟨hloop, -, hfile⟩ := aliases_replaced_in_place scatteredAliases
  obtain ⟨-, -, hturns⟩ := hloop Event.read true
  have hfirst : ((start scatteredAliases.toList).turn Event.read true).getRight? =
      some ((start scatteredAliases.toList).replace 3 ['x']) := by decide +kernel
  have hsecond : (((start scatteredAliases.toList).replace 3 ['x']).turn Event.read
      true).getRight? = some (((start scatteredAliases.toList).replace 3 ['x']).replace 16
        ['y']) := by decide +kernel
  have hread : (File.read true "ci.yml" scatteredAliases).toOption.map (fun f =>
      (f.node? 5).map fun n => (n.kind, n.position)) = some (some (.aliasOf "y", ⟨2, 10⟩)) := by
    decide +kernel
  have htwo := Turns.next (Sum.getRight?_eq_some_iff.mp hfirst)
    (.next (Sum.getRight?_eq_some_iff.mp hsecond) (.none _))
  obtain ⟨hle, -, hplace, hkeeps⟩ := hturns 2 _ htwo
  obtain ⟨f, hf, hnode⟩ := Option.map_eq_some_iff.mp hread
  have hf := toOption_eq_some.mp hf
  obtain ⟨n, r, events, -, -, -, hnodes⟩ := hfile true "ci.yml" f hf
  refine ⟨⟨_, htwo, rfl, hle, hplace, hkeeps⟩, f, hf, hnode, fun node hmem => ?_⟩
  obtain ⟨e, -, -, hmark, hat⟩ := hnodes node hmem
  exact ⟨e, hmark, hat⟩

end PipelineScripts.Yaml
