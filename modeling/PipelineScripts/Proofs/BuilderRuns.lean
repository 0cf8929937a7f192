import PipelineScripts.Proofs.Results
import PipelineScripts.Yaml.Reading

/-!
# Runs of the tree builder

What the builder does with a part of a stream, step by step and without the bound on its depth. A
property of all trees is proved by induction on such a run, one case for each kind of node.
-/
namespace PipelineScripts.Yaml

namespace TreeSource

/-- Where an event starts, as an offset into the text. -/
def offset (s : TreeSource) (e : Event) : Nat := min e.span.start.index s.text.length

/-- Where an event ends, if the events before it end at `stop`. -/
def stopAfter (s : TreeSource) (stop : Nat) (e : Event) : Nat :=
  max stop (min e.span.stop.index s.text.length)

/-- The name of an alias, as it is found in the text. -/
def aliasName (s : TreeSource) (e : Event) : String :=
  String.ofList (((aliasAt? s.text (s.offset e)).map (·.2)).getD [])

/-- The anchor and the tag found in front of an event, if the events before it end at `stop`. -/
def propertiesAt (s : TreeSource) (stop : Nat) (e : Event) : Option String × Option String :=
  findProperties ((s.text.drop stop).take (s.offset e - stop))

end TreeSource

namespace TreeBuilder

@[simp] theorem nodes_next (b : TreeBuilder) (length : Nat) : (b.next length).nodes = b.nodes := by
  unfold next
  split <;> rfl

/-- What is still to be read after an event was so before it. -/
theorem mem_of_mem_next {b : TreeBuilder} {length : Nat} {e : Event}
    (h : e ∈ (b.next length).events) : e ∈ b.events := by
  unfold next at h
  split at h
  next => exact h
  next first rest hevents => exact hevents ▸ List.mem_cons_of_mem first h

@[simp] theorem nodes_addContent (b : TreeBuilder) (first last : Nat) :
    (b.addContent first last).nodes = b.nodes := rfl

/-- A node is set around another one if it is wanted and its name was found. -/
inductive SetsAround (b : TreeBuilder) (kind : String → NodeKind) (position : Position)
    (path : String) (wanted : Prop) (found : Option String) (inner : NodeId) :
    NodeId → TreeBuilder → Prop
  | set {name : String} {id : NodeId} {b' : TreeBuilder} (hwanted : wanted)
      (hfound : found = some name) (hpush : b.push (kind name) position path = (id, b')) :
      SetsAround b kind position path wanted found inner id b'
  | leave (hnone : ¬ wanted ∨ found = none) :
      SetsAround b kind position path wanted found inner inner b

theorem setsAround_of_ite {b b' : TreeBuilder} {kind : String → NodeKind} {position : Position}
    {path name : String} {wanted : Prop} [Decidable wanted] {inner id : NodeId}
    (h : (if wanted then b.push (kind name) position path else (inner, b)) = (id, b')) :
    SetsAround b kind position path wanted (some name) inner id b' := by
  split_ifs at h with hwanted
  · exact .set hwanted rfl h
  · cases h
    exact .leave (.inl hwanted)

/-- A tag is set around a node, and an anchor around both. -/
theorem setsAround_of_wrap {s : TreeSource} {b b' : TreeBuilder} {content id : NodeId}
    {p : Properties} {from_ to_ : Nat} {position : Position} {path : String}
    (h : wrap s b content p from_ to_ position path = (id, b'))
    {found : Option String × Option String}
    (hfound : findProperties ((s.text.drop from_).take (to_ - from_)) = found) :
    ∃ tagged b₁, SetsAround b (.tagged · content) position path (p.tagged = true) found.2 content
        tagged b₁ ∧
      SetsAround b₁ (.anchor · tagged) position path (p.anchor ≠ 0) found.1 tagged id b' := by
  obtain ⟨anchor, tag⟩ := found
  unfold wrap at h
  rw [hfound] at h
  split at h
  next hplain =>
    cases h
    simp only [Bool.and_eq_true, decide_eq_true_eq, Bool.not_eq_true'] at hplain
    exact ⟨content, b, .leave (.inl (by simp [hplain.2])), .leave (.inl (by simp [hplain.1]))⟩
  next =>
    cases tag with
    | none =>
      cases anchor with
      | none =>
        cases h
        exact ⟨content, b, .leave (.inr rfl), .leave (.inr rfl)⟩
      | some name => exact ⟨content, b, .leave (.inr rfl), setsAround_of_ite h⟩
    | some tag =>
      cases anchor with
      | none => exact ⟨_, _, setsAround_of_ite h, .leave (.inr rfl)⟩
      | some name => exact ⟨_, _, setsAround_of_ite rfl, setsAround_of_ite h⟩

/-- Parts of a tree. -/
inductive Part
  | node (id : NodeId)
  | items (ids : List NodeId)
  | entries (ids : List NodeId)

/-- A run of the builder: with `b` it starts, the part is built, with the last it goes on. -/
inductive Builds (s : TreeSource) : TreeBuilder → Part → TreeBuilder → Prop
  | aliasOf {b b' : TreeBuilder} {e : Event} {rest : List Event} {number : Nat} {id : NodeId}
      {path : String} (hevents : b.events = e :: rest) (hkind : e.kind = .aliasOf number)
      (hpush : (b.next s.text.length).push (.aliasOf (s.aliasName e)) e.span.start.position path =
        (id, b')) : Builds s b (.node id) b'
  | placeholder {b b' : TreeBuilder} {e : Event} {rest : List Event} {form : ScalarForm}
      {text : List Char} {p : Properties} {name : String} {id : NodeId} {path : String}
      (hevents : b.events = e :: rest) (hkind : e.kind = .scalar form text p)
      (halias : s.aliases.lookup (s.offset e) = some name)
      (hpush : (b.next s.text.length).push (.aliasOf name) e.span.start.position path =
        (id, b')) : Builds s b (.node id) b'
  | scalar {b b₁ b' : TreeBuilder} {e : Event} {rest : List Event} {form : ScalarForm}
      {text : List Char} {p : Properties} {content id : NodeId} {path : String}
      (hevents : b.events = e :: rest) (hkind : e.kind = .scalar form text p)
      (halias : s.aliases.lookup (s.offset e) = none)
      (hpush : pushScalar s (b.next s.text.length) form text e.span path = (content, b₁))
      (hwrap : wrap s b₁ content p b.stop (s.offset e) e.span.start.position path = (id, b')) :
      Builds s b (.node id) b'
  | sequence {b b₁ b₂ b' : TreeBuilder} {e : Event} {rest : List Event} {p : Properties}
      {items : List NodeId} {content id : NodeId} {path : String}
      (hevents : b.events = e :: rest) (hkind : e.kind = .sequenceStart p)
      (hitems : Builds s (b.next s.text.length) (.items items) b₁)
      (hpush : b₁.push (.sequence items (items.map fun _ => [])) e.span.start.position path =
        (content, b₂))
      (hwrap : wrap s b₂ content p b.stop (s.offset e) e.span.start.position path = (id, b')) :
      Builds s b (.node id) b'
  | mapping {b b₁ b₂ b' : TreeBuilder} {e : Event} {rest : List Event} {p : Properties}
      {entries : List NodeId} {content id : NodeId} {path : String}
      (hevents : b.events = e :: rest) (hkind : e.kind = .mappingStart p)
      (hentries : Builds s (b.next s.text.length) (.entries entries) b₁)
      (hpush : b₁.push (.mapping entries) e.span.start.position path = (content, b₂))
      (hwrap : wrap s b₂ content p b.stop (s.offset e) e.span.start.position path = (id, b')) :
      Builds s b (.node id) b'
  | noItem {b : TreeBuilder} {e : Event} {rest : List Event} (hevents : b.events = e :: rest)
      (hkind : e.kind = .sequenceEnd) : Builds s b (.items []) (b.next s.text.length)
  | item {b b₁ b' : TreeBuilder} {id : NodeId} {ids : List NodeId}
      (hitem : Builds s b (.node id) b₁) (hitems : Builds s b₁ (.items ids) b') :
      Builds s b (.items (id :: ids)) b'
  | noEntry {b : TreeBuilder} {e : Event} {rest : List Event} (hevents : b.events = e :: rest)
      (hkind : e.kind = .mappingEnd) : Builds s b (.entries []) (b.next s.text.length)
  | entry {b b₁ b₂ b₃ b' : TreeBuilder} {key value id : NodeId} {ids : List NodeId}
      {path : String} (hkey : Builds s b (.node key) b₁) (hvalue : Builds s b₁ (.node value) b₂)
      (hpush : b₂.push (.entry key value []) (b₂.positionOf key) path = (id, b₃))
      (hentries : Builds s b₃ (.entries ids) b') : Builds s b (.entries (id :: ids)) b'

/-- The functions of the builder make such runs. The induction is on the depth that they share. -/
theorem builds_of_depth (s : TreeSource) (depth : Nat) :
    (∀ b path id b', node? s depth b path = some (id, b') → Builds s b (.node id) b') ∧
    (∀ b path index ids b', items? s depth b path index = some (ids, b') →
      Builds s b (.items ids) b') ∧
    (∀ b path ids b', entries? s depth b path = some (ids, b') →
      Builds s b (.entries ids) b') := by
  induction depth with
  | zero => simp [node?, items?, entries?]
  | succ depth ih =>
    obtain ⟨hnode, hitems, hentries⟩ := ih
    refine ⟨?_, ?_, ?_⟩
    · intro b path id b' h
      rw [node?] at h
      split at h
      next => cases h
      next e rest hevents =>
        dsimp only at h
        split at h
        next hkind => exact .aliasOf hevents hkind (Option.some.inj h)
        next hkind =>
          split at h
          next halias => exact .placeholder hevents hkind halias (Option.some.inj h)
          next halias => exact .scalar hevents hkind halias rfl (Option.some.inj h)
        next hkind =>
          split at h
          next => cases h
          next hrest =>
            exact .sequence hevents hkind (hitems _ _ _ _ _ hrest) rfl (Option.some.inj h)
        next hkind =>
          split at h
          next => cases h
          next hrest =>
            exact .mapping hevents hkind (hentries _ _ _ _ hrest) rfl (Option.some.inj h)
        next => cases h
    · intro b path index ids b' h
      rw [items?] at h
      split at h
      next => cases h
      next hevents =>
        split at h
        next hkind =>
          cases h
          exact .noItem hevents hkind
        next =>
          split at h
          next => cases h
          next hitem =>
            split at h
            next => cases h
            next hrest =>
              cases h
              exact .item (hnode _ _ _ _ hitem) (hitems _ _ _ _ _ hrest)
    · intro b path ids b' h
      rw [entries?] at h
      split at h
      next => cases h
      next hevents =>
        split at h
        next hkind =>
          cases h
          exact .noEntry hevents hkind
        next =>
          split at h
          next => cases h
          next hkey =>
            dsimp only at h
            split at h
            next => cases h
            next hvalue =>
              split at h
              next => cases h
              next hrest =>
                cases h
                exact .entry (hnode _ _ _ _ hkey) (hnode _ _ _ _ hvalue) rfl
                  (hentries _ _ _ _ hrest)

/-- A run over the documents of a stream. -/
inductive BuildsDocuments (s : TreeSource) :
    TreeBuilder → List (Option NodeId) → TreeBuilder → Prop
  | none {b : TreeBuilder} (hevents : b.events = []) : BuildsDocuments s b [] b
  | stop {b : TreeBuilder} {e : Event} {rest : List Event} (hevents : b.events = e :: rest)
      (hkind : e.kind = .streamEnd) : BuildsDocuments s b [] (b.next s.text.length)
  | pass {b b' : TreeBuilder} {e : Event} {rest : List Event} {documents : List (Option NodeId)}
      (hevents : b.events = e :: rest) (hstart : e.kind ≠ .documentStart)
      (hrest : BuildsDocuments s (b.next s.text.length) documents b') :
      BuildsDocuments s b documents b'
  | empty {b b' : TreeBuilder} {e : Event} {rest : List Event} {documents : List (Option NodeId)}
      (hevents : b.events = e :: rest) (hkind : e.kind = .documentStart)
      (hrest : BuildsDocuments s (b.next s.text.length) documents b') :
      BuildsDocuments s b (none :: documents) b'
  | document {b b₁ b' : TreeBuilder} {e : Event} {rest : List Event} {root : NodeId}
      {documents : List (Option NodeId)} (hevents : b.events = e :: rest)
      (hkind : e.kind = .documentStart)
      (hroot : Builds s (b.next s.text.length) (.node root) b₁)
      (hrest : BuildsDocuments s b₁ documents b') :
      BuildsDocuments s b (some root :: documents) b'

theorem buildsDocuments_of_documents? (s : TreeSource) (fuel : Nat) :
    ∀ b documents b', documents? s fuel b = some (documents, b') →
      BuildsDocuments s b documents b' := by
  induction fuel with
  | zero => simp [documents?]
  | succ fuel ih =>
    intro b documents b' h
    rw [documents?] at h
    split at h
    next hevents =>
      cases h
      exact .none hevents
    next e rest hevents =>
      dsimp only at h
      split at h
      next hkind =>
        cases h
        exact .stop hevents hkind
      next hkind =>
        split at h
        next => cases h
        next root b₁ hroot =>
          split at h
          next => cases h
          next hb₂ =>
            cases h
            have hrest := ih _ _ _ hb₂
            split at hroot
            next =>
              cases hroot
              exact .empty hevents hkind hrest
            next =>
              cases hroot
              exact .empty hevents hkind hrest
            next =>
              cases hroot
              exact .empty hevents hkind hrest
            next =>
              obtain ⟨⟨id, b₁'⟩, hid, heq⟩ := Option.map_eq_some_iff.mp hroot
              cases heq
              exact .document hevents hkind ((builds_of_depth s _).1 _ _ _ _ hid) hrest
      next hstart => exact .pass hevents hstart (ih _ _ _ h)

end TreeBuilder

end PipelineScripts.Yaml
