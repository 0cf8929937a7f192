import PipelineScripts.Proofs.DocumentNodes

/-!
# The grammar of streams

The events of a stream nest: what a collection starts with is ended behind its items, a mapping has
a value for each key, and a document has at most one node. The builder reads every such stream to
its end. The depth it is given is enough, since with each step down it has at least one event less.
-/
namespace PipelineScripts.Yaml

/-- What a stretch of events can stand for. -/
inductive Phrase
  | node
  | items
  | entries

/-- The stretches of events that stand for a node, for the items of a sequence or for the entries of
a mapping. -/
inductive IsPhrase : Phrase → List Event → Prop
  | aliasOf {e : Event} {number : Nat} (hkind : e.kind = .aliasOf number) : IsPhrase .node [e]
  | scalar {e : Event} {form : ScalarForm} {text : List Char} {p : Properties}
      (hkind : e.kind = .scalar form text p) : IsPhrase .node [e]
  | sequence {e last : Event} {es : List Event} {p : Properties}
      (hkind : e.kind = .sequenceStart p) (hitems : IsPhrase .items es)
      (hlast : last.kind = .sequenceEnd) : IsPhrase .node (e :: (es ++ [last]))
  | mapping {e last : Event} {es : List Event} {p : Properties}
      (hkind : e.kind = .mappingStart p) (hentries : IsPhrase .entries es)
      (hlast : last.kind = .mappingEnd) : IsPhrase .node (e :: (es ++ [last]))
  | noItem : IsPhrase .items []
  | item {item items : List Event} (hitem : IsPhrase .node item) (hitems : IsPhrase .items items) :
      IsPhrase .items (item ++ items)
  | noEntry : IsPhrase .entries []
  | entry {key value entries : List Event} (hkey : IsPhrase .node key)
      (hvalue : IsPhrase .node value) (hentries : IsPhrase .entries entries) :
      IsPhrase .entries (key ++ value ++ entries)

/-- No document starts inside a node. -/
theorem IsPhrase.isInner {phrase : Phrase} {es : List Event} (h : IsPhrase phrase es) :
    ∀ e ∈ es, e.kind.isInner = true := by
  induction h with
  | aliasOf hkind | scalar hkind => simp [hkind, EventKind.isInner]
  | sequence hkind _ hlast ih | mapping hkind _ hlast ih =>
    intro e he
    simp only [List.mem_cons, List.mem_append, List.not_mem_nil, or_false] at he
    rcases he with rfl | he | rfl
    · rw [hkind]
      rfl
    · exact ih e he
    · rw [hlast]
      rfl
  | noItem | noEntry => simp
  | item _ _ ih ihs =>
    intro e he
    exact (List.mem_append.mp he).elim (ih e) (ihs e)
  | entry _ _ _ ihkey ihvalue ihentries =>
    intro e he
    simp only [List.mem_append] at he
    rcases he with (he | he) | he
    · exact ihkey e he
    · exact ihvalue e he
    · exact ihentries e he

/-- The number of documents that start in a stream. -/
def documentCount (events : List Event) : Nat := events.countP fun e => e.kind = .documentStart

@[simp] theorem documentCount_nil : documentCount [] = 0 := rfl

theorem IsPhrase.documentCount {phrase : Phrase} {es : List Event} (h : IsPhrase phrase es) :
    documentCount es = 0 := by
  refine List.countP_eq_zero.mpr fun e he hkind => ?_
  have hinner := h.isInner e he
  rw [of_decide_eq_true hkind] at hinner
  cases hinner

namespace TreeBuilder

variable {s : TreeSource} {b b₁ : TreeBuilder} {rest : List Event}

/-! ### The builder reads every stream -/

/-- A run gives a result, and it stops in front of some events. -/
def StopsAt {α : Type} (run : Option (α × TreeBuilder)) (rest : List Event) : Prop :=
  ∃ a b', run = some (a, b') ∧ b'.events = rest

/-- The parts of a collection are built up to its end. -/
def CompletesParts (parts : Nat → TreeBuilder → String → Nat → Option (List NodeId × TreeBuilder))
    (stop : EventKind) (es : List Event) : Prop :=
  ∀ (b : TreeBuilder) (last : Event) (rest : List Event) (path : String) (index fuel : Nat),
    b.events = es ++ last :: rest → last.kind = stop → 2 * es.length + 1 ≤ fuel →
      StopsAt (parts fuel b path index) rest

variable {e last : Event} {es es' es'' : List Event} {p : Properties}

namespace CompletesParts

variable {parts : Nat → TreeBuilder → String → Nat → Option (List NodeId × TreeBuilder)}
  {stop : EventKind}

/-- Where a collection ends there are no parts left. -/
theorem nil (hend : ∀ (b : TreeBuilder) (last : Event) (rest : List Event) (path : String)
      (index fuel : Nat), b.events = last :: rest → last.kind = stop →
        parts (fuel + 1) b path index = some ([], b.next s.text.length)) :
    CompletesParts parts stop [] := by
  intro b last rest path index fuel hevents hlast hfuel
  obtain ⟨fuel, rfl⟩ := Nat.exists_eq_add_of_le' hfuel
  exact ⟨_, _, hend b last rest path index _ hevents hlast, events_next hevents _⟩

/-- Between its start and its end the parts of a collection are built. -/
theorem inside (h : CompletesParts parts stop es) (hlast : last.kind = stop)
    (hevents : b.events = e :: (es ++ [last]) ++ rest) (path : String) {fuel : Nat}
    (hfuel : 2 * (e :: (es ++ [last])).length ≤ fuel) :
    ∃ n ids b₁, fuel = n + 1 ∧ b.events = e :: (es ++ last :: rest) ∧
      parts n (b.next s.text.length) path 0 = some (ids, b₁) ∧ b₁.events = rest := by
  simp only [List.length_cons, List.length_append, List.length_nil] at hfuel
  have hb : b.events = e :: (es ++ last :: rest) := by simpa using hevents
  obtain ⟨ids, b₁, hids, hb₁⟩ := h (b.next s.text.length) last rest path 0 (fuel - 1)
    (events_next hb _) hlast (by omega)
  exact ⟨fuel - 1, ids, b₁, by omega, hb, hids, hb₁⟩

end CompletesParts

end TreeBuilder

end PipelineScripts.Yaml
