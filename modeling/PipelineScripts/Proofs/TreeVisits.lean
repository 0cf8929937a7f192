import PipelineScripts.Proofs.EventGrammar

/-!
# Walks through documents

A walk through the documents of a file meets, in the order of its source, what the events of the
source are about: where a document or a collection starts and ends, scalars and aliases. Entries,
anchors and tags are passed over. What stands for an unknown alias is met as an alias.
-/
namespace PipelineScripts.Yaml

/-- What a walk through documents meets. -/
inductive Visit
  | documentStart
  | documentEnd
  | scalar (form : ScalarForm) (value : String)
  | aliasOf (name : String)
  | sequenceStart
  | sequenceEnd
  | mappingStart
  | mappingEnd
deriving DecidableEq, Repr

/-- The form a scalar is written in. -/
def ScalarStyle.form : ScalarStyle → ScalarForm
  | .plain => .plain
  | .single => .single
  | .double => .double

/-- What is met at a node in front of the nodes below it. -/
def NodeKind.opening : NodeKind → List Visit
  | .scalar value style => [.scalar style.form value]
  | .block folded value _ => [.scalar (if folded then .folded else .literal) value]
  | .aliasOf name => [.aliasOf name]
  | .sequence .. => [.sequenceStart]
  | .mapping _ => [.mappingStart]
  | .entry .. | .tagged .. | .anchor .. => []

/-- What is met at a node behind the nodes below it. -/
def NodeKind.closing : NodeKind → List Visit
  | .sequence .. => [.sequenceEnd]
  | .mapping _ => [.mappingEnd]
  | _ => []

namespace File

/-- A walk through the tree below a node to a depth. -/
def visitsWithin (f : File) : Nat → NodeId → List Visit
  | 0, _ => []
  | fuel + 1, id =>
    match f.kind? id with
    | none => []
    | some k => k.opening ++ k.children.flatMap (f.visitsWithin fuel) ++ k.closing

/-- A walk through the tree below a node. -/
def visits (f : File) (id : NodeId) : List Visit := f.visitsWithin f.nodes.size id

end File

namespace TreeSource

/-- What is met at an event. -/
def visit? (s : TreeSource) (e : Event) : Option Visit :=
  match e.kind with
  | .streamStart | .streamEnd => none
  | .documentStart => some .documentStart
  | .documentEnd => some .documentEnd
  | .aliasOf _ => some (.aliasOf (s.aliasName e))
  | .scalar form text _ =>
    match s.aliases.lookup (s.offset e) with
    | some name => some (.aliasOf name)
    | none => some (.scalar form (String.ofList text))
  | .sequenceStart _ => some .sequenceStart
  | .sequenceEnd => some .sequenceEnd
  | .mappingStart _ => some .mappingStart
  | .mappingEnd => some .mappingEnd

/-- What is met at the events of a stream. -/
def visits (s : TreeSource) (events : List Event) : List Visit := events.filterMap s.visit?

@[simp] theorem visits_nil (s : TreeSource) : s.visits [] = [] := rfl

@[simp] theorem visits_cons (s : TreeSource) (e : Event) (events : List Event) :
    s.visits (e :: events) = (s.visit? e).toList ++ s.visits events := by
  rw [visits, List.filterMap_cons]
  cases s.visit? e <;> rfl

end TreeSource

/-! ### Walks and nodes -/

theorem NodeKind.Like.opening {k k' : NodeKind} (h : k.Like k') : k'.opening = k.opening := by
  cases k with
  | entry | sequence =>
    obtain ⟨comments, rfl⟩ := h
    rfl
  | _ => rw [show k' = _ from h]

theorem NodeKind.Like.closing {k k' : NodeKind} (h : k.Like k') : k'.closing = k.closing := by
  cases k with
  | entry | sequence =>
    obtain ⟨comments, rfl⟩ := h
    rfl
  | _ => rw [show k' = _ from h]

namespace File

open TreeBuilder

variable {f : File} {s : TreeSource} {b b₁ b' : TreeBuilder} {id inner content : NodeId}
  {position : Position} {path : String}

theorem visitsWithin_eq (hf : f.Shaped) {fuel fuel' id : Nat} (h : id < fuel) (h' : id < fuel') :
    f.visitsWithin fuel id = f.visitsWithin fuel' id := by
  induction fuel generalizing fuel' id with
  | zero => omega
  | succ fuel ih =>
    obtain ⟨fuel', rfl⟩ : ∃ n, fuel' = n + 1 := ⟨fuel' - 1, by omega⟩
    rw [visitsWithin, visitsWithin]
    cases hk : f.kind? id with
    | none => rfl
    | some k =>
      have hbelow : ∀ child ∈ k.children,
          f.visitsWithin fuel child = f.visitsWithin fuel' child := by
        intro (child : Nat) hchild
        have hlt : child < id := hf.child_lt (by simpa [Below, children_of_kind? hk] using hchild)
        exact ih (by omega) (by omega)
      simp only [List.flatMap_congr hbelow]

/-- A walk goes from a node to the nodes below it and comes back to it. -/
theorem Shaped.visits_of_kind? (hf : f.Shaped) {k : NodeKind} (hk : f.kind? id = some k) :
    f.visits id = k.opening ++ k.children.flatMap f.visits ++ k.closing := by
  have hlt := lt_size_of_kind? hk
  have hmore := visitsWithin_eq hf hlt (Nat.lt_succ_of_lt hlt)
  rw [visits, hmore, visitsWithin, hk]
  rfl

/-- What was added is met. -/
theorem Holds.visits (hf : f.Shaped) {nodes : Array Node} (h : f.Holds nodes) {n : Node}
    (hn : nodes[id]? = some n) :
    f.visits id = n.kind.opening ++ n.kind.children.flatMap f.visits ++ n.kind.closing := by
  obtain ⟨k, hk, hlike⟩ := h id n hn
  rw [hf.visits_of_kind? hk, hlike.opening, hlike.children, hlike.closing]

end File

namespace TreeBuilder

variable {s : TreeSource} {b b₁ b' : TreeBuilder} {e next : Event} {es rest : List Event}
  {documents : List (Option NodeId)} {fuel : Nat}

/-! ### Documents -/

end TreeBuilder

end PipelineScripts.Yaml
