import Mathlib.Data.Finset.Card
import Mathlib.Data.List.Flatten
import Mathlib.Logic.Relation
import PipelineScripts.Yaml.Node

/-!
# Depth of a tree

Walks down a tree are given a depth. In a file whose nodes have no cycle below them a number below
the number of its nodes is left over at every node, so the depth never runs out. The number is a
count: a node has more nodes below it than each of its children.
-/
namespace PipelineScripts.Yaml.File

/-- One node stands directly below another. -/
def Below (f : File) (a b : NodeId) : Prop := b ∈ f.children a

/-- No node stands below itself. -/
def Acyclic (f : File) : Prop := ∀ id, ¬ Relation.TransGen f.Below id id

theorem lt_size_of_kind? {f : File} {id : Nat} {k : NodeKind} (h : f.kind? id = some k) :
    id < f.nodes.size := by
  unfold kind? node? at h
  by_contra hn
  rw [Array.getElem?_eq_none (Nat.le_of_not_gt hn)] at h
  cases h

theorem children_of_kind? {f : File} {id : NodeId} {k : NodeKind} (h : f.kind? id = some k) :
    f.children id = k.children := by
  simp [children, h]

theorem exists_kind?_of_below {f : File} {a b : NodeId} (h : f.Below a b) :
    ∃ k, f.kind? a = some k ∧ b ∈ k.children := by
  unfold Below children at h
  cases hk : f.kind? a with
  | none => simp [hk] at h
  | some k => exact ⟨k, rfl, by simpa [hk] using h⟩

theorem lt_size_of_below {f : File} {a b : Nat} (h : f.Below a b) : a < f.nodes.size := by
  obtain ⟨k, hk, -⟩ := exists_kind?_of_below h
  exact lt_size_of_kind? hk

/-- Where a rank falls from every node to those below it, there is no cycle. -/
theorem acyclic_of_rank {f : File} (rank : NodeId → Nat)
    (h : ∀ a b, f.Below a b → rank b < rank a) : f.Acyclic := by
  have hlt : ∀ a b, Relation.TransGen f.Below a b → rank b < rank a := by
    intro a b hab
    induction hab with
    | single hstep => exact h _ _ hstep
    | tail _ hstep ih => exact lt_trans (h _ _ hstep) ih
  intro id hid
  exact lt_irrefl (rank id) (hlt id id hid)

/-- Where every node has a greater number than those below it, there is no cycle. -/
theorem acyclic_of_children_lt {f : File}
    (h : ∀ id < f.nodes.size, ∀ child ∈ f.children id, child < id) : f.Acyclic :=
  acyclic_of_rank (fun id => id) fun a b hab => h a (lt_size_of_below hab) b hab

open Classical in
/-- The nodes of the tree below a node, the node itself among them. -/
noncomputable def tree (f : File) (id : NodeId) : Finset NodeId :=
  (Finset.range f.nodes.size).filter (Relation.ReflTransGen f.Below id)

@[simp] theorem mem_tree {f : File} {id x : NodeId} :
    x ∈ f.tree id ↔ x < f.nodes.size ∧ Relation.ReflTransGen f.Below id x := by
  simp [tree]

/-- The number of nodes of the tree below a node. -/
noncomputable def height (f : File) (id : NodeId) : Nat := (f.tree id).card

theorem height_le (f : File) (id : NodeId) : f.height id ≤ f.nodes.size := by
  have hsub : f.tree id ⊆ Finset.range f.nodes.size := by
    intro x hx
    exact Finset.mem_range.mpr (mem_tree.mp hx).1
  have hc := Finset.card_le_card hsub
  rwa [Finset.card_range] at hc

/-- A child has a smaller tree: its parent is not in it. -/
theorem height_lt {f : File} (hf : f.Acyclic) {a b : NodeId} (h : f.Below a b) :
    f.height b < f.height a := by
  have hsub : f.tree b ⊆ f.tree a := by
    intro x hx
    obtain ⟨hlt, hreach⟩ := mem_tree.mp hx
    exact mem_tree.mpr ⟨hlt, Relation.ReflTransGen.head h hreach⟩
  apply Finset.card_lt_card
  rw [Finset.ssubset_iff_of_subset hsub]
  refine ⟨a, mem_tree.mpr ⟨lt_size_of_below h, .refl⟩, ?_⟩
  intro ha
  exact hf a (Relation.TransGen.head' h (mem_tree.mp ha).2)

theorem height_pos {f : File} {id : NodeId} (hid : id < f.nodes.size) : 0 < f.height id :=
  Finset.card_pos.mpr ⟨id, mem_tree.mpr ⟨hid, .refl⟩⟩

/-! ### Preorder -/

/-- No child is a number without a node. -/
def Closed (f : File) : Prop := ∀ {a b : Nat}, f.Below a b → b < f.nodes.size

theorem lt_size_of_reach {f : File} (hf : f.Closed) {a b : Nat} (ha : a < f.nodes.size)
    (h : Relation.ReflTransGen f.Below a b) : b < f.nodes.size := by
  cases h with
  | refl => exact ha
  | tail _ hstep => exact hf hstep

theorem preorderWithin_eq {f : File} (hf : f.Acyclic) (hclosed : f.Closed) {fuel fuel' : Nat}
    {id : NodeId} (hid : id < f.nodes.size) (h : f.height id ≤ fuel) (h' : f.height id ≤ fuel') :
    f.preorderWithin fuel id = f.preorderWithin fuel' id := by
  induction fuel generalizing fuel' id with
  | zero =>
    have hpos := height_pos hid
    omega
  | succ fuel ih =>
    have hpos := height_pos hid
    obtain ⟨fuel', rfl⟩ : ∃ n, fuel' = n + 1 := ⟨fuel' - 1, by omega⟩
    simp only [preorderWithin, List.cons.injEq, true_and]
    refine List.flatMap_congr fun child hchild => ?_
    have hlt := height_lt hf hchild
    exact ih (hclosed hchild) (by omega) (by omega)

/-- A node comes first, and then its children's trees in order. -/
theorem preorder_eq {f : File} (hf : f.Acyclic) (hclosed : f.Closed) {id : NodeId}
    (hid : id < f.nodes.size) :
    f.preorder id = id :: (f.children id).flatMap f.preorder := by
  have hheight := f.height_le id
  have hmore := preorderWithin_eq hf hclosed hid hheight (Nat.le_succ_of_le hheight)
  rw [preorder, hmore, preorderWithin]
  rfl

/-- What passes from every node to those below it holds in the whole tree. -/
theorem forall_mem_preorder {f : File} {P : NodeId → Prop}
    (hstep : ∀ a b, P a → f.Below a b → P b) {id : NodeId} (hid : P id) :
    ∀ x ∈ f.preorder id, P x := by
  unfold preorder
  generalize f.nodes.size = fuel
  induction fuel generalizing id with
  | zero => simp [preorderWithin]
  | succ fuel ih =>
    intro x hx
    rcases List.mem_cons.mp hx with rfl | hx
    · exact hid
    · obtain ⟨child, hchild, hx⟩ := List.mem_flatMap.mp hx
      exact ih (hstep id child hid hchild) x hx

/-- The tree of a node is part of that of any node above it. -/
theorem preorder_sublist {f : File} (hf : f.Acyclic) (hclosed : f.Closed) {a b : NodeId}
    (h : Relation.ReflTransGen f.Below a b) : (f.preorder b).Sublist (f.preorder a) := by
  induction h with
  | refl => exact List.Sublist.refl _
  | @tail b c _ hstep ih =>
    refine List.Sublist.trans ?_ ih
    rw [preorder_eq hf hclosed (lt_size_of_below hstep)]
    have hone := (List.singleton_sublist.mpr hstep).flatMap f.preorder
    rw [List.flatMap_singleton] at hone
    exact hone.cons b

/-- The tree below a node consists of the nodes that are reached from it. -/
theorem mem_preorder_iff {f : File} (hf : f.Acyclic) (hclosed : f.Closed) {id x : NodeId}
    (hid : id < f.nodes.size) : x ∈ f.preorder id ↔ Relation.ReflTransGen f.Below id x := by
  constructor
  · intro h
    exact forall_mem_preorder (P := fun x => Relation.ReflTransGen f.Below id x)
      (fun _ _ ha hab => ha.tail hab) .refl x h
  · intro h
    have hx : x < f.nodes.size := by
      cases h with
      | refl => exact hid
      | tail _ hstep => exact hclosed hstep
    refine (preorder_sublist hf hclosed h).subset ?_
    rw [preorder_eq hf hclosed hx]
    exact List.mem_cons_self

theorem self_mem_preorder {f : File} (hf : f.Acyclic) (hclosed : f.Closed) {id : NodeId}
    (hid : id < f.nodes.size) : id ∈ f.preorder id :=
  (mem_preorder_iff hf hclosed hid).mpr .refl

theorem mem_preorder_of_below {f : File} (hf : f.Acyclic) (hclosed : f.Closed) {id a b : NodeId}
    (hid : id < f.nodes.size) (ha : a ∈ f.preorder id) (hbelow : f.Below a b) :
    b ∈ f.preorder id := by
  rw [mem_preorder_iff hf hclosed hid] at ha ⊢
  exact ha.tail hbelow

end PipelineScripts.Yaml.File
