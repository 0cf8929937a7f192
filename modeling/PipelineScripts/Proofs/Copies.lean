import Mathlib.Data.Set.Function
import PipelineScripts.Proofs.Depth
import PipelineScripts.Script.Expansion

/-!
# Copies of trees

The nodes of a tree may stand in another file under other numbers, with other documents around them.
What is read off the tree, such as the key of an entry or the keys of a reference, is the same
there, since no walk down a tree leaves it.
-/
namespace PipelineScripts.Script

/-- A fragment of a file that was put behind `source` sources. -/
def Fragment.moved (source : Nat) (x : Fragment) : Fragment :=
  { x with source := x.source + source }

@[simp] theorem Fragment.moved_zero : Fragment.moved 0 = id := rfl

end PipelineScripts.Script

namespace PipelineScripts.Yaml

/-- A node of a file whose nodes got other numbers, and whose sources were put behind `source`
others. -/
def Node.renamed (φ : NodeId → NodeId) (source : Nat) (n : Node) : Node :=
  { n with kind := n.kind.mapChildren φ, source := n.source + source }

@[simp] theorem NodeKind.mapChildren_id (k : NodeKind) : k.mapChildren id = k := by
  cases k <;> simp [mapChildren]

@[simp] theorem Node.renamed_id : Node.renamed id 0 = id := by
  funext n
  simp [renamed]

namespace File

/-- The nodes of `f` that are in `T` stand in `F`, too, under other numbers. With each node all
nodes below it are in `T`. -/
structure CopiesNodes (f F : File) (φ : NodeId → NodeId) (source : Nat) (T : Set NodeId) :
    Prop where
  acyclic : f.Acyclic
  acyclic_copy : F.Acyclic
  child_mem : ∀ {a b : NodeId}, a ∈ T → f.Below a b → b ∈ T
  node : ∀ a ∈ T, F.node? (φ a) = (f.node? a).map (Node.renamed φ source)

namespace CopiesNodes

variable {f F : File} {φ : NodeId → NodeId} {source : Nat} {T : Set NodeId} {a : NodeId}

theorem kind? (h : f.CopiesNodes F φ source T) (ha : a ∈ T) :
    F.kind? (φ a) = (f.kind? a).map (NodeKind.mapChildren φ) := by
  simp only [File.kind?, h.node a ha, Option.map_map]
  rfl

theorem child_mem_of_kind? (h : f.CopiesNodes F φ source T) (ha : a ∈ T) {k : NodeKind}
    (hk : f.kind? a = some k) {child : NodeId} (hchild : child ∈ k.children) : child ∈ T :=
  h.child_mem ha (by simpa [File.Below, File.children_of_kind? hk] using hchild)

theorem path (h : f.CopiesNodes F φ source T) (ha : a ∈ T) : F.path (φ a) = f.path a := by
  simp only [File.path, h.node a ha, Option.map_map]
  rfl

theorem line (h : f.CopiesNodes F φ source T) (ha : a ∈ T) : F.line (φ a) = f.line a := by
  simp only [File.line, h.node a ha, Option.map_map]
  rfl

theorem sourceOf (h : f.CopiesNodes F φ source T) (ha : a ∈ T) {k : NodeKind}
    (hk : f.kind? a = some k) : F.sourceOf (φ a) = f.sourceOf a + source := by
  obtain ⟨n, hn, -⟩ := Option.map_eq_some_iff.mp hk
  simp [File.sourceOf, h.node a ha, hn, Node.renamed]

theorem children (h : f.CopiesNodes F φ source T) (ha : a ∈ T) :
    F.children (φ a) = (f.children a).map φ := by
  simp only [File.children, h.kind? ha]
  cases f.kind? a <;> simp

theorem entryComments (h : f.CopiesNodes F φ source T) (ha : a ∈ T) :
    F.entryComments (φ a) = f.entryComments a := by
  unfold File.entryComments
  rw [h.kind? ha]
  cases f.kind? a with
  | none => rfl
  | some k => cases k <;> rfl

/-- A tree is walked through in the same order. -/
theorem preorder (h : f.CopiesNodes F φ source T) (hclosed : f.Closed) (hclosed' : F.Closed)
    (ha : a ∈ T) (hsize : a < f.nodes.size) : F.preorder (φ a) = (f.preorder a).map φ := by
  induction hheight : f.height a using Nat.strong_induction_on generalizing a with
  | _ n ih =>
    have hcopy : φ a < F.nodes.size := by
      have hcopied := h.node a ha
      rw [File.node?, File.node?, Array.getElem?_eq_getElem hsize] at hcopied
      exact (Array.getElem?_eq_some_iff.mp hcopied).1
    rw [preorder_eq h.acyclic_copy hclosed' hcopy, preorder_eq h.acyclic hclosed hsize,
      h.children ha, List.flatMap_map, List.map_cons, List.map_flatMap]
    congr 1
    refine List.flatMap_congr fun child hchild => ?_
    have hlt := height_lt h.acyclic hchild
    exact ih _ (hheight ▸ hlt) (h.child_mem ha hchild) (hclosed hchild) rfl

theorem scalarTextWithin (h : f.CopiesNodes F φ source T) {fuel fuel' : Nat} (ha : a ∈ T)
    (hfuel : f.height a ≤ fuel) (hfuel' : F.height (φ a) ≤ fuel') :
    F.scalarTextWithin fuel' (φ a) = f.scalarTextWithin fuel a := by
  have hkind := h.kind? ha
  induction fuel generalizing fuel' a with
  | zero =>
    have hnone : f.kind? a = none := by
      by_contra hsome
      obtain ⟨k, hk⟩ := Option.ne_none_iff_exists'.mp hsome
      have hpos := height_pos (lt_size_of_kind? hk)
      omega
    cases fuel' <;> simp [File.scalarTextWithin, hkind, hnone]
  | succ fuel ih =>
    cases hk : f.kind? a with
    | none => cases fuel' <;> simp [File.scalarTextWithin, hkind, hk]
    | some k =>
      rw [hk, Option.map_some] at hkind
      have hpos := height_pos (lt_size_of_kind? hkind)
      obtain ⟨fuel', rfl⟩ : ∃ n, fuel' = n + 1 := ⟨fuel' - 1, by omega⟩
      rw [File.scalarTextWithin, File.scalarTextWithin, hkind, hk]
      have hstep : ∀ value : NodeId, value ∈ k.children →
          F.scalarTextWithin fuel' (φ value) = f.scalarTextWithin fuel value := by
        intro value hvalue
        have hbelow : f.Below a value := by simpa [File.Below, children_of_kind? hk] using hvalue
        have hcopy : F.Below (φ a) (φ value) := by
          rw [File.Below, h.children ha]
          exact List.mem_map_of_mem hbelow
        have hlt := height_lt h.acyclic hbelow
        have hlt' := height_lt h.acyclic_copy hcopy
        have hmem := h.child_mem ha hbelow
        exact ih hmem (by omega) (by omega) (h.kind? hmem)
      cases k with
      | tagged tag value => exact hstep value (by simp [NodeKind.children])
      | anchor name value => exact hstep value (by simp [NodeKind.children])
      | scalar _ _ | block _ _ _ | sequence _ _ | mapping _ | entry _ _ _ | aliasOf _ => rfl

theorem scalarText? (h : f.CopiesNodes F φ source T) (ha : a ∈ T) :
    F.scalarText? (φ a) = f.scalarText? a :=
  h.scalarTextWithin ha (f.height_le a) (F.height_le (φ a))

theorem entryKey? (h : f.CopiesNodes F φ source T) (ha : a ∈ T) :
    F.entryKey? (φ a) = f.entryKey? a := by
  unfold File.entryKey?
  rw [h.kind? ha]
  cases hk : f.kind? a with
  | none => rfl
  | some k =>
    cases k with
    | entry key value comments =>
      exact h.scalarText? (h.child_mem_of_kind? ha hk (by simp [NodeKind.children]))
    | scalar _ _ | block _ _ _ | sequence _ _ | mapping _ | tagged _ _ | anchor _ _ | aliasOf _ =>
      rfl

theorem mapM_scalarText? (h : f.CopiesNodes F φ source T) {items : List NodeId}
    (hitems : ∀ item ∈ items, item ∈ T) :
    (items.map φ).mapM F.scalarText? = items.mapM f.scalarText? := by
  induction items with
  | nil => rfl
  | cons item rest ih =>
    have hrest := ih fun x hx => hitems x (List.mem_cons_of_mem item hx)
    rw [List.map_cons, List.mapM_cons, List.mapM_cons, hrest, h.scalarText? (hitems item (by simp))]

theorem referencePath? (h : f.CopiesNodes F φ source T) (ha : a ∈ T) :
    Script.referencePath? F (φ a) = Script.referencePath? f a := by
  unfold Script.referencePath?
  rw [h.kind? ha]
  cases hk : f.kind? a with
  | none => rfl
  | some k =>
    cases k with
    | tagged tag value =>
      have hvalue : value ∈ T := h.child_mem_of_kind? ha hk (by simp [NodeKind.children])
      simp only [Option.map_some, NodeKind.mapChildren, h.kind? hvalue]
      split_ifs
      · cases hkv : f.kind? value with
        | none => rfl
        | some kv =>
          cases kv with
          | sequence items comments =>
            exact h.mapM_scalarText? fun item hitem => h.child_mem_of_kind? hvalue hkv hitem
          | scalar _ _ | block _ _ _ | mapping _ | entry _ _ _ | tagged _ _ | anchor _ _
          | aliasOf _ => rfl
      · rfl
    | scalar _ _ | block _ _ _ | sequence _ _ | mapping _ | entry _ _ _ | anchor _ _ | aliasOf _ =>
      rfl

theorem leafFragment? (h : f.CopiesNodes F φ source T) (d : Option Script.Directive) (ha : a ∈ T) :
    Script.leafFragment? F (φ a) d =
      (Script.leafFragment? f a d).map (Script.Fragment.moved source) := by
  unfold Script.leafFragment?
  rw [h.kind? ha, h.line ha]
  cases hk : f.kind? a with
  | none => rfl
  | some k =>
    rw [h.sourceOf ha hk]
    cases k <;> rfl

end CopiesNodes

end File

end PipelineScripts.Yaml
