import PipelineScripts.Proofs.TreeVisits

/-!
# Paths of nodes

A node's path says where it stands: an item has its index behind the path of the sequence, an entry
and its value have the key behind the path of the mapping, and a key has the path of the mapping. A
tag and an anchor have the path of what they are set around.
-/
namespace PipelineScripts.Yaml

namespace File

open TreeBuilder

/-- An entry of a mapping has its key behind the path of the mapping. -/
def EntryAt (f : File) (path : String) (entry : NodeId) : Prop :=
  ∃ key value comments, f.kind? entry = some (.entry key value comments) ∧ f.path key = path ∧
    f.path entry = childPath path ((f.scalarText? key).getD "")

/-- What stands below a node has its place in its path, and a tag is set around nothing but the
content of a node. -/
def FitsBelow (f : File) (path : String) : NodeKind → Prop
  | .sequence items _ => ∀ i item, items[i]? = some item → f.path item = itemPath path i
  | .mapping entries => ∀ entry ∈ entries, f.EntryAt path entry
  | .entry _ value _ => f.path value = path
  | .tagged _ value => f.path value = path ∧
      ∃ k, f.kind? value = some k ∧ k.isContent = true ∧ k.isBare = true
  | .anchor _ value => f.path value = path
  | .scalar .. | .block .. | .aliasOf _ => True

theorem FitsBelow.of_like {f : File} {path : String} {k k' : NodeKind} (h : f.FitsBelow path k)
    (hlike : k.Like k') : f.FitsBelow path k' := by
  cases k with
  | entry | sequence =>
    obtain ⟨comments, rfl⟩ := hlike
    exact h
  | _ => rwa [show k' = _ from hlike]

/-- The nodes of a builder stand in a file with their paths. -/
structure Carries (f : File) (nodes : Array Node) : Prop where
  holds : f.Holds nodes
  path : ∀ i n, nodes[i]? = some n → f.path i = n.path

theorem Carries.of_keeps {f : File} {nodes nodes' : Array Node} (h : f.Carries nodes')
    (hkeeps : Keeps nodes nodes') : f.Carries nodes :=
  ⟨h.holds.of_keeps hkeeps, fun i n hn => h.path i n (hkeeps i n hn)⟩

variable {f : File}

/-- The text of a key is the same while the tree is built. -/
theorem Holds.scalarTextWithin (hf : f.Shaped) {nodes : Array Node} (h : f.Holds nodes) {g : File}
    (hg : g.nodes = nodes) {fuel fuel' id : Nat} (hid : id < nodes.size) (hfuel : id < fuel)
    (hfuel' : id < fuel') : g.scalarTextWithin fuel id = f.scalarTextWithin fuel' id := by
  induction fuel generalizing fuel' id with
  | zero => omega
  | succ fuel ih =>
    obtain ⟨fuel', rfl⟩ : ∃ n, fuel' = n + 1 := ⟨fuel' - 1, by omega⟩
    have hn := Array.getElem?_eq_getElem hid
    obtain ⟨k, hk, hlike⟩ := h id _ hn
    have hk' : g.kind? id = some nodes[id].kind := by rw [kind?, node?, hg, hn]; rfl
    rw [File.scalarTextWithin, File.scalarTextWithin, hk, hk']
    have hstep : ∀ child : Nat, child ∈ k.children →
        g.scalarTextWithin fuel child = f.scalarTextWithin fuel' child := by
      intro child hchild
      have hlt : child < id := hf.child_lt (by simpa [Below, children_of_kind? hk] using hchild)
      exact ih (by omega) (by omega) (by omega)
    cases hkind : nodes[id].kind with
    | tagged tag value | anchor tag value =>
      rw [hkind] at hlike
      obtain rfl : k = _ := hlike
      exact hstep value (by simp [NodeKind.children])
    | entry | sequence =>
      rw [hkind] at hlike
      obtain ⟨comments, rfl⟩ := hlike
      rfl
    | scalar | block | mapping | aliasOf =>
      rw [hkind] at hlike
      obtain rfl : k = _ := hlike
      rfl

theorem Holds.keyText (hf : f.Shaped) {b : TreeBuilder} (h : f.Holds b.nodes) {id : Nat}
    (hid : id < b.nodes.size) : b.keyText id = (f.scalarText? id).getD "" := by
  obtain ⟨k, hk, -⟩ := h id _ (Array.getElem?_eq_getElem hid)
  rw [TreeBuilder.keyText, File.scalarText?, File.scalarText?,
    h.scalarTextWithin hf rfl hid hid (lt_size_of_kind? hk)]

/-! ### What is built fits -/

/-- The nodes that were added fit. -/
def FitFrom (f : File) (first : Nat) (b : TreeBuilder) : Prop :=
  ∀ x k, first ≤ x → x < b.nodes.size → f.kind? x = some k → f.FitsBelow (f.path x) k

/-- A node was built at a path, and all that was added with it fits. -/
structure BuiltAt (f : File) (first : Nat) (path : String) (id : NodeId) (b : TreeBuilder) :
    Prop where
  fit : f.FitFrom first b
  path : f.path id = path

variable {s : TreeSource} {first : Nat} {b b₁ b' : TreeBuilder} {id inner content : NodeId}
  {kind : NodeKind} {position : Position} {path : String}

theorem FitFrom.refl (f : File) (b : TreeBuilder) : f.FitFrom b.nodes.size b :=
  fun _ _ hfirst hlt => absurd hfirst (Nat.not_le.mpr hlt)

theorem FitFrom.of_next {length : Nat} (h : f.FitFrom (b.next length).nodes.size b') :
    f.FitFrom b.nodes.size b' := by
  rwa [nodes_next] at h

theorem FitFrom.append (h : f.FitFrom first b₁) (h' : f.FitFrom b₁.nodes.size b') :
    f.FitFrom first b' := fun x k hfirst hlt hk =>
  (Nat.lt_or_ge x b₁.nodes.size).elim (fun hx => h x k hfirst hx hk) fun hx => h' x k hx hlt hk

theorem FitFrom.push (h : f.FitFrom first b) (hpush : b.push kind position path = (id, b'))
    (hcarries : f.Carries b'.nodes) (hfits : f.FitsBelow path kind) :
    f.BuiltAt first path id b' := by
  obtain ⟨hid, hsize, hn⟩ := getElem?_of_push hpush
  have hpath : f.path id = path := hcarries.path id _ hn
  refine ⟨fun x k hfirst hlt hk => ?_, hpath⟩
  rcases Nat.lt_or_ge x b.nodes.size with hx | hx
  · exact h x k hfirst hx hk
  · obtain rfl : x = id := by omega
    obtain ⟨k', hk', hlike⟩ := hcarries.holds x _ hn
    cases hk.symm.trans hk'
    rw [hpath]
    exact hfits.of_like hlike

theorem BuiltAt.setsAround (h : f.BuiltAt first path inner b) {kind : String → NodeKind}
    {wanted : Prop} {found : Option String}
    (hset : SetsAround b kind position path wanted found inner id b')
    (hcarries : f.Carries b'.nodes) (hfits : ∀ name, f.FitsBelow path (kind name)) :
    f.BuiltAt first path id b' := by
  cases hset with
  | set _ _ hpush => exact h.fit.push hpush hcarries (hfits _)
  | leave => exact h

theorem BuiltAt.wrap (h : f.BuiltAt first path content b) {p : Properties} {from_ to_ : Nat}
    (hwrap : TreeBuilder.wrap s b content p from_ to_ position path = (id, b'))
    (hcarries : f.Carries b'.nodes)
    (hcontent : ∃ k, f.kind? content = some k ∧ k.isContent = true ∧ k.isBare = true) :
    f.BuiltAt first path id b' := by
  obtain ⟨tagged, b₁, htag, hanchor⟩ := setsAround_of_wrap hwrap rfl
  have htagged := h.setsAround htag (hcarries.of_keeps hanchor.adds.nodes)
    fun _ => ⟨h.path, hcontent⟩
  exact htagged.setsAround hanchor hcarries fun _ => htagged.path

theorem FitFrom.pushScalar (h : f.FitFrom first b) {form : ScalarForm} {text : List Char}
    {span : Span} (hpush : TreeBuilder.pushScalar s b form text span path = (id, b'))
    (hcarries : f.Carries b'.nodes) : f.BuiltAt first path id b' ∧
      ∃ k, f.kind? id = some k ∧ k.isContent = true ∧ k.isBare = true := by
  cases form with
  | plain =>
    obtain ⟨k, hk, rfl⟩ := hcarries.holds _ _ (getElem?_of_push hpush).2.2
    exact ⟨h.push hpush hcarries trivial, _, hk, rfl, rfl⟩
  | single | double | literal | folded =>
    obtain ⟨k, hk, rfl⟩ := hcarries.holds _ _ (getElem?_of_push hpush).2.2
    exact ⟨FitFrom.push (b := b.addContent _ _) h hpush hcarries trivial, _, hk, rfl, rfl⟩

variable {depth : Nat}

end File

end PipelineScripts.Yaml
