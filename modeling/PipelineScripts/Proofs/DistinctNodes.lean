import PipelineScripts.Proofs.TreeShape

/-!
# Distinct nodes

The builder only adds nodes, and what stands below a part is added with that part. So the trees of
a file have all their nodes once.
-/
namespace PipelineScripts.Yaml

/-- The same but for comments. -/
def NodeKind.Like : NodeKind → NodeKind → Prop
  | .entry key value _, k => ∃ comments, k = .entry key value comments
  | .sequence items _, k => ∃ comments, k = .sequence items comments
  | k, k' => k' = k

theorem NodeKind.Like.children {k k' : NodeKind} (h : k.Like k') : k'.children = k.children := by
  cases k with
  | entry key value comments | sequence items comments =>
    obtain ⟨comments', rfl⟩ := h
    rfl
  | _ => rw [show k' = _ from h]

namespace TreeBuilder

/-- The nodes there were are still there. -/
def Keeps (nodes nodes' : Array Node) : Prop :=
  ∀ (i : Nat) (n : Node), nodes[i]? = some n → nodes'[i]? = some n

theorem Keeps.size_le {nodes nodes' : Array Node} (h : Keeps nodes nodes') :
    nodes.size ≤ nodes'.size := by
  by_contra hlt
  have hlast := h _ _ (@Array.getElem?_eq_getElem _ nodes _ (Nat.lt_of_not_le hlt))
  simp at hlast

theorem Keeps.trans {nodes nodes' nodes'' : Array Node} (h : Keeps nodes nodes')
    (h' : Keeps nodes' nodes'') : Keeps nodes nodes'' := fun i n hn => h' i n (h i n hn)

theorem keeps_push (nodes : Array Node) (n : Node) : Keeps nodes (nodes.push n) := by
  intro i m hm
  have hlt := (Array.getElem?_eq_some_iff.mp hm).1
  rw [Array.getElem?_push, if_neg (Nat.ne_of_lt hlt), hm]

/-- Nodes were added, and nothing was read. -/
structure Adds (b b' : TreeBuilder) : Prop where
  events : b'.events = b.events
  stop : b'.stop = b.stop
  nodes : Keeps b.nodes b'.nodes

namespace Adds

variable {b b₁ b' : TreeBuilder} {id : NodeId}

theorem refl (b : TreeBuilder) : b.Adds b := ⟨rfl, rfl, fun _ _ hn => hn⟩

theorem trans (h : b.Adds b₁) (h' : b₁.Adds b') : b.Adds b' :=
  ⟨h'.events.trans h.events, h'.stop.trans h.stop, h.nodes.trans h'.nodes⟩

end Adds

variable {s : TreeSource} {b b₁ b' : TreeBuilder} {id content : NodeId} {kind : NodeKind}
  {position : Position} {path : String}

theorem adds_push (h : b.push kind position path = (id, b')) : b.Adds b' := by
  cases h
  exact ⟨rfl, rfl, keeps_push _ _⟩

/-- What was added last. -/
theorem getElem?_of_push (h : b.push kind position path = (id, b')) :
    b.nodes.size = id ∧ b'.nodes.size = id + 1 ∧
      b'.nodes[id]? = some ⟨kind, position, path, 0⟩ := by
  cases h
  simp

theorem SetsAround.adds {kind : String → NodeKind} {wanted : Prop} {found : Option String}
    {inner : NodeId} (h : SetsAround b kind position path wanted found inner id b') :
    b.Adds b' := by
  cases h with
  | set _ _ hpush => exact adds_push hpush
  | leave => exact .refl b

theorem adds_wrap {p : Properties} {from_ to_ : Nat}
    (h : wrap s b content p from_ to_ position path = (id, b')) : b.Adds b' := by
  obtain ⟨tagged, b₁, htag, hanchor⟩ := setsAround_of_wrap h rfl
  exact htag.adds.trans hanchor.adds

theorem adds_pushScalar {form : ScalarForm} {text : List Char} {span : Span}
    (h : pushScalar s b form text span path = (id, b')) : b.Adds b' := by
  cases form <;>
  · cases h
    exact ⟨rfl, rfl, keeps_push _ _⟩

/-- A scalar is added last. -/
theorem getElem?_of_pushScalar {form : ScalarForm} {text : List Char} {span : Span}
    (h : pushScalar s b form text span path = (id, b')) :
    b.nodes.size = id ∧ b'.nodes.size = id + 1 ∧ ∃ n, b'.nodes[id]? = some n ∧
      ((∃ style, n.kind = .scalar (String.ofList text) style) ∨
        ∃ folded raw, n.kind = .block folded (String.ofList text) raw) := by
  cases form with
  | plain | single | double =>
    obtain ⟨hid, hsize, hn⟩ := getElem?_of_push h
    exact ⟨hid, hsize, _, hn, .inl ⟨_, rfl⟩⟩
  | literal | folded =>
    obtain ⟨hid, hsize, hn⟩ := getElem?_of_push h
    exact ⟨hid, hsize, _, hn, .inr ⟨_, _, rfl⟩⟩

/-- A node that is set around another one is among the nodes if that one is. -/
theorem SetsAround.isSome {kind : String → NodeKind} {position : Position} {path : String}
    {wanted : Prop} {found : Option String} {inner : NodeId}
    (h : SetsAround b kind position path wanted found inner id b')
    (hinner : (b.nodes[inner]?).isSome = true) : (b'.nodes[id]?).isSome = true := by
  cases h with
  | set _ _ hpush => exact Option.isSome_of_eq_some (getElem?_of_push hpush).2.2
  | leave => exact hinner

theorem isSome_of_wrap {content : NodeId} {p : Properties} {from_ to_ : Nat} {position : Position}
    {path : String} (h : wrap s b content p from_ to_ position path = (id, b'))
    (hcontent : (b.nodes[content]?).isSome = true) : (b'.nodes[id]?).isSome = true := by
  obtain ⟨tagged, b₁, htag, hanchor⟩ := setsAround_of_wrap h rfl
  exact hanchor.isSome (htag.isSome hcontent)

/-- The node that a run builds is among its nodes. -/
theorem isSome_of_builds (h : Builds s b (.node id) b') : (b'.nodes[id]?).isSome = true := by
  cases h with
  | aliasOf _ _ hpush | placeholder _ _ _ hpush =>
    exact Option.isSome_of_eq_some (getElem?_of_push hpush).2.2
  | scalar _ _ _ hpush hwrap =>
    obtain ⟨-, -, n, hn, -⟩ := getElem?_of_pushScalar hpush
    exact isSome_of_wrap hwrap (Option.isSome_of_eq_some hn)
  | sequence _ _ _ hpush hwrap | mapping _ _ _ hpush hwrap =>
    exact isSome_of_wrap hwrap (Option.isSome_of_eq_some (getElem?_of_push hpush).2.2)

/-- A run only adds nodes. -/
theorem keeps_of_builds {part : Part} (h : Builds s b part b') : Keeps b.nodes b'.nodes := by
  have hnext : ∀ {b b' : TreeBuilder} {length : Nat}, Keeps (b.next length).nodes b'.nodes →
      Keeps b.nodes b'.nodes := fun {b b' length} h => nodes_next b length ▸ h
  induction h with
  | aliasOf _ _ hpush | placeholder _ _ _ hpush => exact hnext (adds_push hpush).nodes
  | scalar _ _ _ hpush hwrap =>
    exact hnext ((adds_pushScalar hpush).trans (adds_wrap hwrap)).nodes
  | sequence _ _ _ hpush hwrap ih | mapping _ _ _ hpush hwrap ih =>
    exact hnext (ih.trans ((adds_push hpush).trans (adds_wrap hwrap)).nodes)
  | noItem | noEntry => exact hnext fun _ _ hn => hn
  | item _ _ ih ihs => exact ih.trans ihs
  | entry _ _ hpush _ ihkey ihvalue ihentries =>
    exact ((ihkey.trans ihvalue).trans (adds_push hpush).nodes).trans ihentries

end TreeBuilder

namespace File

variable {f : File} {s : TreeSource}

open TreeBuilder

/-- A node comes first, and then what is below it. -/
theorem Shaped.preorder_of_kind? (hf : f.Shaped) {id : NodeId} {k : NodeKind}
    (hk : f.kind? id = some k) : f.preorder id = id :: k.children.flatMap f.preorder := by
  rw [preorder_eq hf.acyclic hf.closed (lt_size_of_kind? hk), children_of_kind? hk]

/-- The nodes of a builder are those of a file but for comments. -/
def Holds (f : File) (nodes : Array Node) : Prop :=
  ∀ i n, nodes[i]? = some n → ∃ k, f.kind? i = some k ∧ n.kind.Like k

theorem Holds.of_keeps {nodes nodes' : Array Node} (h : f.Holds nodes')
    (hkeeps : Keeps nodes nodes') : f.Holds nodes := fun i n hn => h i n (hkeeps i n hn)

/-- Comments are attached to nodes without any other change. -/
theorem holds_of_attachComments {f : File} {nodes : Array Node} {comments : SourceComments}
    (hf : f.nodes = TreeBuilder.attachComments nodes comments) : f.Holds nodes := by
  intro i n hn
  have hnode : f.node? i =
      (TreeBuilder.attachComments nodes comments)[i]? := by rw [node?, hf]
  rw [TreeBuilder.attachComments, Array.getElem?_map, hn, Option.map_some] at hnode
  rw [kind?, hnode]
  dsimp only
  split
  next hk => exact ⟨_, rfl, by rw [hk]; exact ⟨_, rfl⟩⟩
  next hk => exact ⟨_, rfl, by rw [hk]; exact ⟨_, rfl⟩⟩
  next hentry hsequence =>
    refine ⟨_, rfl, ?_⟩
    cases hk : n.kind with
    | entry key value comments => exact absurd hk (hentry key value comments)
    | sequence items comments => exact absurd hk (hsequence items comments)
    | _ => exact hk

/-- What a part of a tree consists of, in document order. -/
def partNodes (f : File) : Part → List NodeId
  | .node id => f.preorder id
  | .items ids | .entries ids => ids.flatMap f.preorder

/-- Some nodes were added, each of them once, and no others. -/
structure Spans (b b' : TreeBuilder) (ids : List NodeId) : Prop where
  nodes : Keeps b.nodes b'.nodes
  nodup : ids.Nodup
  bounds : ∀ id : Nat, id ∈ ids → b.nodes.size ≤ id ∧ id < b'.nodes.size
  size : b'.nodes.size = b.nodes.size + ids.length

namespace Spans

variable {b b₁ b' : TreeBuilder} {ids ids' : List NodeId} {id : NodeId} {position : Position}
  {path : String}

theorem refl (b : TreeBuilder) : Spans b b [] :=
  ⟨fun _ _ hn => hn, List.nodup_nil, by simp, rfl⟩

theorem of_next {length : Nat} (h : Spans (b.next length) b' ids) : Spans b b' ids := by
  have hnodes := nodes_next b length
  exact ⟨hnodes ▸ h.nodes, h.nodup, hnodes ▸ h.bounds, hnodes ▸ h.size⟩

theorem append (h : Spans b b₁ ids) (h' : Spans b₁ b' ids') : Spans b b' (ids ++ ids') where
  nodes := fun i n hn => h'.nodes i n (h.nodes i n hn)
  nodup := by
    refine h.nodup.append h'.nodup fun id hid hid' => ?_
    have hbounds := h.bounds id hid
    have hbounds' := h'.bounds id hid'
    omega
  bounds := by
    intro id hid
    have hsize := h.nodes.size_le
    have hsize' := h'.nodes.size_le
    rcases List.mem_append.mp hid with hid | hid
    · have hbounds := h.bounds id hid
      omega
    · have hbounds := h'.bounds id hid
      omega
  size := by rw [h'.size, h.size, List.length_append, Nat.add_assoc]

/-- What is added last stands above the rest. -/
theorem add (h : Spans b b₁ ids) (hadds : b₁.Adds b') (hid : b₁.nodes.size = id)
    (hsize : b'.nodes.size = id + 1) : Spans b b' (id :: ids) where
  nodes := fun i n hn => hadds.nodes i n (h.nodes i n hn)
  nodup := by
    refine List.nodup_cons.mpr ⟨fun hmem => ?_, h.nodup⟩
    have hbounds := h.bounds id hmem
    omega
  bounds := by
    intro x hx
    have hgrown := h.nodes.size_le
    rcases List.mem_cons.mp hx with rfl | hx
    · omega
    · have hbounds := h.bounds x hx
      omega
  size := by rw [hsize, ← hid, h.size, List.length_cons, Nat.add_assoc]

theorem push {kind : NodeKind} (h : Spans b b₁ ids)
    (hpush : b₁.push kind position path = (id, b')) : Spans b b' (id :: ids) := by
  obtain ⟨hid, hsize, -⟩ := getElem?_of_push hpush
  exact h.add (adds_push hpush) hid hsize

/-- A node stands before what it is set around. -/
theorem setsAround (hf : f.Shaped) {inner : NodeId} {kind : String → NodeKind} {wanted : Prop}
    {found : Option String} (h : Spans b b₁ (f.preorder inner))
    (hset : SetsAround b₁ kind position path wanted found inner id b') (hholds : f.Holds b'.nodes)
    (hkind : ∀ name, (kind name).children = [inner]) : Spans b b' (f.preorder id) := by
  cases hset with
  | @set name _ _ _ _ hpush =>
    obtain ⟨-, -, hn⟩ := getElem?_of_push hpush
    obtain ⟨k, hk, hlike⟩ := hholds id _ hn
    rw [hf.preorder_of_kind? hk, hlike.children, hkind name, List.flatMap_singleton]
    exact h.push hpush
  | leave => exact h

theorem wrap (hf : f.Shaped) {content : NodeId} {p : Properties} {from_ to_ : Nat}
    (h : Spans b b₁ (f.preorder content))
    (hwrap : TreeBuilder.wrap s b₁ content p from_ to_ position path = (id, b'))
    (hholds : f.Holds b'.nodes) : Spans b b' (f.preorder id) := by
  obtain ⟨tagged, b₂, htag, hanchor⟩ := setsAround_of_wrap hwrap rfl
  have htagged := h.setsAround hf htag (hholds.of_keeps hanchor.adds.nodes) fun _ => rfl
  exact htagged.setsAround hf hanchor hholds fun _ => rfl

end Spans

/-- What is built for a part has all its nodes once. -/
theorem spans_of_builds (hf : f.Shaped) {b b' : TreeBuilder} {part : Part}
    (h : Builds s b part b') (hholds : f.Holds b'.nodes) : Spans b b' (f.partNodes part) := by
  have hbelow : ∀ {b₁ : TreeBuilder} {n : Node} {id : Nat}, f.Holds b₁.nodes →
      b₁.nodes[id]? = some n → f.preorder id = id :: n.kind.children.flatMap f.preorder := by
    intro b₁ n id hholds hn
    obtain ⟨k, hk, hlike⟩ := hholds id n hn
    rw [hf.preorder_of_kind? hk, hlike.children]
  induction h with
  | aliasOf _ _ hpush | placeholder _ _ _ hpush =>
    have hspans := (Spans.refl _).push hpush
    rw [partNodes, hbelow hholds (getElem?_of_push hpush).2.2]
    exact hspans.of_next
  | scalar _ _ _ hpush hwrap =>
    obtain ⟨hid, hsize, n, hn, hscalar⟩ := getElem?_of_pushScalar hpush
    have hspans := (Spans.refl _).add (adds_pushScalar hpush) hid hsize
    have hleaf : n.kind.children = [] := by
      obtain ⟨style, hk⟩ | ⟨folded, raw, hk⟩ := hscalar <;> rw [hk] <;> rfl
    have hcontent := hbelow (hholds.of_keeps (adds_wrap hwrap).nodes) hn
    rw [hleaf] at hcontent
    exact Spans.of_next (Spans.wrap hf (hcontent ▸ hspans) hwrap hholds)
  | sequence _ _ _ hpush hwrap ih | mapping _ _ _ hpush hwrap ih =>
    have hkeeps := hholds.of_keeps (adds_wrap hwrap).nodes
    have hitems := ih (hkeeps.of_keeps (adds_push hpush).nodes)
    have hcontent := hbelow hkeeps (getElem?_of_push hpush).2.2
    exact Spans.of_next (Spans.wrap hf (hcontent ▸ hitems.push hpush) hwrap hholds)
  | noItem | noEntry => exact (Spans.refl _).of_next
  | item _ _ ih ihs =>
    have hitems := ihs hholds
    exact (ih (hholds.of_keeps hitems.nodes)).append hitems
  | entry _ _ hpush _ ihkey ihvalue ihentries =>
    have hentries := ihentries hholds
    have hpushed := hholds.of_keeps hentries.nodes
    have hvalue := ihvalue (hpushed.of_keeps (adds_push hpush).nodes)
    have hkey := ihkey ((hpushed.of_keeps (adds_push hpush).nodes).of_keeps hvalue.nodes)
    have hentry := hbelow hpushed (getElem?_of_push hpush).2.2
    simp only [NodeKind.children, List.flatMap_cons, List.flatMap_nil, List.append_nil] at hentry
    rw [partNodes, List.flatMap_cons, hentry]
    exact ((hkey.append hvalue).push hpush).append hentries

/-- So have all documents of a stream together. -/
theorem spans_of_buildsDocuments (hf : f.Shaped) {b b' : TreeBuilder}
    {documents : List (Option NodeId)} (h : BuildsDocuments s b documents b')
    (hholds : f.Holds b'.nodes) :
    Spans b b' ((documents.filterMap id).flatMap f.preorder) := by
  induction h with
  | none => exact .refl _
  | stop => exact (Spans.refl _).of_next
  | pass _ _ _ ih | empty _ _ _ ih => exact (ih hholds).of_next
  | document _ _ hroot _ ih =>
    have hrest := ih hholds
    have hfirst := spans_of_builds hf hroot (hholds.of_keeps hrest.nodes)
    exact hfirst.of_next.append hrest

/-- A file that was read has no node twice in its trees. -/
theorem nodup_of_read {keep : Bool} {name content : String} {f : File}
    (h : File.read keep name content = .ok f) : (f.roots.flatMap f.preorder).Nodup := by
  have hf := shaped_of_read h
  obtain ⟨source, events, aliases, documents, b, hb, rfl⟩ := exists_built_of_read h
  have hruns := buildsDocuments_of_documents? _ _ _ _ _ hb
  exact (spans_of_buildsDocuments hf hruns (holds_of_attachComments rfl)).nodup

end File

end PipelineScripts.Yaml
