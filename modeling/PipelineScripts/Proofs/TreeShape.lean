import PipelineScripts.Proofs.BuilderRuns
import PipelineScripts.Proofs.Depth
import PipelineScripts.Proofs.ReadFiles

/-!
# The shape of a file

A tree is built bottom up, so a node has a greater number than the nodes below it, and the trees of
two documents do not mix. An anchor is set around a finished node that is neither an anchor nor an
alias.
-/
namespace PipelineScripts.Yaml

/-- Neither an anchor nor an alias: what an anchor may stand before. -/
def NodeKind.isBare : NodeKind → Bool
  | anchor .. | aliasOf _ => false
  | _ => true

@[simp] theorem NodeKind.isBare_mapChildren (f : NodeId → NodeId) (k : NodeKind) :
    (k.mapChildren f).isBare = k.isBare := by
  cases k <;> rfl

/-! ### Building only adds -/

/-- A node may be added behind others, if only those from `first` on may stand below it. -/
structure Node.Fits (n : Node) (first : Nat) (nodes : Array Node) : Prop where
  children : ∀ child : Nat, child ∈ n.kind.children → first ≤ child ∧ child < nodes.size
  anchored : ∀ name value, n.kind = .anchor name value →
    ∃ v, nodes[value]? = some v ∧ v.kind.isBare = true
  source : n.source = 0

/-- Nodes were added, each above none but those added before it. -/
inductive Extends (before : Array Node) : Array Node → Prop
  | refl : Extends before before
  | push {nodes : Array Node} {n : Node} (h : Extends before nodes)
      (hfits : n.Fits before.size nodes) : Extends before (nodes.push n)

namespace Extends

variable {a b c : Array Node}

theorem size_le (h : Extends a b) : a.size ≤ b.size := by
  induction h with
  | refl => exact le_refl _
  | push _ _ ih =>
    rw [Array.size_push]
    omega

theorem trans (hab : Extends a b) (hbc : Extends b c) : Extends a c := by
  have hsize := hab.size_le
  induction hbc with
  | refl => exact hab
  | push _ hfits ih =>
    refine ih.push ⟨fun child hchild => ?_, hfits.anchored, hfits.source⟩
    have hbounds := hfits.children child hchild
    omega

/-- What was added fits to the nodes at the end. -/
theorem added (h : Extends a b) {i : Nat} {n : Node} (hi : a.size ≤ i) (hn : b[i]? = some n) :
    (∀ child : Nat, child ∈ n.kind.children → a.size ≤ child ∧ child < i) ∧
      (∀ name value, n.kind = .anchor name value →
        ∃ v, b[value]? = some v ∧ v.kind.isBare = true) ∧ n.source = 0 := by
  induction h with
  | refl =>
    have hlt := (Array.getElem?_eq_some_iff.mp hn).1
    omega
  | @push nodes m h hfits ih =>
    have hvalue : ∀ {value : Nat} {v : Node}, nodes[value]? = some v →
        (nodes.push m)[value]? = some v := by
      intro value v hv
      have hlt := (Array.getElem?_eq_some_iff.mp hv).1
      rw [Array.getElem?_push, if_neg (by omega), hv]
    rw [Array.getElem?_push] at hn
    split_ifs at hn with hlast
    · cases hn
      subst hlast
      refine ⟨hfits.children, fun name value hk => ?_, hfits.source⟩
      obtain ⟨v, hv, hbare⟩ := hfits.anchored name value hk
      exact ⟨v, hvalue hv, hbare⟩
    · obtain ⟨hchildren, hanchored, hsource⟩ := ih hn
      refine ⟨hchildren, fun name value hk => ?_, hsource⟩
      obtain ⟨v, hv, hbare⟩ := hanchored name value hk
      exact ⟨v, hvalue hv, hbare⟩

end Extends

namespace TreeBuilder

/-- The builder after a node was built: it comes last. -/
structure Built (before : Array Node) (id : NodeId) (b : TreeBuilder) : Prop where
  grown : Extends before b.nodes
  first_le : before.size ≤ id
  last : b.nodes.size = id + 1

/-- A node that has just been built and stands before no anchor yet. -/
structure BuiltBare (before : Array Node) (id : NodeId) (b : TreeBuilder) : Prop
    extends Built before id b where
  bare : ∃ n, b.nodes[id]? = some n ∧ n.kind.isBare = true

section Nodes

variable {before : Array Node} {b b' : TreeBuilder} {kind : NodeKind} {position : Position}
  {path : String} {id : NodeId}

/-- Adding a node above some that are new. -/
theorem built_of_push (hpush : b.push kind position path = (id, b')) (hb : Extends before b.nodes)
    (hchildren : ∀ child : Nat, child ∈ kind.children →
      before.size ≤ child ∧ child < b.nodes.size)
    (hanchored : ∀ name value, kind = .anchor name value →
      ∃ v, b.nodes[value]? = some v ∧ v.kind.isBare = true) : Built before id b' := by
  cases hpush
  exact ⟨hb.push ⟨hchildren, hanchored, rfl⟩, hb.size_le, by simp⟩

theorem builtBare_of_push (hpush : b.push kind position path = (id, b'))
    (hb : Extends before b.nodes)
    (hchildren : ∀ child : Nat, child ∈ kind.children →
      before.size ≤ child ∧ child < b.nodes.size)
    (hbare : kind.isBare = true) : BuiltBare before id b' where
  toBuilt := by
    refine built_of_push hpush hb hchildren fun name value hk => ?_
    simp [hk, NodeKind.isBare] at hbare
  bare := by
    cases hpush
    exact ⟨⟨kind, position, path, 0⟩, by simp, hbare⟩

theorem builtBare_of_pushScalar {s : TreeSource} {form : ScalarForm} {text : List Char}
    {span : Span}
    (hpush : pushScalar s b form text span path = (id, b')) (hb : Extends before b.nodes) :
    BuiltBare before id b' := by
  cases form <;>
    exact builtBare_of_push hpush (by simpa using hb) (by simp [NodeKind.children]) rfl

/-- A node that has just been built is a new one, and the only child of what is set around it. -/
theorem Built.bounds {inner : NodeId} (hb : Built before inner b) :
    ∀ child : Nat, child ∈ [inner] → before.size ≤ child ∧ child < b.nodes.size := by
  intro child hchild
  have hfirst := hb.first_le
  have hlast := hb.last
  rw [List.mem_singleton.mp hchild]
  omega

theorem BuiltBare.tag {inner : NodeId} {wanted : Prop} {found : Option String}
    (hb : BuiltBare before inner b)
    (h : SetsAround b (.tagged · inner) position path wanted found inner id b') :
    BuiltBare before id b' := by
  cases h with
  | set _ _ hpush => exact builtBare_of_push hpush hb.grown hb.bounds rfl
  | leave => exact hb

theorem BuiltBare.anchor {inner : NodeId} {wanted : Prop} {found : Option String}
    (hb : BuiltBare before inner b)
    (h : SetsAround b (.anchor · inner) position path wanted found inner id b') :
    Built before id b' := by
  cases h with
  | set _ _ hpush =>
    refine built_of_push hpush hb.grown hb.bounds fun _ _ heq => ?_
    cases heq
    exact hb.bare
  | leave => exact hb.toBuilt

/-- A tag is set around a node first, an anchor around both. -/
theorem built_of_wrap {content : NodeId} (hb : BuiltBare before content b) {s : TreeSource}
    {p : Properties} {from_ to_ : Nat} (h : wrap s b content p from_ to_ position path = (id, b')) :
    Built before id b' := by
  obtain ⟨tagged, b₁, htag, hanchor⟩ := setsAround_of_wrap h rfl
  exact (hb.tag htag).anchor hanchor

/-- The builder after several nodes were built. -/
structure BuiltAll (before : Array Node) (ids : List NodeId) (b : TreeBuilder) : Prop where
  grown : Extends before b.nodes
  bounds : ∀ id : Nat, id ∈ ids → before.size ≤ id ∧ id < b.nodes.size

theorem builtAll_nil (hb : Extends before b.nodes) : BuiltAll before [] b :=
  ⟨hb, by simp⟩

theorem builtAll_cons {ids : List NodeId} (hb : Built before id b)
    (hb' : BuiltAll b.nodes ids b') : BuiltAll before (id :: ids) b' := by
  refine ⟨hb.grown.trans hb'.grown, ?_⟩
  intro x hx
  have hfirst := hb.first_le
  have hlast := hb.last
  have hsize := hb'.grown.size_le
  rcases List.mem_cons.mp hx with rfl | hx
  · omega
  · have hbounds := hb'.bounds x hx
    omega

/-- An entry is added right behind its key and its value. -/
theorem built_entry {b₂ : TreeBuilder} {key value : NodeId} (hkey : Built before key b)
    (hvalue : Built b.nodes value b₂)
    (hpush : b₂.push (.entry key value []) position path = (id, b')) : Built before id b' := by
  have hall := builtAll_cons hkey (builtAll_cons hvalue (builtAll_nil .refl))
  exact built_of_push hpush hall.grown hall.bounds (by simp)

/-- The builder after a part of a tree was built. -/
def BuiltPart (before : Array Node) : Part → TreeBuilder → Prop
  | .node id, b => Built before id b
  | .items ids, b | .entries ids, b => BuiltAll before ids b

/-- A run of the builder adds nodes that stand above none but each other. -/
theorem Builds.built {s : TreeSource} {part : Part} (h : Builds s b part b') :
    BuiltPart b.nodes part b' := by
  have hnext : ∀ b : TreeBuilder, Extends b.nodes (b.next s.text.length).nodes := by
    intro b
    rw [nodes_next]
    exact .refl
  induction h with
  | aliasOf _ _ hpush | placeholder _ _ _ hpush =>
    exact built_of_push hpush (hnext _) (by simp [NodeKind.children]) (by simp)
  | scalar _ _ _ hpush hwrap =>
    exact built_of_wrap (builtBare_of_pushScalar hpush (hnext _)) hwrap
  | sequence _ _ _ hpush hwrap ih | mapping _ _ _ hpush hwrap ih =>
    rw [nodes_next] at ih
    exact built_of_wrap (builtBare_of_push hpush ih.grown ih.bounds rfl) hwrap
  | noItem | noEntry => exact builtAll_nil (hnext _)
  | item _ _ ih ihs => exact builtAll_cons ih ihs
  | entry _ _ hpush _ ihkey ihvalue ihentries =>
    exact builtAll_cons (built_entry ihkey ihvalue hpush) ihentries

end Nodes

/-- The builder after the documents with some roots were built: nothing below a later node is
below or at an earlier root. -/
structure BuiltDocuments (before : Array Node) (roots : List NodeId) (b : TreeBuilder) : Prop
    extends BuiltAll before roots b where
  ascending : roots.Pairwise (· < ·)
  separate : ∀ root : Nat, root ∈ roots → ∀ (i : Nat) (n : Node), root < i →
    b.nodes[i]? = some n → ∀ child : Nat, child ∈ n.kind.children → root < child

variable {before : Array Node} {b b' : TreeBuilder}

theorem builtDocuments_cons {root : Nat} {roots : List NodeId}
    (hb : Built before root b) (hb' : BuiltDocuments b.nodes roots b') :
    BuiltDocuments before (root :: roots) b' where
  toBuiltAll := builtAll_cons hb hb'.toBuiltAll
  ascending := by
    refine List.pairwise_cons.mpr ⟨fun (later : Nat) hlater => ?_, hb'.ascending⟩
    have hbounds := hb'.bounds later hlater
    have hlast := hb.last
    show root < later
    omega
  separate := by
    intro r hr i n hi hn child hchild
    rcases List.mem_cons.mp hr with rfl | hr
    · have hlast := hb.last
      have hadded := (hb'.grown.added (by omega) hn).1 child hchild
      omega
    · exact hb'.separate r hr i n hi hn child hchild

theorem builtDocuments_nil (hb : Extends before b.nodes) : BuiltDocuments before [] b :=
  ⟨builtAll_nil hb, List.Pairwise.nil, by simp⟩

/-- A run over documents builds the roots of those that are not empty. -/
theorem BuildsDocuments.built {s : TreeSource} {documents : List (Option NodeId)}
    (h : BuildsDocuments s b documents b') :
    BuiltDocuments b.nodes (documents.filterMap id) b' := by
  induction h with
  | none => exact builtDocuments_nil .refl
  | stop => exact builtDocuments_nil (by rw [nodes_next]; exact .refl)
  | pass _ _ _ ih | empty _ _ _ ih => rwa [nodes_next] at ih
  | document _ _ hroot _ ih =>
    have hbuilt := hroot.built
    rw [nodes_next] at hbuilt
    exact builtDocuments_cons hbuilt ih

end TreeBuilder

/-! ### Files -/

namespace File

/-- The roots of the documents that are not empty. -/
def roots (f : File) : List NodeId := f.documents.filterMap id

/-- Anchors stand before nodes that are neither anchors nor aliases. -/
def BareAnchors (f : File) : Prop :=
  ∀ ⦃id : NodeId⦄ ⦃name : String⦄ ⦃value : NodeId⦄,
    f.kind? id = some (.anchor name value) → ∃ k, f.kind? value = some k ∧ k.isBare = true

/-- What holds of every file that was read. -/
structure Shaped (f : File) : Prop where
  child_lt : ∀ {id child : Nat}, f.Below id child → child < id
  anchored : f.BareAnchors
  source_lt : ∀ {id : NodeId} {n : Node}, f.node? id = some n → n.source < f.sources.length
  root_lt : ∀ root : Nat, root ∈ f.roots → root < f.nodes.size
  ascending : f.roots.Pairwise (· < ·)
  separate : ∀ root : Nat, root ∈ f.roots →
    ∀ {id child : Nat}, root < id → f.Below id child → root < child

theorem Shaped.acyclic {f : File} (hf : f.Shaped) : f.Acyclic :=
  acyclic_of_rank (fun id => id) fun _ _ h => hf.child_lt h

theorem Shaped.closed {f : File} (hf : f.Shaped) : f.Closed := fun h =>
  Nat.lt_trans (hf.child_lt h) (lt_size_of_below h)

/-- Comments are attached to nodes without any other change. -/
theorem exists_of_getElem?_attachComments {nodes : Array Node} {comments : SourceComments}
    {i : Nat} {n' : Node} (h : (TreeBuilder.attachComments nodes comments)[i]? = some n') :
    ∃ n, nodes[i]? = some n ∧ n'.kind.children = n.kind.children ∧
      n'.kind.isBare = n.kind.isBare ∧ n'.source = n.source ∧
      ∀ name value, n'.kind = .anchor name value → n.kind = .anchor name value := by
  unfold TreeBuilder.attachComments at h
  rw [Array.getElem?_map] at h
  obtain ⟨n, hn, rfl⟩ := Option.map_eq_some_iff.mp h
  refine ⟨n, hn, ?_⟩
  dsimp only
  split
  next hk => simp [hk, NodeKind.children, NodeKind.isBare]
  next hk => simp [hk, NodeKind.children, NodeKind.isBare]
  next => simp

theorem exists_of_below_attachComments {nodes : Array Node} {comments : SourceComments}
    {f : File} (hf : f.nodes = TreeBuilder.attachComments nodes comments) {id child : NodeId}
    (h : f.Below id child) : ∃ n, nodes[id]? = some n ∧ child ∈ n.kind.children := by
  obtain ⟨k, hk, hchild⟩ := exists_kind?_of_below h
  obtain ⟨n', hn', rfl⟩ := Option.map_eq_some_iff.mp hk
  rw [node?, hf] at hn'
  obtain ⟨n, hn, hchildren, -⟩ := exists_of_getElem?_attachComments hn'
  exact ⟨n, hn, hchildren ▸ hchild⟩

theorem shaped_of_builtDocuments {f : File} {b : TreeBuilder} {comments : SourceComments}
    (hb : TreeBuilder.BuiltDocuments #[] f.roots b) (hsources : f.sources ≠ [])
    (hf : f.nodes = TreeBuilder.attachComments b.nodes comments) : f.Shaped where
  child_lt := by
    intro id child h
    obtain ⟨n, hn, hchild⟩ := exists_of_below_attachComments hf h
    exact ((hb.grown.added (Nat.zero_le _) hn).1 child hchild).2
  anchored := by
    intro id name value hk
    obtain ⟨n', hn', hanchor⟩ := Option.map_eq_some_iff.mp hk
    rw [node?, hf] at hn'
    obtain ⟨n, hn, -, -, -, hsame⟩ := exists_of_getElem?_attachComments hn'
    obtain ⟨v, hv, hbare⟩ := (hb.grown.added (Nat.zero_le _) hn).2.1 name value
      (hsame name value hanchor)
    have hlt : value < f.nodes.size := by
      have hlt := (Array.getElem?_eq_some_iff.mp hv).1
      simpa [hf, TreeBuilder.attachComments] using hlt
    obtain ⟨v', hv'⟩ : ∃ v', f.nodes[value]? = some v' := ⟨_, Array.getElem?_eq_getElem hlt⟩
    have hattached := hv'
    rw [hf] at hattached
    obtain ⟨w, hw, -, hbare', -⟩ := exists_of_getElem?_attachComments hattached
    rw [hv] at hw
    cases hw
    exact ⟨v'.kind, by simp [kind?, node?, hv'], hbare'.trans hbare⟩
  source_lt := by
    intro id n' hn'
    rw [node?, hf] at hn'
    obtain ⟨n, hn, -, -, hsource, -⟩ := exists_of_getElem?_attachComments hn'
    rw [hsource, (hb.grown.added (Nat.zero_le _) hn).2.2]
    exact List.length_pos_iff.mpr hsources
  root_lt := by
    intro root hroot
    have hbounds := hb.bounds root hroot
    simpa [hf, TreeBuilder.attachComments] using hbounds.2
  ascending := hb.ascending
  separate := by
    intro root hroot id child hid h
    obtain ⟨n, hn, hchild⟩ := exists_of_below_attachComments hf h
    exact hb.separate root hroot id n hid hn child hchild

/-- Every file that was read has the shape of a tree for each document. -/
theorem shaped_of_read {keep : Bool} {name content : String} {f : File}
    (h : File.read keep name content = .ok f) : f.Shaped := by
  obtain ⟨source, events, aliases, documents, b, hb, rfl⟩ := exists_built_of_read h
  have hruns := TreeBuilder.buildsDocuments_of_documents? _ _ _ _ _ hb
  exact shaped_of_builtDocuments hruns.built (by simp) rfl

end File

end PipelineScripts.Yaml
