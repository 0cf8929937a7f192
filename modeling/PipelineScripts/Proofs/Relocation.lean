import PipelineScripts.Proofs.Copies
import PipelineScripts.Proofs.TreeShape
import PipelineScripts.Yaml.Merging

/-!
# Files one behind the other

Files are merged in two steps: their nodes are put one behind the other, and the entries of all
roots are joined. This is about the first step. Each file keeps its nodes, with other numbers; all
of them together are again a file with the shape of those that were read.
-/
namespace PipelineScripts.Yaml

/-- A node of a file that was put behind `offset` nodes of `source` sources. -/
def Node.moved (offset source : Nat) (n : Node) : Node :=
  { n with kind := n.kind.mapChildren (· + offset), source := n.source + source }

@[simp] theorem Node.moved_zero : Node.moved 0 0 = id := Node.renamed_id

theorem NodeKind.anchor_of_mapChildren {f : NodeId → NodeId} {k : NodeKind} {name : String}
    {value : NodeId} (h : k.mapChildren f = .anchor name value) :
    ∃ v, k = .anchor name v ∧ value = f v := by
  cases k <;> simp only [mapChildren, reduceCtorEq, anchor.injEq] at h
  obtain ⟨rfl, rfl⟩ := h
  exact ⟨_, rfl, rfl⟩

namespace File

/-- Documents have trees that do not end at a number without a node and have no node in common. -/
structure Separated (f : File) : Prop where
  acyclic : f.Acyclic
  closed : f.Closed
  root_lt : ∀ root : Nat, root ∈ f.roots → root < f.nodes.size
  apart : f.roots.Pairwise fun a b =>
    ∀ x, Relation.ReflTransGen f.Below a x → ¬ Relation.ReflTransGen f.Below b x

theorem Shaped.le_of_reach {f : File} (hf : f.Shaped) {a x : Nat}
    (h : Relation.ReflTransGen f.Below a x) : x ≤ a := by
  induction h with
  | refl => exact le_refl a
  | tail _ hstep ih => exact Nat.le_trans (Nat.le_of_lt (hf.child_lt hstep)) ih

/-- What is below the root of a document has smaller numbers, and what is below that of another
one behind it has greater ones. -/
theorem Shaped.separated {f : File} (hf : f.Shaped) : f.Separated where
  acyclic := hf.acyclic
  closed := hf.closed
  root_lt := hf.root_lt
  apart := by
    refine List.Pairwise.imp_of_mem (fun {a b : Nat} ha _ hab x hax hbx => ?_) hf.ascending
    have hle := hf.le_of_reach hax
    have hlt : a < x := by
      clear hax hle
      induction hbx with
      | refl => exact hab
      | tail _ hstep ih => exact hf.separate a ha ih hstep
    omega

/-- The nodes of a file stand in another one behind `offset` nodes. -/
def EmbedsAt (g f : File) (offset source : Nat) : Prop :=
  ∀ id < g.nodes.size, f.node? (id + offset) = (g.node? id).map (Node.moved offset source)

namespace EmbedsAt

variable {g f : File} {offset source : Nat} {id : Nat}

theorem kind? (h : g.EmbedsAt f offset source) (hid : id < g.nodes.size) :
    f.kind? (id + offset) = (g.kind? id).map (NodeKind.mapChildren (· + offset)) := by
  simp only [File.kind?, h id hid, Option.map_map]
  rfl

theorem below (h : g.EmbedsAt f offset source) {a b : Nat} (hab : g.Below a b) :
    f.Below (a + offset) (b + offset) := by
  obtain ⟨k, hk, hb⟩ := exists_kind?_of_below hab
  rw [Below, File.children, h.kind? (lt_size_of_kind? hk), hk]
  simpa using hb

theorem reach (h : g.EmbedsAt f offset source) {a b : Nat}
    (hab : Relation.ReflTransGen g.Below a b) :
    Relation.ReflTransGen f.Below (a + offset) (b + offset) :=
  hab.lift (· + offset) fun _ _ => h.below

theorem lt_size (h : g.EmbedsAt f offset source) (hid : id < g.nodes.size) :
    id + offset < f.nodes.size := by
  obtain ⟨n, hn⟩ : ∃ n, g.node? id = some n := ⟨_, Array.getElem?_eq_getElem hid⟩
  have hmoved := h id hid
  rw [hn] at hmoved
  exact (Array.getElem?_eq_some_iff.mp hmoved).1

theorem copies (h : g.EmbedsAt f offset source) (hf : f.Separated) (hg : g.Separated) :
    g.CopiesNodes f (· + offset) source {id : Nat | id < g.nodes.size} where
  acyclic := hg.acyclic
  acyclic_copy := hf.acyclic
  child_mem := fun _ hbelow => hg.closed hbelow
  node := h

/-- A tree is walked through in the same order wherever it is placed. -/
theorem preorder (h : g.EmbedsAt f offset source) (hf : f.Separated) (hg : g.Separated)
    (hid : id < g.nodes.size) : f.preorder (id + offset) = (g.preorder id).map (· + offset) :=
  (h.copies hf hg).preorder hg.closed hf.closed hid hid

end EmbedsAt

/-! ### Two files -/

section Append

variable (f g : File)

theorem nodes_appendNodes : (f.appendNodes g).nodes =
    f.nodes ++ g.nodes.map (Node.moved f.nodes.size f.sources.length) := rfl

@[simp] theorem size_appendNodes :
    (f.appendNodes g).nodes.size = f.nodes.size + g.nodes.size := by
  simp [nodes_appendNodes]

theorem node?_appendNodes_of_lt {id : Nat} (hid : id < f.nodes.size) :
    (f.appendNodes g).node? id = f.node? id := by
  simp only [node?, nodes_appendNodes]
  rw [Array.getElem?_append_left hid]

theorem node?_appendNodes_add (id : Nat) : (f.appendNodes g).node? (id + f.nodes.size) =
    (g.node? id).map (Node.moved f.nodes.size f.sources.length) := by
  simp only [node?, nodes_appendNodes]
  rw [Array.getElem?_append_right (by omega), Nat.add_sub_cancel, Array.getElem?_map]

/-- Puts the nodes of a file behind those of another, with the roots of its documents. -/
def append : File :=
  { f.appendNodes g with
    documents := f.documents ++ g.roots.map fun root => some (root + f.nodes.size) }

@[simp] theorem size_append : (f.append g).nodes.size = f.nodes.size + g.nodes.size :=
  size_appendNodes f g

@[simp] theorem sources_append : (f.append g).sources = f.sources ++ g.sources := rfl

@[simp] theorem roots_append : (f.append g).roots = f.roots ++ g.roots.map (· + f.nodes.size) := by
  simp [roots, append, List.filterMap_append, List.filterMap_map]

theorem node?_append_of_lt {id : Nat} (hid : id < f.nodes.size) :
    (f.append g).node? id = f.node? id := node?_appendNodes_of_lt f g hid

theorem node?_append_add (id : Nat) : (f.append g).node? (id + f.nodes.size) =
    (g.node? id).map (Node.moved f.nodes.size f.sources.length) := node?_appendNodes_add f g id

end Append

/-- Every node of two files comes from one of them. -/
theorem node?_append_cases {f g : File} {id : Nat} {n : Node} (h : (f.append g).node? id = some n) :
    (id < f.nodes.size ∧ f.node? id = some n) ∨
      ∃ i m, id = i + f.nodes.size ∧ g.node? i = some m ∧
        n = m.moved f.nodes.size f.sources.length := by
  by_cases hid : id < f.nodes.size
  · rw [node?_append_of_lt f g hid] at h
    exact .inl ⟨hid, h⟩
  · obtain ⟨i, rfl⟩ : ∃ i, id = i + f.nodes.size := ⟨id - f.nodes.size, by omega⟩
    rw [node?_append_add] at h
    obtain ⟨m, hm, rfl⟩ := Option.map_eq_some_iff.mp h
    exact .inr ⟨i, m, rfl, hm, rfl⟩

theorem below_append {f g : File} {id child : Nat} (h : (f.append g).Below id child) :
    (id < f.nodes.size ∧ f.Below id child) ∨
      ∃ i c, g.Below i c ∧ id = i + f.nodes.size ∧ child = c + f.nodes.size := by
  obtain ⟨k, hk, hchild⟩ := exists_kind?_of_below h
  obtain ⟨n, hn, rfl⟩ := Option.map_eq_some_iff.mp hk
  rcases node?_append_cases hn with ⟨hid, hn⟩ | ⟨i, m, rfl, hm, rfl⟩
  · refine .inl ⟨hid, ?_⟩
    simpa [Below, File.children, File.kind?, hn] using hchild
  · simp only [Node.moved, NodeKind.children_mapChildren] at hchild
    obtain ⟨c, hc, rfl⟩ := List.mem_map.mp hchild
    refine .inr ⟨i, c, ?_, rfl, rfl⟩
    simpa [Below, File.children, File.kind?, hm] using hc

theorem root_lt_append {f g : File} (hf : ∀ root : Nat, root ∈ f.roots → root < f.nodes.size)
    (hg : ∀ root : Nat, root ∈ g.roots → root < g.nodes.size) (root : Nat)
    (hroot : root ∈ (f.append g).roots) : root < (f.append g).nodes.size := by
  rw [roots_append] at hroot
  rw [size_append]
  rcases List.mem_append.mp hroot with hroot | hroot
  · have hlt := hf root hroot
    omega
  · obtain ⟨r, hr, rfl⟩ := List.mem_map.mp hroot
    have hlt := hg r hr
    omega

theorem source_lt_append {f g : File}
    (hf : ∀ {id : NodeId} {n : Node}, f.node? id = some n → n.source < f.sources.length)
    (hg : ∀ {id : NodeId} {n : Node}, g.node? id = some n → n.source < g.sources.length)
    {id : NodeId} {n : Node} (hn : (f.append g).node? id = some n) :
    n.source < (f.append g).sources.length := by
  rw [sources_append, List.length_append]
  rcases node?_append_cases hn with ⟨-, hn⟩ | ⟨i, m, rfl, hm, rfl⟩
  · have hlt := hf hn
    omega
  · have hlt := hg hm
    simp only [Node.moved]
    omega

/-- A file is found in front of another. -/
theorem embedsAt_append (f g : File) : f.EmbedsAt (f.append g) 0 0 := by
  intro id hid
  simp [node?_append_of_lt f g hid]

section Reach

open Relation

variable {f g : File} {a x : Nat}

theorem reach_append_of_lt (hf : f.Closed) (ha : a < f.nodes.size)
    (h : ReflTransGen (f.append g).Below a x) : x < f.nodes.size ∧ ReflTransGen f.Below a x := by
  induction h with
  | refl => exact ⟨ha, .refl⟩
  | tail _ hstep ih =>
    obtain ⟨hlt, hreach⟩ := ih
    rcases below_append hstep with ⟨-, hbelow⟩ | ⟨i, c, -, rfl, -⟩
    · exact ⟨hf hbelow, hreach.tail hbelow⟩
    · omega

theorem reach_append_add (h : ReflTransGen (f.append g).Below (a + f.nodes.size) x) :
    ∃ y : Nat, x = y + f.nodes.size ∧ ReflTransGen g.Below a y := by
  induction h with
  | refl => exact ⟨a, rfl, .refl⟩
  | tail _ hstep ih =>
    obtain ⟨y, rfl, hreach⟩ := ih
    rcases below_append hstep with ⟨hlt, -⟩ | ⟨i, c, hbelow, heq, rfl⟩
    · omega
    · cases Nat.add_right_cancel heq
      exact ⟨c, rfl, hreach.tail hbelow⟩

end Reach

/-- Trees stay apart when files are put one behind the other. -/
theorem Separated.append {f g : File} (hf : f.Separated) (hg : g.Separated) :
    (f.append g).Separated where
  acyclic := by
    refine acyclic_of_rank
      (fun x : Nat => if x < f.nodes.size then f.height x else g.height (x - f.nodes.size)) ?_
    intro a b h
    rcases below_append h with ⟨hlt, hbelow⟩ | ⟨i, c, hbelow, rfl, rfl⟩
    · rw [if_pos hlt, if_pos (hf.closed hbelow)]
      exact height_lt hf.acyclic hbelow
    · rw [if_neg (by omega), if_neg (by omega), Nat.add_sub_cancel, Nat.add_sub_cancel]
      exact height_lt hg.acyclic hbelow
  closed := by
    intro a b h
    rw [size_append]
    rcases below_append h with ⟨-, hbelow⟩ | ⟨i, c, hbelow, rfl, rfl⟩
    · have hlt := hf.closed hbelow
      omega
    · have hlt := hg.closed hbelow
      omega
  root_lt := root_lt_append hf.root_lt hg.root_lt
  apart := by
    rw [roots_append]
    refine List.pairwise_append.mpr ⟨?_, List.pairwise_map.mpr ?_, ?_⟩
    · refine hf.apart.imp_of_mem fun {a b} ha hb hab x hax hbx => ?_
      exact hab x (reach_append_of_lt hf.closed (hf.root_lt a ha) hax).2
        (reach_append_of_lt hf.closed (hf.root_lt b hb) hbx).2
    · refine hg.apart.imp fun {a b} hab x hax hbx => ?_
      obtain ⟨y, rfl, hay⟩ := reach_append_add hax
      obtain ⟨z, heq, hbz⟩ := reach_append_add hbx
      cases Nat.add_right_cancel heq
      exact hab y hay hbz
    · intro a ha b hb x hax hbx
      obtain ⟨r, -, rfl⟩ := List.mem_map.mp hb
      have hlt := (reach_append_of_lt hf.closed (hf.root_lt a ha) hax).1
      obtain ⟨y, rfl, -⟩ := reach_append_add hbx
      omega

theorem kind?_append_of_some {f g : File} {id : Nat} {k : NodeKind} (h : f.kind? id = some k) :
    (f.append g).kind? id = some k := by
  rw [kind?, node?_append_of_lt f g (lt_size_of_kind? h)]
  exact h

/-- Anchors stand before the same nodes when files are put one behind the other. -/
theorem BareAnchors.append {f g : File} (hf : f.BareAnchors) (hg : g.BareAnchors) :
    (f.append g).BareAnchors := by
  intro id name value h
  obtain ⟨n, hn, hk⟩ := Option.map_eq_some_iff.mp h
  rcases node?_append_cases hn with ⟨-, hn⟩ | ⟨i, m, rfl, hm, rfl⟩
  · have hanchor : f.kind? id = some (.anchor name value) := by simp [kind?, hn, hk]
    obtain ⟨k, hvalue, hbare⟩ := hf hanchor
    exact ⟨k, kind?_append_of_some hvalue, hbare⟩
  · obtain ⟨v, hv, rfl⟩ := NodeKind.anchor_of_mapChildren hk
    have hanchor : g.kind? i = some (.anchor name v) := by simp [kind?, hm, hv]
    obtain ⟨k, hvalue, hbare⟩ := hg hanchor
    refine ⟨k.mapChildren (· + f.nodes.size), ?_, by simpa using hbare⟩
    obtain ⟨v, hv, rfl⟩ := Option.map_eq_some_iff.mp hvalue
    rw [kind?, node?_append_add, hv]
    rfl

/-! ### Any number of files -/

/-- Puts files one behind the other. -/
def appendAll (f : File) (files : List File) : File := files.foldl append f

/-- The number of nodes of files. -/
def totalSize : List File → Nat
  | [] => 0
  | g :: rest => g.nodes.size + totalSize rest

/-- Where a file stands among others: behind `offset` nodes of `source` sources. -/
structure Placed where
  file : File
  offset : Nat
  source : Nat

/-- The places of files that are put behind `f`. -/
def places (f : File) : List File → List Placed
  | [] => []
  | g :: rest => ⟨g, f.nodes.size, f.sources.length⟩ :: places (f.append g) rest

/-- What passes from two files to the one that holds both holds of any number of files. -/
theorem appendAll_induct {P : File → Prop} (hstep : ∀ f g, P f → P g → P (f.append g)) {f : File}
    {files : List File} (hf : P f) (hfiles : ∀ g ∈ files, P g) : P (f.appendAll files) := by
  induction files generalizing f with
  | nil => exact hf
  | cons g rest ih =>
    refine ih (hstep f g hf (hfiles g (by simp))) fun h hh => ?_
    exact hfiles h (List.mem_cons_of_mem g hh)

theorem Separated.appendAll {f : File} {files : List File} (hf : f.Separated)
    (hfiles : ∀ g ∈ files, g.Separated) : (f.appendAll files).Separated :=
  appendAll_induct (fun _ _ => Separated.append) hf hfiles

theorem node?_appendAll_of_lt {f : File} (files : List File) {id : Nat} (hid : id < f.nodes.size) :
    (f.appendAll files).node? id = f.node? id := by
  induction files generalizing f with
  | nil => rfl
  | cons g rest ih =>
    have hid' : id < (f.append g).nodes.size := by
      rw [size_append]
      omega
    exact (ih hid').trans (node?_append_of_lt f g hid)

theorem sources_appendAll_of_lt {f : File} (files : List File) {i : Nat}
    (hi : i < f.sources.length) : (f.appendAll files).sources[i]? = f.sources[i]? := by
  induction files generalizing f with
  | nil => rfl
  | cons g rest ih =>
    have hi' : i < (f.append g).sources.length := by
      rw [sources_append, List.length_append]
      omega
    refine (ih hi').trans ?_
    rw [sources_append, List.getElem?_append_left hi]

@[simp] theorem map_file_places (f : File) (files : List File) :
    (f.places files).map (·.file) = files := by
  induction files generalizing f with
  | nil => rfl
  | cons g rest ih => simp [places, ih]

theorem file_mem_of_mem_places {f : File} {files : List File} {p : Placed}
    (hp : p ∈ f.places files) : p.file ∈ files := by
  rw [← map_file_places f files]
  exact List.mem_map_of_mem hp

/-- Each file is found where it was placed. -/
theorem embedsAt_of_mem_places {f : File} {files : List File} {p : Placed}
    (hp : p ∈ f.places files) : p.file.EmbedsAt (f.appendAll files) p.offset p.source := by
  induction files generalizing f with
  | nil => simp [places] at hp
  | cons g rest ih =>
    rcases List.mem_cons.mp hp with rfl | hp
    · intro id hid
      have hid' : id + f.nodes.size < (f.append g).nodes.size := by
        rw [size_append]
        dsimp only at hid
        omega
      exact (node?_appendAll_of_lt rest hid').trans (node?_append_add f g id)
    · exact ih hp

theorem sources_of_mem_places {f : File} {files : List File} {p : Placed}
    (hp : p ∈ f.places files) {i : Nat} (hi : i < p.file.sources.length) :
    (f.appendAll files).sources[i + p.source]? = p.file.sources[i]? := by
  induction files generalizing f with
  | nil => simp [places] at hp
  | cons g rest ih =>
    rcases List.mem_cons.mp hp with rfl | hp
    · dsimp only at hi
      have hi' : i + f.sources.length < (f.append g).sources.length := by
        rw [sources_append, List.length_append]
        omega
      refine (sources_appendAll_of_lt rest hi').trans ?_
      rw [sources_append, List.getElem?_append_right (by omega), Nat.add_sub_cancel]
    · exact ih hp

theorem size_le_offset_of_mem_places {f : File} {files : List File} {p : Placed}
    (hp : p ∈ f.places files) : f.nodes.size ≤ p.offset := by
  induction files generalizing f with
  | nil => simp [places] at hp
  | cons g rest ih =>
    rcases List.mem_cons.mp hp with rfl | hp
    · exact le_refl _
    · have hle := ih hp
      rw [size_append] at hle
      omega

/-- The files do not overlap. -/
theorem pairwise_places (f : File) (files : List File) :
    (f.places files).Pairwise fun p q => p.offset + p.file.nodes.size ≤ q.offset := by
  induction files generalizing f with
  | nil => exact List.Pairwise.nil
  | cons g rest ih =>
    refine List.pairwise_cons.mpr ⟨fun q hq => ?_, ih (f.append g)⟩
    have hle := size_le_offset_of_mem_places hq
    rwa [size_append] at hle

theorem sources_appendAll (f : File) (files : List File) :
    (f.appendAll files).sources = f.sources ++ files.flatMap (·.sources) := by
  induction files generalizing f with
  | nil => simp [appendAll]
  | cons g rest ih =>
    rw [appendAll, List.foldl_cons, ← appendAll, ih, sources_append, List.flatMap_cons,
      List.append_assoc]

theorem size_appendAll (f : File) (files : List File) :
    (f.appendAll files).nodes.size = f.nodes.size + totalSize files := by
  induction files generalizing f with
  | nil => rfl
  | cons g rest ih =>
    rw [appendAll, List.foldl_cons, ← appendAll, ih, size_append, totalSize, Nat.add_assoc]

theorem roots_appendAll (f : File) (files : List File) : (f.appendAll files).roots =
    f.roots ++ (f.places files).flatMap fun p => p.file.roots.map (· + p.offset) := by
  induction files generalizing f with
  | nil => simp [appendAll, places]
  | cons g rest ih =>
    have hrest := ih (f.append g)
    rw [roots_append] at hrest
    rw [places, List.flatMap_cons, ← List.append_assoc]
    exact hrest

end File

end PipelineScripts.Yaml
