import PipelineScripts.Proofs.Relocation

/-!
# Joining the roots of files

Once the nodes of all files stand one behind the other, the entries of every root but the first are
added to the first. `File.merge` does both steps at once, file by file and root by root; here they
are told apart, so that a merged file is known from the files it was made of.
-/
namespace PipelineScripts.Yaml

/-- Adds entries to a mapping. -/
def NodeKind.addEntries (more : List NodeId) : NodeKind → NodeKind
  | mapping entries => mapping (entries ++ more)
  | k => k

def Node.addEntries (more : List NodeId) (n : Node) : Node :=
  { n with kind := n.kind.addEntries more }

@[simp] theorem Node.addEntries_nil (n : Node) : n.addEntries [] = n := by
  obtain ⟨kind, position, path, source⟩ := n
  cases kind <;> simp [addEntries, NodeKind.addEntries]

@[simp] theorem Node.addEntries_addEntries (a b : List NodeId) (n : Node) :
    (n.addEntries a).addEntries b = n.addEntries (a ++ b) := by
  obtain ⟨kind, position, path, source⟩ := n
  cases kind <;> simp [addEntries, NodeKind.addEntries]

@[simp] theorem NodeKind.addEntries_eq_anchor {more : List NodeId} {k : NodeKind} {name : String}
    {value : NodeId} : k.addEntries more = .anchor name value ↔ k = .anchor name value := by
  cases k <;> simp [addEntries]

attribute [ext] File

namespace File

/-- Adds entries to the mapping with a number. -/
def extendMapping (f : File) (id : NodeId) (more : List NodeId) : File :=
  { f with nodes := f.nodes.modify id (Node.addEntries more) }

section Extend

variable (f : File) (id : Nat) (more : List NodeId)

@[simp] theorem size_extendMapping : (f.extendMapping id more).nodes.size = f.nodes.size := by
  simp [extendMapping]

theorem node?_extendMapping (x : Nat) : (f.extendMapping id more).node? x =
    if x = id then (f.node? x).map (Node.addEntries more) else f.node? x := by
  simp only [node?, extendMapping, Array.getElem?_modify, eq_comm]

theorem node?_extendMapping_of_ne {x : Nat} (h : x ≠ id) :
    (f.extendMapping id more).node? x = f.node? x := by
  rw [node?_extendMapping, if_neg h]

theorem kind?_extendMapping_of_ne {x : Nat} (h : x ≠ id) :
    (f.extendMapping id more).kind? x = f.kind? x := by
  rw [kind?, node?_extendMapping_of_ne f id more h, kind?]

theorem kind?_extendMapping_self :
    (f.extendMapping id more).kind? id = (f.kind? id).map (NodeKind.addEntries more) := by
  rw [kind?, node?_extendMapping, if_pos rfl, kind?, Option.map_map, Option.map_map]
  rfl

theorem kind?_extendMapping_eq_anchor {x : Nat} {name : String} {value : NodeId} :
    (f.extendMapping id more).kind? x = some (.anchor name value) ↔
      f.kind? x = some (.anchor name value) := by
  by_cases h : x = id
  · subst h
    rw [kind?_extendMapping_self]
    simp
  · rw [kind?_extendMapping_of_ne f id more h]

@[simp] theorem extendMapping_nil : f.extendMapping id [] = f := by
  have hid : f.nodes.modify id (Node.addEntries []) = f.nodes := by
    apply Array.ext_getElem?
    intro i
    rw [Array.getElem?_modify]
    split_ifs
    · cases f.nodes[i]? <;> simp
    · rfl
  unfold extendMapping
  rw [hid]

theorem extendMapping_extendMapping (a b : List NodeId) :
    (f.extendMapping id a).extendMapping id b = f.extendMapping id (a ++ b) := by
  unfold extendMapping
  congr 1
  apply Array.ext_getElem?
  intro i
  simp only [Array.getElem?_modify]
  split_ifs
  · simp [Function.comp_def]
  · rfl

end Extend

/-! ### Behind anchors -/

/-- Anchors are all that decides what is behind them. -/
theorem behindAnchors_congr {f g : File} (hsize : f.nodes.size = g.nodes.size)
    (h : ∀ id name value, f.kind? id = some (.anchor name value) ↔
      g.kind? id = some (.anchor name value)) (id : NodeId) :
    f.behindAnchors id = g.behindAnchors id := by
  unfold behindAnchors
  rw [hsize]
  generalize g.nodes.size = fuel
  induction fuel generalizing id with
  | zero => rfl
  | succ fuel ih =>
    rw [behindAnchorsWithin, behindAnchorsWithin]
    split
    next name value hk =>
      rw [(h id name value).mp hk]
      exact ih value
    next hf =>
      split
      next name value hk => exact absurd ((h id name value).mpr hk) (hf name value)
      next => rfl

@[simp] theorem behindAnchors_extendMapping (f : File) (id : Nat) (more : List NodeId)
    (x : NodeId) : (f.extendMapping id more).behindAnchors x = f.behindAnchors x :=
  behindAnchors_congr (size_extendMapping f id more)
    (fun _ _ _ => kind?_extendMapping_eq_anchor f id more) x

/-- A node is an anchor before another one. -/
def AnchorBefore (f : File) (a b : NodeId) : Prop := ∃ name, f.kind? a = some (.anchor name b)

theorem AnchorBefore.below {f : File} {a b : NodeId} (h : f.AnchorBefore a b) : f.Below a b := by
  obtain ⟨name, hk⟩ := h
  simp [Below, children_of_kind? hk, NodeKind.children]

theorem anchorBefore_unique {f : File} {a b c : NodeId} (hb : f.AnchorBefore a b)
    (hc : f.AnchorBefore a c) : b = c := by
  obtain ⟨name, hk⟩ := hb
  obtain ⟨name', hk'⟩ := hc
  cases hk.symm.trans hk'
  rfl

theorem reach_behindAnchorsWithin (f : File) (fuel : Nat) (id : NodeId) :
    Relation.ReflTransGen f.AnchorBefore id (f.behindAnchorsWithin fuel id) := by
  induction fuel generalizing id with
  | zero => exact .refl
  | succ fuel ih =>
    rw [behindAnchorsWithin]
    split
    next name value hk => exact .head ⟨name, hk⟩ (ih value)
    next => exact .refl

theorem not_anchorBefore_behindAnchorsWithin {f : File} (hf : f.Acyclic) {fuel : Nat} {id : NodeId}
    (hfuel : f.height id ≤ fuel) (b : NodeId) :
    ¬ f.AnchorBefore (f.behindAnchorsWithin fuel id) b := by
  induction fuel generalizing id with
  | zero =>
    rintro ⟨name, hk⟩
    have hpos := height_pos (lt_size_of_kind? hk)
    rw [behindAnchorsWithin] at hpos
    omega
  | succ fuel ih =>
    rw [behindAnchorsWithin]
    split
    next name value hk =>
      have hlt := height_lt hf (AnchorBefore.below ⟨name, hk⟩)
      exact ih (by omega)
    next hno =>
      rintro ⟨name, hk⟩
      exact hno name b hk

/-- What is behind the anchors of a node is reached from one to the next, where these end. -/
theorem behindAnchors_eq_iff {f : File} (hf : f.Acyclic) {a b : NodeId} :
    f.behindAnchors a = b ↔
      Relation.ReflTransGen f.AnchorBefore a b ∧ ∀ c, ¬ f.AnchorBefore b c := by
  have hstop := fun c => not_anchorBefore_behindAnchorsWithin hf (f.height_le a) c
  constructor
  · rintro rfl
    exact ⟨reach_behindAnchorsWithin f _ a, hstop⟩
  · rintro ⟨hreach, hb⟩
    have hunique : Relator.RightUnique f.AnchorBefore := fun _ _ _ => anchorBefore_unique
    rcases Relation.ReflTransGen.total_of_right_unique hunique
      (reach_behindAnchorsWithin f f.nodes.size a) hreach with h | h
    · rcases Relation.ReflTransGen.cases_head h with heq | ⟨c, hc, -⟩
      · exact heq
      · exact absurd hc (hstop c)
    · rcases Relation.ReflTransGen.cases_head h with heq | ⟨c, hc, -⟩
      · exact heq.symm
      · exact absurd hc (hb c)

theorem below_behindAnchors (f : File) (id : NodeId) :
    Relation.ReflTransGen f.Below id (f.behindAnchors id) :=
  Relation.ReflTransGen.mono (fun _ _ h => h.below) _ _ (reach_behindAnchorsWithin f _ id)

theorem behindAnchors_lt {f : File} (hf : f.Closed) {id : Nat} (hid : id < f.nodes.size) :
    f.behindAnchors id < f.nodes.size := lt_size_of_reach hf hid (f.below_behindAnchors id)

/-! ### Roots -/

/-- The entries of the mapping at a root. -/
def rootEntries (f : File) (root : NodeId) : List NodeId :=
  match f.kind? (f.behindAnchors root) with
  | some (.mapping entries) => entries
  | _ => []

/-- A mapping stands at a root. -/
def HasMapping (f : File) (root : NodeId) : Prop :=
  ∃ entries, f.kind? (f.behindAnchors root) = some (.mapping entries)

/-- The roots are those of mappings, if there is more than one. -/
def Joinable (f : File) (roots : List NodeId) : Prop :=
  ∀ first ∈ roots.head?, ∀ root ∈ roots.tail, f.HasMapping first ∧ f.HasMapping root

/-- Adds the entries of all roots but the first to the first. -/
def joinRoots (f : File) : List NodeId → File
  | [] => f
  | root :: others => f.extendMapping (f.behindAnchors root) (others.flatMap f.rootEntries)

/-- A mapping is written anew with more entries. -/
theorem setIfInBounds_mapping {nodes : Array Node} {id : Nat} {entries : List NodeId}
    {position : Position} {path : String} {source : Nat}
    (h : nodes[id]? = some ⟨.mapping entries, position, path, source⟩) (more : List NodeId) :
    nodes.setIfInBounds id ⟨.mapping (entries ++ more), position, path, source⟩ =
      nodes.modify id (Node.addEntries more) := by
  have hlt := (Array.getElem?_eq_some_iff.mp h).1
  apply Array.ext_getElem?
  intro i
  rw [Array.getElem?_setIfInBounds, Array.getElem?_modify]
  split_ifs with hi
  · subst hi
    rw [h]
    rfl
  · rfl

namespace EmbedsAt

variable {f g : File} {offset source : Nat} {root : Nat}

theorem anchorBefore (h : g.EmbedsAt f offset source) {a b : NodeId} (hab : g.AnchorBefore a b) :
    f.AnchorBefore (a + offset) (b + offset) := by
  obtain ⟨name, hk⟩ := hab
  refine ⟨name, ?_⟩
  rw [h.kind? (lt_size_of_kind? hk), hk]
  rfl

theorem behindAnchors (h : g.EmbedsAt f offset source) (hf : f.Separated) (hg : g.Separated)
    (hroot : root < g.nodes.size) :
    f.behindAnchors (root + offset) = g.behindAnchors root + offset := by
  obtain ⟨hreach, hstop⟩ := (behindAnchors_eq_iff hg.acyclic).mp (rfl : g.behindAnchors root = _)
  refine (behindAnchors_eq_iff hf.acyclic).mpr ⟨?_, ?_⟩
  · exact hreach.lift (· + offset) fun _ _ => h.anchorBefore
  · rintro b ⟨name, hk⟩
    rw [h.kind? (behindAnchors_lt hg.closed hroot)] at hk
    obtain ⟨k, hk, hmap⟩ := Option.map_eq_some_iff.mp hk
    obtain ⟨v, rfl, -⟩ := NodeKind.anchor_of_mapChildren hmap
    exact hstop v ⟨name, hk⟩

theorem kind?_behindAnchors (h : g.EmbedsAt f offset source) (hf : f.Separated) (hg : g.Separated)
    (hroot : root < g.nodes.size) : f.kind? (f.behindAnchors (root + offset)) =
      (g.kind? (g.behindAnchors root)).map (NodeKind.mapChildren (· + offset)) := by
  rw [h.behindAnchors hf hg hroot]
  exact h.kind? (behindAnchors_lt hg.closed hroot)

theorem rootEntries (h : g.EmbedsAt f offset source) (hf : f.Separated) (hg : g.Separated)
    (hroot : root < g.nodes.size) :
    f.rootEntries (root + offset) = (g.rootEntries root).map (· + offset) := by
  unfold File.rootEntries
  rw [h.kind?_behindAnchors hf hg hroot]
  cases g.kind? (g.behindAnchors root) with
  | none => rfl
  | some k => cases k <;> rfl

theorem hasMapping_iff (h : g.EmbedsAt f offset source) (hf : f.Separated) (hg : g.Separated)
    (hroot : root < g.nodes.size) : f.HasMapping (root + offset) ↔ g.HasMapping root := by
  unfold HasMapping
  rw [h.kind?_behindAnchors hf hg hroot]
  cases g.kind? (g.behindAnchors root) with
  | none => simp
  | some k => cases k <;> simp [NodeKind.mapChildren]

end EmbedsAt

section Append

variable {f g : File} {root : Nat}

/-- What is behind the anchors of a node is the same in a longer file. -/
theorem behindAnchors_append (hf : f.Separated) (hg : g.Separated) (hroot : root < f.nodes.size) :
    (f.append g).behindAnchors root = f.behindAnchors root :=
  (embedsAt_append f g).behindAnchors (hf.append hg) hf hroot

theorem rootEntries_append (hf : f.Separated) (hg : g.Separated) (hroot : root < f.nodes.size) :
    (f.append g).rootEntries root = f.rootEntries root := by
  simpa using (embedsAt_append f g).rootEntries (hf.append hg) hf hroot

theorem hasMapping_append (hf : f.Separated) (hg : g.Separated) (hroot : root < f.nodes.size) :
    (f.append g).HasMapping root ↔ f.HasMapping root :=
  (embedsAt_append f g).hasMapping_iff (hf.append hg) hf hroot

end Append

/-- Merging one root into another adds its entries, and needs two mappings. -/
theorem mergeRoot_eq_ok {f f' : File} {destination source : NodeId} {name : String} :
    f.mergeRoot destination source name = .ok f' ↔
      f.HasMapping destination ∧ f.HasMapping source ∧
        f' = f.extendMapping (f.behindAnchors destination) (f.rootEntries source) := by
  unfold mergeRoot HasMapping rootEntries
  split
  next more hmore =>
    dsimp only
    split
    next entries position path n hn =>
      have hd : f.kind? (f.behindAnchors destination) = some (.mapping entries) := by
        simp [kind?, hn]
      simp [hd, hmore, extendMapping, setIfInBounds_mapping hn more, eq_comm]
    next hno =>
      refine ⟨fun h => (by cases h), ?_⟩
      rintro ⟨⟨entries, hd⟩, -⟩
      obtain ⟨⟨kind, position, path, n⟩, hn, rfl⟩ := Option.map_eq_some_iff.mp hd
      exact absurd hn (hno entries position path n)
  next hno =>
    refine ⟨fun h => (by cases h), ?_⟩
    rintro ⟨-, ⟨more, hmore⟩, -⟩
    exact absurd hmore (hno more)

section Extended

variable {f : File} {id root : NodeId} (more : List NodeId)

theorem rootEntries_extendMapping (h : f.behindAnchors root ≠ id) :
    (f.extendMapping id more).rootEntries root = f.rootEntries root := by
  unfold rootEntries
  rw [behindAnchors_extendMapping, kind?_extendMapping_of_ne f id more h]

theorem hasMapping_extendMapping :
    (f.extendMapping id more).HasMapping root ↔ f.HasMapping root := by
  unfold HasMapping
  rw [behindAnchors_extendMapping]
  by_cases h : f.behindAnchors root = id
  · rw [h, kind?_extendMapping_self]
    cases f.kind? id with
    | none => simp
    | some k => cases k <;> simp [NodeKind.addEntries]
  · rw [kind?_extendMapping_of_ne f id more h]

end Extended

/-! ### The merge under way -/

/-- The documents of a file play no part while it is merged. -/
def withoutDocuments (f : File) : File := { f with documents := [] }

@[simp] theorem behindAnchors_withoutDocuments (f : File) (id : NodeId) :
    f.withoutDocuments.behindAnchors id = f.behindAnchors id :=
  behindAnchors_congr (by rfl) (by intros; rfl) id

@[simp] theorem rootEntries_withoutDocuments (f : File) (root : NodeId) :
    f.withoutDocuments.rootEntries root = f.rootEntries root := by
  unfold rootEntries
  rw [behindAnchors_withoutDocuments]
  rfl

@[simp] theorem hasMapping_withoutDocuments (f : File) (root : NodeId) :
    f.withoutDocuments.HasMapping root ↔ f.HasMapping root := by
  unfold HasMapping
  rw [behindAnchors_withoutDocuments]
  rfl

/-- The merge under way when the nodes of `f` and some of its roots were taken in. -/
def Merging.of (f : File) (roots : List NodeId) : Merging :=
  ⟨(f.joinRoots roots).withoutDocuments, roots.head?⟩

/-- One root: it is the first, or its entries and the first root's are those of mappings. -/
theorem Merging.addRoot_of {f : File} {roots : List NodeId} {root : NodeId} {name : String}
    {m : Merging} (hroot : ∀ first ∈ roots.head?, f.behindAnchors root ≠ f.behindAnchors first) :
    (Merging.of f roots).addRoot name root = .ok m ↔
      (∀ first ∈ roots.head?, f.HasMapping first ∧ f.HasMapping root) ∧
        m = Merging.of f (roots ++ [root]) := by
  cases roots with
  | nil =>
    simp [Merging.addRoot, Merging.of, joinRoots, extendMapping_nil, eq_comm]
  | cons first others =>
    have hne := hroot first rfl
    have hentries := rootEntries_extendMapping (others.flatMap f.rootEntries) hne
    simp only [Merging.addRoot, Merging.of, joinRoots, List.head?_cons, map_eq_ok,
      mergeRoot_eq_ok, hasMapping_withoutDocuments, hasMapping_extendMapping,
      behindAnchors_withoutDocuments, behindAnchors_extendMapping, rootEntries_withoutDocuments,
      hentries]
    have hjoin : (f.extendMapping (f.behindAnchors first)
        (others.flatMap f.rootEntries)).withoutDocuments.extendMapping (f.behindAnchors first)
          (f.rootEntries root) = (f.joinRoots (first :: others ++ [root])).withoutDocuments := by
      rw [List.cons_append, joinRoots, List.flatMap_append, List.flatMap_singleton,
        ← extendMapping_extendMapping]
      rfl
    constructor
    · rintro ⟨_, ⟨hfirst, hmapping, rfl⟩, rfl⟩
      refine ⟨?_, by rw [hjoin]; rfl⟩
      rintro _ ⟨⟩
      exact ⟨hfirst, hmapping⟩
    · rintro ⟨hmappings, rfl⟩
      obtain ⟨hfirst, hmapping⟩ := hmappings first rfl
      exact ⟨_, ⟨hfirst, hmapping, rfl⟩, by rw [hjoin]; rfl⟩

/-- What roots can be joined, as one condition on all of them. -/
theorem joinable_iff {f : File} {roots : List NodeId} :
    f.Joinable roots ↔ roots.length ≤ 1 ∨ ∀ root ∈ roots, f.HasMapping root := by
  match roots with
  | [] => simp [Joinable]
  | [first] => simp [Joinable]
  | first :: second :: rest =>
    constructor
    · intro h
      refine .inr fun root hroot => ?_
      rcases List.mem_cons.mp hroot with rfl | hroot
      · exact (h root rfl second List.mem_cons_self).1
      · exact (h first rfl root hroot).2
    · rintro (hlength | hall)
      · simp at hlength
      · rintro _ ⟨⟩ root hroot
        exact ⟨hall first List.mem_cons_self, hall root (List.mem_cons_of_mem first hroot)⟩

theorem joinable_concat {f : File} {roots : List NodeId} {root : NodeId} :
    f.Joinable (roots ++ [root]) ↔
      f.Joinable roots ∧ ∀ first ∈ roots.head?, f.HasMapping first ∧ f.HasMapping root := by
  cases roots with
  | nil => simp [Joinable]
  | cons first others =>
    simp only [Joinable, List.cons_append, List.head?_cons, Option.mem_def, Option.some.injEq,
      forall_eq', List.tail_cons, List.mem_append, List.mem_singleton]
    constructor
    · intro h
      exact ⟨fun x hx => h x (.inl hx), h root (.inr rfl)⟩
    · rintro ⟨hothers, hroot⟩ x (hx | rfl)
      · exact hothers x hx
      · exact hroot

theorem Joinable.of_append {f : File} {roots more : List NodeId} (h : f.Joinable (roots ++ more)) :
    f.Joinable roots := by
  cases roots with
  | nil => simp [Joinable]
  | cons first others =>
    intro x hx root hroot
    exact h x hx root (List.mem_append_left more hroot)

theorem ne_head_of_pairwise {f : File} {roots rest : List NodeId} {root : NodeId}
    (h : (roots ++ root :: rest).Pairwise fun a b => f.behindAnchors a ≠ f.behindAnchors b) :
    ∀ first ∈ roots.head?, f.behindAnchors root ≠ f.behindAnchors first := by
  intro first hfirst
  have hcross := (List.pairwise_append.mp h).2.2
  exact (hcross first (List.mem_of_mem_head? hfirst) root (by simp)).symm

/-- All roots of a file. -/
theorem Merging.foldlM_addRoot_of {f : File} {roots more : List NodeId} {name : String}
    {m : Merging} (hjoin : f.Joinable roots)
    (hroots : (roots ++ more).Pairwise fun a b => f.behindAnchors a ≠ f.behindAnchors b) :
    more.foldlM (Merging.addRoot name) (Merging.of f roots) = .ok m ↔
      f.Joinable (roots ++ more) ∧ m = Merging.of f (roots ++ more) := by
  induction more generalizing roots with
  | nil =>
    rw [List.append_nil]
    simp [hjoin, pure, Except.pure, eq_comm]
  | cons root rest ih =>
    have hroots' : (roots ++ [root] ++ rest).Pairwise fun a b =>
        f.behindAnchors a ≠ f.behindAnchors b := by simpa using hroots
    have happend : roots ++ [root] ++ rest = roots ++ root :: rest := by simp
    rw [List.foldlM_cons, bind_eq_ok]
    simp only [Merging.addRoot_of (ne_head_of_pairwise hroots)]
    constructor
    · rintro ⟨_, ⟨hstep, rfl⟩, h⟩
      rwa [ih (joinable_concat.mpr ⟨hjoin, hstep⟩) hroots', happend] at h
    · rintro ⟨hall, hm⟩
      rw [← happend] at hall hm
      have hnext := hall.of_append
      exact ⟨_, ⟨(joinable_concat.mp hnext).2, rfl⟩, (ih hnext hroots').mpr ⟨hall, hm⟩⟩

/-- What is behind the anchors of two roots is not the same. -/
theorem Separated.pairwise_behindAnchors {f : File} (hf : f.Separated) :
    f.roots.Pairwise fun a b => f.behindAnchors a ≠ f.behindAnchors b := by
  refine hf.apart.imp fun {a b} hab heq => ?_
  exact hab _ (f.below_behindAnchors a) (heq ▸ f.below_behindAnchors b)

theorem extendMapping_appendNodes {f : File} (g : File) {id : Nat} (hid : id < f.nodes.size)
    (more : List NodeId) : (f.extendMapping id more).withoutDocuments.appendNodes g =
      ((f.append g).extendMapping id more).withoutDocuments := by
  refine File.ext rfl rfl rfl (Array.ext_getElem? fun i => ?_)
  have hleft : (f.extendMapping id more).withoutDocuments.nodes.size = f.nodes.size :=
    size_extendMapping f id more
  rw [nodes_appendNodes, hleft]
  show _ = ((f.append g).extendMapping id more).node? i
  rw [node?_extendMapping]
  by_cases hi : i < f.nodes.size
  · rw [Array.getElem?_append_left (by omega), node?_append_of_lt f g hi]
    exact node?_extendMapping f id more i
  · obtain ⟨j, rfl⟩ : ∃ j, i = j + f.nodes.size := ⟨i - f.nodes.size, by omega⟩
    rw [Array.getElem?_append_right (by omega), hleft, Nat.add_sub_cancel, if_neg (by omega),
      node?_append_add, Array.getElem?_map]
    rfl

/-- The nodes of another file may be added before or after the roots are joined. -/
theorem Merging.of_append {f g : File} (hf : f.Separated) (hg : g.Separated) :
    { Merging.of f f.roots with file := (Merging.of f f.roots).file.appendNodes g } =
      Merging.of (f.append g) f.roots := by
  have hfile : (f.joinRoots f.roots).withoutDocuments.appendNodes g =
      ((f.append g).joinRoots f.roots).withoutDocuments := by
    have hroots := hf.root_lt
    cases h : f.roots with
    | nil => rfl
    | cons first others =>
      rw [h] at hroots
      have hfirst := hroots first (by simp)
      have hothers : others.flatMap (f.append g).rootEntries = others.flatMap f.rootEntries := by
        refine List.flatMap_congr fun root hroot => ?_
        exact rootEntries_append hf hg (hroots root (List.mem_cons_of_mem first hroot))
      rw [joinRoots, joinRoots, hothers, behindAnchors_append hf hg hfirst]
      exact extendMapping_appendNodes g (behindAnchors_lt hf.closed hfirst) _
  unfold Merging.of
  rw [hfile]

@[simp] theorem sources_joinRoots (f : File) (roots : List NodeId) :
    (f.joinRoots roots).sources = f.sources := by
  cases roots <;> rfl

/-- Only what is behind the anchors of the first root is written anew. -/
theorem node?_joinRoots_of_ne {f : File} {roots : List NodeId} {id : NodeId}
    (h : ∀ first ∈ roots.head?, id ≠ f.behindAnchors first) :
    (f.joinRoots roots).node? id = f.node? id := by
  cases roots with
  | nil => rfl
  | cons first others => exact node?_extendMapping_of_ne f _ _ (h first rfl)

/-- Joining changes no node's source. -/
theorem exists_source_of_joinRoots {f : File} {roots : List NodeId} {id : NodeId} {n : Node}
    (h : (f.joinRoots roots).node? id = some n) :
    ∃ m, f.node? id = some m ∧ n.source = m.source := by
  cases roots with
  | nil => exact ⟨n, h, rfl⟩
  | cons first others =>
    rw [joinRoots, node?_extendMapping] at h
    split_ifs at h
    · obtain ⟨m, hm, rfl⟩ := Option.map_eq_some_iff.mp h
      exact ⟨m, hm, rfl⟩
    · exact ⟨n, h, rfl⟩

@[simp] theorem size_joinRoots (f : File) (roots : List NodeId) :
    (f.joinRoots roots).nodes.size = f.nodes.size := by
  cases roots with
  | nil => rfl
  | cons root others => exact size_extendMapping f _ _

theorem Merging.addFile_of {f g : File} (hf : f.Separated) (hg : g.Separated) :
    (Merging.of f f.roots).addFile g =
      (g.roots.map (· + f.nodes.size)).foldlM (Merging.addRoot g.name)
        (Merging.of (f.append g) f.roots) := by
  have hsize : (Merging.of f f.roots).file.nodes.size = f.nodes.size := size_joinRoots f f.roots
  rw [← Merging.of_append hf hg, Merging.addFile, hsize]
  rfl

/-- The file that all files are put behind. -/
def emptyMerge : File := { name := mergedName, sources := [] }

theorem shaped_emptyMerge : emptyMerge.Shaped where
  child_lt := by
    intro id child h
    exact absurd (lt_size_of_below h) (Nat.not_lt_zero id)
  anchored := by
    intro id name value h
    exact absurd (lt_size_of_kind? h) (Nat.not_lt_zero id)
  source_lt := by
    intro id n h
    simp [node?, emptyMerge] at h
  root_lt := by simp [roots, emptyMerge]
  ascending := by simp [roots, emptyMerge]
  separate := by simp [roots, emptyMerge]

theorem separated_emptyMerge : emptyMerge.Separated := shaped_emptyMerge.separated

/-- The nodes of files one behind the other, with all their roots. -/
def gathered (files : List File) : File := emptyMerge.appendAll files

theorem separated_gathered {files : List File} (hfiles : ∀ g ∈ files, g.Separated) :
    (gathered files).Separated := separated_emptyMerge.appendAll hfiles

theorem roots_gathered (files : List File) : (gathered files).roots =
    (emptyMerge.places files).flatMap fun p => p.file.roots.map (· + p.offset) := by
  rw [gathered, roots_appendAll]
  rfl

theorem mem_roots_gathered {files : List File} {root : NodeId} :
    root ∈ (gathered files).roots ↔
      ∃ p ∈ emptyMerge.places files, ∃ r ∈ p.file.roots, root = r + p.offset := by
  simp [roots_gathered, eq_comm]

/-- The file that a list of files is merged into. -/
def mergedFile (files : List File) : File :=
  { (gathered files).joinRoots (gathered files).roots with
    documents := [(gathered files).roots.head?] }

theorem joinable_append_roots {f g : File} (hf : f.Separated) (hg : g.Separated) :
    (f.append g).Joinable f.roots ↔ f.Joinable f.roots := by
  have hsame : ∀ root ∈ f.roots, ((f.append g).HasMapping root ↔ f.HasMapping root) :=
    fun root hroot => hasMapping_append hf hg (hf.root_lt root hroot)
  refine forall₂_congr fun first hfirst => forall₂_congr fun root hroot => ?_
  rw [hsame first (List.mem_of_mem_head? hfirst), hsame root (List.mem_of_mem_tail hroot)]

theorem Joinable.of_appendAll {f : File} {files : List File} (hf : f.Separated)
    (hfiles : ∀ g ∈ files, g.Separated)
    (h : (f.appendAll files).Joinable (f.appendAll files).roots) : f.Joinable f.roots := by
  induction files generalizing f with
  | nil => exact h
  | cons g rest ih =>
    have hg := hfiles g (by simp)
    have hnext := ih (hf.append hg) (fun x hx => hfiles x (List.mem_cons_of_mem g hx)) h
    rw [roots_append] at hnext
    exact (joinable_append_roots hf hg).mp hnext.of_append

/-- All files. -/
theorem Merging.foldlM_addFile_of {f : File} {files : List File} {m : Merging} (hf : f.Separated)
    (hfiles : ∀ g ∈ files, g.Separated) (hjoin : f.Joinable f.roots) :
    files.foldlM Merging.addFile (Merging.of f f.roots) = .ok m ↔
      (f.appendAll files).Joinable (f.appendAll files).roots ∧
        m = Merging.of (f.appendAll files) (f.appendAll files).roots := by
  induction files generalizing f with
  | nil =>
    have hnil : f.appendAll [] = f := rfl
    simp [hnil, hjoin, pure, Except.pure, eq_comm]
  | cons g rest ih =>
    have hg := hfiles g (by simp)
    have hrest : ∀ x ∈ rest, x.Separated := fun x hx => hfiles x (List.mem_cons_of_mem g hx)
    have hcons : f.appendAll (g :: rest) = (f.append g).appendAll rest := rfl
    have hroots := (hf.append hg).pairwise_behindAnchors
    rw [roots_append] at hroots
    have hstep : ∀ m', (Merging.of f f.roots).addFile g = .ok m' ↔
        (f.append g).Joinable (f.append g).roots ∧
          m' = Merging.of (f.append g) (f.append g).roots := by
      intro m'
      rw [Merging.addFile_of hf hg, roots_append]
      exact Merging.foldlM_addRoot_of ((joinable_append_roots hf hg).mpr hjoin) hroots
    rw [List.foldlM_cons, bind_eq_ok, hcons]
    simp only [hstep]
    constructor
    · rintro ⟨_, ⟨hnext, rfl⟩, h⟩
      exact (ih (hf.append hg) hrest hnext).mp h
    · rintro ⟨hall, hm⟩
      have hnext := hall.of_appendAll (hf.append hg) hrest
      exact ⟨_, ⟨hnext, rfl⟩, (ih (hf.append hg) hrest hnext).mpr ⟨hall, hm⟩⟩

theorem sources_mergedFile (files : List File) :
    (mergedFile files).sources = files.flatMap (·.sources) := by
  rw [mergedFile, sources_joinRoots, gathered, sources_appendAll]
  rfl

/-- Files can be merged if all their roots are mappings or there is but one, and what they are
merged into is known. -/
theorem merge_eq_ok_of_separated {files : List File} (hfiles : ∀ g ∈ files, g.Separated)
    {f : File} :
    merge files = .ok f ↔
      (gathered files).Joinable (gathered files).roots ∧ f = mergedFile files := by
  have hfold := fun m : Merging => Merging.foldlM_addFile_of (m := m) separated_emptyMerge hfiles
    (by simp [Joinable, roots, emptyMerge])
  unfold merge
  rw [bind_eq_ok]
  constructor
  · rintro ⟨m, hm, h⟩
    obtain ⟨hjoin, rfl⟩ := (hfold m).mp hm
    cases h
    exact ⟨hjoin, rfl⟩
  · rintro ⟨hjoin, rfl⟩
    exact ⟨_, (hfold _).mpr ⟨hjoin, rfl⟩, rfl⟩

theorem merge_eq_ok {files : List File} (hfiles : ∀ g ∈ files, g.Shaped) {f : File} :
    merge files = .ok f ↔
      (gathered files).Joinable (gathered files).roots ∧ f = mergedFile files :=
  merge_eq_ok_of_separated fun g hg => (hfiles g hg).separated

/-- Files have roots that can be joined if there is but one or all of them are those of mappings. -/
theorem joinable_gathered_iff {files : List File} (hfiles : ∀ g ∈ files, g.Separated) :
    (gathered files).Joinable (gathered files).roots ↔
      (files.flatMap (·.roots)).length ≤ 1 ∨
        ∀ g ∈ files, ∀ root ∈ g.roots, g.HasMapping root := by
  have hlength : (gathered files).roots.length = (files.flatMap (·.roots)).length := by
    conv_rhs => rw [← map_file_places emptyMerge files, List.flatMap_map]
    simp [roots_gathered, List.length_flatMap]
  have hmapping : ∀ p ∈ emptyMerge.places files, ∀ root ∈ p.file.roots,
      ((gathered files).HasMapping (root + p.offset) ↔ p.file.HasMapping root) := by
    intro p hp root hroot
    have hg := hfiles p.file (file_mem_of_mem_places hp)
    exact (embedsAt_of_mem_places hp).hasMapping_iff (separated_gathered hfiles) hg
      (hg.root_lt root hroot)
  rw [joinable_iff, hlength]
  refine or_congr_right ⟨fun h g hg root hroot => ?_, fun h root hroot => ?_⟩
  · rw [← map_file_places emptyMerge files] at hg
    obtain ⟨p, hp, rfl⟩ := List.mem_map.mp hg
    refine (hmapping p hp root hroot).mp (h _ ?_)
    exact mem_roots_gathered.mpr ⟨p, hp, root, hroot, rfl⟩
  · obtain ⟨p, hp, r, hr, rfl⟩ := mem_roots_gathered.mp hroot
    exact (hmapping p hp r hr).mpr (h p.file (file_mem_of_mem_places hp) r hr)

end File

end PipelineScripts.Yaml
