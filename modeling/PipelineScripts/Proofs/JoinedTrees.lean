import PipelineScripts.Proofs.Joining

/-!
# Trees of joined roots

When the entries of other roots are added to the first one, the trees below them are walked through
behind that of the first, and no cycle comes up.
-/
namespace PipelineScripts.Yaml.File

open Relation

/-- One mapping of a file was given more entries, from which nothing leads back to it. -/
structure ExtendedBy (f g : File) (m : NodeId) (entries more : List NodeId) : Prop where
  size : g.nodes.size = f.nodes.size
  other : ∀ x ≠ m, g.node? x = f.node? x
  before : f.kind? m = some (.mapping entries)
  after : g.kind? m = some (.mapping (entries ++ more))
  more_lt : ∀ x ∈ more, x < f.nodes.size
  apart : ∀ x ∈ more, ¬ ReflTransGen f.Below x m

namespace ExtendedBy

variable {f g : File} {m : NodeId} {entries more : List NodeId}

theorem below (h : f.ExtendedBy g m entries more) {a b : Nat} (hab : g.Below a b) :
    f.Below a b ∨ (a = m ∧ b ∈ more) := by
  by_cases ha : a = m
  · subst ha
    rw [Below, children_of_kind? h.after] at hab
    rcases List.mem_append.mp hab with hb | hb
    · exact .inl (by simpa [Below, children_of_kind? h.before, NodeKind.children] using hb)
    · exact .inr ⟨rfl, hb⟩
  · refine .inl ?_
    rw [Below, children, kind?, h.other a ha] at hab
    exact hab

/-- A way down is as before, or goes through the mapping to one of the new entries. It does so only
once. -/
theorem reach (h : f.ExtendedBy g m entries more) {a x : NodeId} (hax : ReflTransGen g.Below a x) :
    ReflTransGen f.Below a x ∨
      ReflTransGen f.Below a m ∧ ∃ b ∈ more, ReflTransGen f.Below b x := by
  induction hax with
  | refl => exact .inl .refl
  | tail _ hstep ih =>
    rcases ih with hreach | ⟨hid, b, hb, hreach⟩ <;>
      rcases h.below hstep with hbelow | ⟨rfl, hnew⟩
    · exact .inl (hreach.tail hbelow)
    · exact .inr ⟨hreach, _, hnew, .refl⟩
    · exact .inr ⟨hid, b, hb, hreach.tail hbelow⟩
    · exact absurd hreach (h.apart b hb)

/-- A cycle would lead from a new entry back to the mapping. -/
theorem acyclic (h : f.ExtendedBy g m entries more) (hf : f.Acyclic) : g.Acyclic := by
  intro a ha
  obtain ⟨c, hstep, hca⟩ := TransGen.head'_iff.mp ha
  rcases h.below hstep with hbelow | ⟨rfl, hnew⟩
  · rcases h.reach hca with hreach | ⟨hid, b, hb, hreach⟩
    · exact hf a (.head' hbelow hreach)
    · exact h.apart b hb ((hreach.tail hbelow).trans hid)
  · rcases h.reach hca with hreach | ⟨hid, -⟩
    · exact h.apart c hnew hreach
    · exact h.apart c hnew hid

theorem closed (h : f.ExtendedBy g m entries more) (hf : f.Closed) : g.Closed := by
  intro a b hab
  rw [h.size]
  rcases h.below hab with hbelow | ⟨-, hb⟩
  · exact hf hbelow
  · exact h.more_lt b hb

/-- Where no way leads to the mapping, nothing has changed. -/
theorem copies (h : f.ExtendedBy g m entries more) (hf : f.Acyclic) :
    f.CopiesNodes g id 0 {x | ¬ ReflTransGen f.Below x m} where
  acyclic := hf
  acyclic_copy := h.acyclic hf
  child_mem := fun ha hbelow hid => ha (.head hbelow hid)
  node := by
    intro x hx
    have hne : x ≠ m := fun heq => hx (heq ▸ .refl)
    rw [id, h.other x hne, Node.renamed_id, Option.map_id_fun, id]

theorem preorder_of_apart (h : f.ExtendedBy g m entries more) (hf : f.Acyclic) (hclosed : f.Closed)
    {x : NodeId} (hsize : x < f.nodes.size) (hx : ¬ ReflTransGen f.Below x m) :
    g.preorder x = f.preorder x := by
  have hsame := (h.copies hf).preorder hclosed (h.closed hclosed) hx hsize
  rwa [List.map_id, id] at hsame

/-- The new entries come behind the tree of the mapping. -/
theorem preorder_self (h : f.ExtendedBy g m entries more) (hf : f.Acyclic) (hclosed : f.Closed) :
    g.preorder m = f.preorder m ++ more.flatMap f.preorder := by
  have hid := lt_size_of_kind? h.before
  have hentries : entries.flatMap g.preorder = entries.flatMap f.preorder := by
    refine List.flatMap_congr fun x hx => ?_
    have hbelow : f.Below m x := by
      simpa [Below, children_of_kind? h.before, NodeKind.children] using hx
    exact h.preorder_of_apart hf hclosed (hclosed hbelow) fun hback => hf m (.head' hbelow hback)
  have hmore : more.flatMap g.preorder = more.flatMap f.preorder :=
    List.flatMap_congr fun x hx => h.preorder_of_apart hf hclosed (h.more_lt x hx) (h.apart x hx)
  rw [preorder_eq (h.acyclic hf) (h.closed hclosed) (h.size ▸ hid), preorder_eq hf hclosed hid,
    children_of_kind? h.before, children_of_kind? h.after]
  simp [NodeKind.children, hentries, hmore]

/-- They come behind the tree of every anchor before the mapping, too. -/
theorem preorder_of_anchors (h : f.ExtendedBy g m entries more) (hf : f.Acyclic)
    (hclosed : f.Closed) {root : NodeId} (hroot : ReflTransGen f.AnchorBefore root m) :
    g.preorder root = f.preorder root ++ more.flatMap f.preorder := by
  induction hroot using ReflTransGen.head_induction_on with
  | refl => exact h.preorder_self hf hclosed
  | @head a b hstep _ ih =>
    obtain ⟨name, hk⟩ := hstep
    have hne : a ≠ m := by
      rintro rfl
      cases hk.symm.trans h.before
    have hk' : g.kind? a = some (.anchor name b) := by rw [kind?, h.other a hne, ← kind?, hk]
    have hlt := lt_size_of_kind? hk
    rw [preorder_eq (h.acyclic hf) (h.closed hclosed) (h.size ▸ hlt), preorder_eq hf hclosed hlt,
      children_of_kind? hk, children_of_kind? hk']
    simp [NodeKind.children, ih]

end ExtendedBy

theorem below_of_mem_rootEntries {f : File} {root entry : NodeId}
    (h : entry ∈ f.rootEntries root) : f.Below (f.behindAnchors root) entry := by
  unfold rootEntries at h
  split at h
  next entries hk => simpa [Below, children_of_kind? hk, NodeKind.children] using h
  next => simp at h

theorem reach_of_mem_rootEntries {f : File} {root entry : NodeId} (h : entry ∈ f.rootEntries root) :
    ReflTransGen f.Below root entry :=
  (f.below_behindAnchors root).tail (below_of_mem_rootEntries h)

theorem Shaped.lt_of_mem_rootEntries {f : File} (hf : f.Shaped) {root entry : Nat}
    (h : entry ∈ f.rootEntries root) : entry < root :=
  Nat.lt_of_lt_of_le (hf.child_lt (below_of_mem_rootEntries h))
    (hf.le_of_reach (f.below_behindAnchors root))

/-- What joining does to the first root, if there is a mapping at it. -/
theorem extendedBy_joinRoots {f g : File} (hf : f.Separated) {first : NodeId}
    {others : List NodeId} (hroots : f.roots = first :: others) {entries : List NodeId}
    (hentries : f.kind? (f.behindAnchors first) = some (.mapping entries))
    (hg : g.nodes = (f.joinRoots f.roots).nodes) :
    f.ExtendedBy g (f.behindAnchors first) entries (others.flatMap f.rootEntries) := by
  rw [hroots, joinRoots] at hg
  have hnode : ∀ x, g.node? x = (f.extendMapping (f.behindAnchors first)
      (others.flatMap f.rootEntries)).node? x := by
    intro x
    rw [node?, node?, hg]
  have hapart := hf.apart
  rw [hroots] at hapart
  refine ⟨by rw [hg, size_extendMapping], fun x hx => ?_, hentries, ?_, ?_, ?_⟩
  · rw [hnode, node?_extendMapping_of_ne _ _ _ hx]
  · rw [kind?, hnode, ← kind?, kind?_extendMapping_self, hentries]
    rfl
  · intro x hx
    obtain ⟨root, -, hx⟩ := List.mem_flatMap.mp hx
    exact hf.closed (below_of_mem_rootEntries hx)
  · intro x hx hback
    obtain ⟨root, hroot, hx⟩ := List.mem_flatMap.mp hx
    exact (List.pairwise_cons.mp hapart).1 root hroot _ (f.below_behindAnchors first)
      ((reach_of_mem_rootEntries hx).trans hback)

theorem children_congr {f g : File} (h : f.nodes = g.nodes) : f.children = g.children := by
  funext x
  rw [children, children, kind?, kind?, node?, node?, h]

theorem preorder_congr {f g : File} (h : f.nodes = g.nodes) (id : NodeId) :
    f.preorder id = g.preorder id := by
  have hchildren := children_congr h
  unfold preorder
  rw [h]
  generalize g.nodes.size = fuel
  induction fuel generalizing id with
  | zero => rfl
  | succ fuel ih => rw [preorderWithin, preorderWithin, hchildren, funext ih]

/-- Joining its roots makes no cycle in a file. -/
theorem acyclic_and_closed_joinRoots {f g : File} (hf : f.Separated) (hjoin : f.Joinable f.roots)
    (hg : g.nodes = (f.joinRoots f.roots).nodes) : g.Acyclic ∧ g.Closed := by
  have hsame : g.nodes = f.nodes → g.Acyclic ∧ g.Closed := by
    intro hnodes
    have hbelow : g.Below = f.Below := by
      funext a b
      rw [Below, children_congr hnodes, Below]
    rw [Acyclic, Closed, hbelow, hnodes]
    exact ⟨hf.acyclic, hf.closed⟩
  cases hroots : f.roots with
  | nil => exact hsame (by rw [hg, hroots, joinRoots])
  | cons first others =>
    cases hothers : others with
    | nil =>
      exact hsame (by rw [hg, hroots, hothers, joinRoots, List.flatMap_nil, extendMapping_nil])
    | cons second rest =>
      rw [hroots, hothers] at hjoin
      obtain ⟨entries, hentries⟩ := (hjoin first rfl second List.mem_cons_self).1
      have hext := extendedBy_joinRoots hf hroots hentries hg
      exact ⟨hext.acyclic hf.acyclic, hext.closed hf.closed⟩

/-- The tree of the first root comes first, then the trees of the other roots' entries. -/
theorem preorder_joinRoots {f g : File} (hf : f.Separated) {first : NodeId} {others : List NodeId}
    (hroots : f.roots = first :: others) (hjoin : f.Joinable f.roots)
    (hg : g.nodes = (f.joinRoots f.roots).nodes) :
    g.preorder first =
      f.preorder first ++ others.flatMap fun root => (f.rootEntries root).flatMap f.preorder := by
  cases hothers : others with
  | nil =>
    have hsame : f.joinRoots f.roots = f := by simp [hroots, hothers, joinRoots]
    rw [hsame] at hg
    simp [preorder_congr hg]
  | cons second rest =>
    have hjoin' := hjoin
    rw [hroots, hothers] at hjoin'
    obtain ⟨entries, hentries⟩ := (hjoin' first rfl second (by simp)).1
    have hext := extendedBy_joinRoots hf hroots hentries hg
    rw [← hothers, ← List.flatMap_assoc]
    exact hext.preorder_of_anchors hf.acyclic hf.closed ((behindAnchors_eq_iff hf.acyclic).mp rfl).1

/-- The nodes below the roots, in document order. -/
def belowRoots (f : File) : List NodeId :=
  f.roots.flatMap fun root => (f.rootEntries root).flatMap f.preorder

theorem Shaped.lt_root_of_mem_belowRoots {f : File} (hf : f.Shaped) {x : Nat}
    (hx : x ∈ f.belowRoots) : ∃ root : Nat, root ∈ f.roots ∧ x < root := by
  obtain ⟨root, hroot, hx⟩ := List.mem_flatMap.mp hx
  obtain ⟨entry, hentry, hx⟩ := List.mem_flatMap.mp hx
  have hlt := hf.lt_of_mem_rootEntries hentry
  have hbelow : ∀ y ∈ f.preorder entry, y < root := by
    refine forall_mem_preorder (fun a b ha hab => ?_) hlt
    exact Nat.lt_trans (hf.child_lt hab) ha
  exact ⟨root, hroot, hbelow x hx⟩

theorem Shaped.lt_size_of_mem_belowRoots {f : File} (hf : f.Shaped) {x : Nat}
    (hx : x ∈ f.belowRoots) : x < f.nodes.size := by
  obtain ⟨root, hroot, hlt⟩ := hf.lt_root_of_mem_belowRoots hx
  exact Nat.lt_trans hlt (hf.root_lt root hroot)

end PipelineScripts.Yaml.File
