import PipelineScripts.Proofs.JobSections
import PipelineScripts.Proofs.LeafBlocks

/-!
# Sections without anchors, aliases, tags and merge keys

Where a document has none of them, a job has its own sections only, and the leaves of a section are
the scalars that stand in its value: the value itself, or the scalars in its sequences at any
depth. What stands in a mapping is no script. If a section has no mappings these are all the
scalars below its value.
-/
namespace PipelineScripts.Yaml.File

open Script Relation

/-- A node without an anchor, an alias or a tag, and no entry with a merge key. -/
def IsPlain (f : File) (id : NodeId) : Prop :=
  (match f.kind? id with
    | some (.anchor _ _) | some (.aliasOf _) | some (.tagged _ _) => False
    | _ => True) ∧ f.entryKey? id ≠ some mergeKey

/-- All nodes of a tree are plain. -/
def PlainBelow (f : File) (id : NodeId) : Prop := ∀ x, ReflTransGen f.Below id x → f.IsPlain x

/-- The scalars in the sequences of a tree, to a depth. -/
def sequenceScalarsWithin (f : File) : Nat → NodeId → List NodeId
  | 0, _ => []
  | depth + 1, id =>
    match f.kind? id with
    | some (.scalar _ _) | some (.block _ _ _) => [id]
    | some (.sequence items _) => items.flatMap (f.sequenceScalarsWithin depth)
    | _ => []

/-- The scalar at a node, or those in its sequences at any depth. -/
def sequenceScalars (f : File) (id : NodeId) : List NodeId :=
  f.sequenceScalarsWithin f.nodes.size id

def isScalarAt (f : File) (id : NodeId) : Bool :=
  match f.kind? id with
  | some (.scalar _ _) | some (.block _ _ _) => true
  | _ => false

/-- A tree of sequences and scalars. -/
def OnlySequences (f : File) (id : NodeId) : Prop :=
  ∀ x ∈ f.preorder id, f.isScalarAt x = true ∨
    ∃ items comments, f.kind? x = some (.sequence items comments)

variable {f : File} {id : NodeId}

theorem PlainBelow.self (h : f.PlainBelow id) : f.IsPlain id := h id .refl

theorem PlainBelow.child (h : f.PlainBelow id) {child : NodeId} (hchild : f.Below id child) :
    f.PlainBelow child := fun x hx => h x (.head hchild hx)

theorem sequenceScalarsWithin_eq_filter {depth : Nat}
    (h : ∀ x ∈ f.preorderWithin depth id, f.isScalarAt x = true ∨
      ∃ items comments, f.kind? x = some (.sequence items comments)) :
    f.sequenceScalarsWithin depth id = (f.preorderWithin depth id).filter f.isScalarAt := by
  induction depth generalizing id with
  | zero => rfl
  | succ depth ih =>
    rw [preorderWithin] at h ⊢
    rw [sequenceScalarsWithin, List.filter_cons]
    rcases h id (by simp) with hscalar | ⟨items, comments, hk⟩
    · rw [if_pos hscalar]
      unfold isScalarAt at hscalar
      split at hscalar
      next hk => simp [hk, children_of_kind? hk, NodeKind.children]
      next hk => simp [hk, children_of_kind? hk, NodeKind.children]
      next => cases hscalar
    · have hno : f.isScalarAt id = false := by simp [isScalarAt, hk]
      have hchildren : f.children id = items := children_of_kind? hk
      rw [hno, if_neg (by simp), hchildren, List.filter_flatMap]
      simp only [hk]
      refine List.flatMap_congr fun item hitem => ih fun x hx => h x ?_
      rw [hchildren]
      exact List.mem_cons_of_mem _ (List.mem_flatMap.mpr ⟨item, hitem, hx⟩)

/-- In a tree of sequences and scalars no scalar is left out. -/
theorem sequenceScalars_eq_filter (h : f.OnlySequences id) :
    f.sequenceScalars id = (f.preorder id).filter f.isScalarAt :=
  sequenceScalarsWithin_eq_filter h

end PipelineScripts.Yaml.File

namespace PipelineScripts.Script.Scope

open Yaml

variable {s : Scope} {id : NodeId}

/-- An anchor or an alias stands for the node that is looked at next. -/
theorem standsFor?_of_unwrapStep {next : NodeId} (h : s.unwrapStep id = some next) :
    s.standsFor? id = some next := by
  unfold unwrapStep at h
  split at h
  next name value hk => simpa [standsFor?, hk] using h
  next name hk => simpa [standsFor?, hk] using h
  next => cases h

theorem standsFor?_of_isPlain (h : s.file.IsPlain id) : s.standsFor? id = none := by
  obtain ⟨hkind, -⟩ := h
  unfold standsFor?
  split at hkind
  · exact hkind.elim
  · exact hkind.elim
  · exact hkind.elim
  · next hanchor halias htag =>
    split
    next name value hk => exact absurd hk (hanchor name value)
    next tag value hk => exact absurd hk (htag tag value)
    next name hk => exact absurd hk (halias name)
    next => rfl

theorem unwrapStep_of_isPlain (h : s.file.IsPlain id) : s.unwrapStep id = none := by
  rw [Option.eq_none_iff_forall_ne_some]
  intro next hstep
  have hstands := standsFor?_of_unwrapStep hstep
  simp [standsFor?_of_isPlain h] at hstands

/-- A mapping behind a plain node is the node itself. -/
theorem IsMapping.of_isPlain {entries : List NodeId} (h : s.IsMapping id entries)
    (hplain : s.file.IsPlain id) : s.file.kind? id = some (.mapping entries) := by
  obtain ⟨target, hbehind, hk⟩ := h
  cases hbehind with
  | here => exact hk
  | step hstep => simp [unwrapStep_of_isPlain hplain] at hstep

theorem below_of_isMapping {entries : List NodeId} (h : s.IsMapping id entries)
    (hplain : s.file.IsPlain id) {entry : NodeId} (hentry : entry ∈ entries) :
    s.file.Below id entry := by
  rw [File.Below, File.children_of_kind? (h.of_isPlain hplain)]
  exact hentry

/-- Without merge keys a job has its own sections. -/
theorem sectionsInOrder_of_isPlain {entries : List NodeId}
    (h : ∀ e ∈ entries, s.file.IsPlain e) :
    s.sectionsInOrder entries = entries.filter (isSection s.file) := by
  have hnone : entries.flatMap (mergedSections s) = [] := by
    refine List.flatMap_eq_nil_iff.mpr fun e he => ?_
    unfold mergedSections
    split
    · rw [if_neg (h e he).2]
    · rfl
  simp [sectionsInOrder, hnone, inherited]

/-- The leaves of a plain section are the scalars in its sequences. -/
theorem LeadsTo.nodes_eq (hf : s.file.Acyclic) {leaves : List Leaf} (h : s.LeadsTo id leaves)
    (hplain : s.file.PlainBelow id) {depth : Nat} (hdepth : s.file.height id ≤ depth) :
    leaves.map (·.node) = s.file.sequenceScalarsWithin depth id := by
  induction h generalizing depth with
  | @leaf id text line hscript =>
    have hkind : ∃ k, s.file.kind? id = some k ∧
        ((∃ value style, k = .scalar value style) ∨
          ∃ folded value raw, k = .block folded value raw) := by
      cases hscript with
      | scalar hk => exact ⟨_, hk, .inl ⟨_, _, rfl⟩⟩
      | literal hk | folded hk => exact ⟨_, hk, .inr ⟨_, _, _, rfl⟩⟩
    obtain ⟨k, hk, hform⟩ := hkind
    have hpos := File.height_pos (File.lt_size_of_kind? hk)
    obtain ⟨depth, rfl⟩ : ∃ n, depth = n + 1 := ⟨depth - 1, by omega⟩
    rcases hform with ⟨value, style, rfl⟩ | ⟨folded, value, raw, rfl⟩
    · simp [File.sequenceScalarsWithin, hk]
    · simp [File.sequenceScalarsWithin, hk]
  | through hstands => simp [standsFor?_of_isPlain hplain.self] at hstands
  | @sequence id items comments leaves hk _ ih =>
    have hpos := File.height_pos (File.lt_size_of_kind? hk)
    obtain ⟨depth, rfl⟩ : ∃ n, depth = n + 1 := ⟨depth - 1, by omega⟩
    have hparts : (List.range items.length).map (fun i =>
        ((leaves i).map (Leaf.inItem (comments[i]?.getD []))).map (·.node)) =
          items.map (s.file.sequenceScalarsWithin depth) := by
      refine List.ext_getElem (by simp) fun i hi hi' => ?_
      have hlt : i < items.length := by simpa using hi
      have hbelow : s.file.Below id items[i] := by
        rw [File.Below, File.children_of_kind? hk]
        exact List.getElem_mem hlt
      have hheight := File.height_lt hf hbelow
      simpa [Function.comp_def] using ih i items[i] (List.getElem?_eq_getElem hlt)
        (hplain.child hbelow) (show s.file.height items[i] ≤ depth by omega)
    simp only [File.sequenceScalarsWithin, hk]
    rw [List.map_flatMap, List.flatMap_def, hparts, List.flatMap_def]
  | @nothing id hnothing =>
    cases depth with
    | zero => rfl
    | succ depth =>
      obtain ⟨hkind, -⟩ := hplain.self
      unfold HoldsNothing at hnothing
      rw [File.sequenceScalarsWithin]
      split
      next hk => simp [hk] at hnothing
      next hk => simp [hk] at hnothing
      next hk => simp [hk] at hnothing
      next => rfl

end PipelineScripts.Script.Scope
