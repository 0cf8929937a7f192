import PipelineScripts.Proofs.Expansion

/-!
# Leaves of an expansion

An expansion ends at scalars. Its leaves are these scalars in order, each with the comments at the
sequence items that were passed on the way to it, from the section's value through anchors, tags,
aliases and references. The fragments of an expansion are made of its leaves, one of each, and the
directive of a fragment is put together from the comments of its leaf.
-/
namespace PipelineScripts.Script

open Yaml

/-- What a scalar holds, and the line its text starts on: the line below its header if it is a
block scalar. A folded one is read with its lines continued. -/
inductive ScriptAt (f : File) (id : NodeId) : String → Nat → Prop
  | scalar {value style} (hk : f.kind? id = some (.scalar value style)) :
      ScriptAt f id value (f.line id)
  | literal {value raw} (hk : f.kind? id = some (.block false value raw)) :
      ScriptAt f id value (f.line id + 1)
  | folded {value raw} (hk : f.kind? id = some (.block true value raw)) :
      ScriptAt f id (String.ofList (foldLiteral raw.toList)) (f.line id + 1)

/-- A scalar at which an expansion ends, with the comments at the sequence items on the way to it,
those of the outermost item first. -/
structure Leaf where
  node : NodeId
  comments : List (List Comment) := []
deriving DecidableEq, Repr

namespace Leaf

/-- The same leaf, seen from outside of a sequence item. -/
def inItem (comments : List Comment) (l : Leaf) : Leaf :=
  { l with comments := comments :: l.comments }

/-- The directives on the way to a leaf, put together from the outside in. -/
def directive (outer : Option Directive) (l : Leaf) : Option Directive :=
  l.comments.foldl
    (fun d comments => Directive.combine d (Directive.ofComments? (comments.map (·.text)))) outer

@[simp] theorem node_inItem (comments : List Comment) (l : Leaf) :
    (l.inItem comments).node = l.node := rfl

theorem directive_inItem (outer : Option Directive) (comments : List Comment) (l : Leaf) :
    (l.inItem comments).directive outer = l.directive
      (Directive.combine outer (Directive.ofComments? (comments.map (·.text)))) := rfl

end Leaf

/-- A fragment that is made of a leaf, below a directive. -/
structure Fragment.MadeOf (f : File) (outer : Option Directive) (l : Leaf) (x : Fragment) :
    Prop where
  script : ScriptAt f l.node x.text x.line
  directive : x.directive = l.directive outer
  source : x.source = f.sourceOf l.node

theorem ScriptAt.unique {f : File} {id : NodeId} {text text' : String} {line line' : Nat}
    (h : ScriptAt f id text line) (h' : ScriptAt f id text' line') :
    text = text' ∧ line = line' := by
  cases h with
  | scalar hk | literal hk | folded hk => cases h' <;> simp_all

theorem Fragment.MadeOf.unique {f : File} {outer : Option Directive} {l : Leaf} {x y : Fragment}
    (hx : x.MadeOf f outer l) (hy : y.MadeOf f outer l) : x = y := by
  obtain ⟨htext, hline⟩ := hx.script.unique hy.script
  have hdirective := hx.directive.trans hy.directive.symm
  have hsource := hx.source.trans hy.source.symm
  cases x
  cases y
  simp_all

namespace Scope

/-- The node that a node stands for: what an anchor or a tag is put on, and where an alias or a
reference leads. -/
def standsFor? (s : Scope) (id : NodeId) : Option NodeId :=
  match s.file.kind? id with
  | some (.anchor _ value) => some value
  | some (.tagged tag value) => if tag = referenceTag then s.resolveReference? id else some value
  | some (.aliasOf _) => s.aliases.target? id
  | _ => none

/-- A node without any script: a mapping, an entry, a reference that leads nowhere. -/
def HoldsNothing (s : Scope) (id : NodeId) : Prop :=
  match s.file.kind? id with
  | some (.mapping _) | some (.entry _ _ _) | none => True
  | some (.tagged tag _) => tag = referenceTag ∧ s.resolveReference? id = none
  | _ => False

/-- The leaves of a node in order. Those of a sequence are the leaves of its items, one item after
the other. -/
inductive LeadsTo (s : Scope) : NodeId → List Leaf → Prop
  | leaf {id text line} (h : ScriptAt s.file id text line) : LeadsTo s id [⟨id, []⟩]
  | through {id next leaves} (h : s.standsFor? id = some next) (hnext : LeadsTo s next leaves) :
      LeadsTo s id leaves
  | sequence {id items comments} {leaves : Nat → List Leaf}
      (hk : s.file.kind? id = some (.sequence items comments))
      (hitems : ∀ i item, items[i]? = some item → LeadsTo s item (leaves i)) :
      LeadsTo s id ((List.range items.length).flatMap fun i =>
        (leaves i).map (Leaf.inItem (comments[i]?.getD [])))
  | nothing {id} (h : s.HoldsNothing id) : LeadsTo s id []

/-! ### A node has one list of leaves -/

section Leaves

variable {s : Scope} {id : NodeId}

theorem standsFor?_of_scriptAt {text : String} {line : Nat} (h : ScriptAt s.file id text line) :
    s.standsFor? id = none := by
  cases h <;> simp_all [standsFor?]

theorem not_holdsNothing_of_scriptAt {text : String} {line : Nat}
    (h : ScriptAt s.file id text line) : ¬ s.HoldsNothing id := by
  cases h <;> simp_all [HoldsNothing]

theorem standsFor?_of_holdsNothing (h : s.HoldsNothing id) : s.standsFor? id = none := by
  unfold HoldsNothing at h
  unfold standsFor?
  split at h <;> simp_all

theorem not_scriptAt_of_sequence {items : List NodeId} {comments : List (List Comment)}
    (hk : s.file.kind? id = some (.sequence items comments)) {text : String} {line : Nat} :
    ¬ ScriptAt s.file id text line := by
  intro h
  cases h <;> simp_all

theorem LeadsTo.eq_nil_of_holdsNothing {leaves : List Leaf} (h : s.LeadsTo id leaves)
    (hnothing : s.HoldsNothing id) : leaves = [] := by
  cases h with
  | leaf hscript => exact absurd hnothing (not_holdsNothing_of_scriptAt hscript)
  | through hnext => simp [standsFor?_of_holdsNothing hnothing] at hnext
  | sequence hk => simp [HoldsNothing, hk] at hnothing
  | nothing => rfl

theorem LeadsTo.unique {leaves leaves' : List Leaf} (h : s.LeadsTo id leaves)
    (h' : s.LeadsTo id leaves') : leaves = leaves' := by
  induction h generalizing leaves' with
  | leaf hscript =>
    cases h' with
    | leaf => rfl
    | through hnext => simp [standsFor?_of_scriptAt hscript] at hnext
    | sequence hk => exact absurd hscript (not_scriptAt_of_sequence hk)
    | nothing hnothing => exact absurd hnothing (not_holdsNothing_of_scriptAt hscript)
  | through hnext _ ih =>
    cases h' with
    | leaf hscript => simp [standsFor?_of_scriptAt hscript] at hnext
    | through hnext' hleads' =>
      rw [hnext] at hnext'
      cases hnext'
      exact ih hleads'
    | sequence hk => simp [standsFor?, hk] at hnext
    | nothing hnothing => simp [standsFor?_of_holdsNothing hnothing] at hnext
  | @sequence id items comments leaves hk _ ih =>
    cases h' with
    | leaf hscript => exact absurd hscript (not_scriptAt_of_sequence hk)
    | through hnext => simp [standsFor?, hk] at hnext
    | @sequence _ items' comments' leaves' hk' hitems' =>
      rw [hk] at hk'
      cases hk'
      refine List.flatMap_congr fun i hi => ?_
      have hitem := List.getElem?_eq_getElem (List.mem_range.mp hi)
      rw [ih i _ hitem (hitems' i _ hitem)]
    | nothing hnothing => simp [HoldsNothing, hk] at hnothing
  | nothing hnothing => exact (h'.eq_nil_of_holdsNothing hnothing).symm

end Leaves

/-- Fragments that are made of leaves, one of each and in order. -/
abbrev MadeOfAll (s : Scope) (outer : Option Directive) (leaves : List Leaf)
    (out : List Fragment) : Prop :=
  List.Forall₂ (Fragment.MadeOf s.file outer) leaves out

/-- A sequence item hands what holds around it on to its leaves. -/
theorem madeOfAll_inItem {s : Scope} {outer : Option Directive} {comments : List (List Comment)}
    {i : Nat} {leaves : List Leaf} {part : List Fragment}
    (h : s.MadeOfAll (itemDirective outer comments i) leaves part) :
    s.MadeOfAll outer (leaves.map (Leaf.inItem (comments[i]?.getD []))) part := by
  rw [MadeOfAll, List.forall₂_map_left_iff]
  refine h.imp fun l x hx => ?_
  exact ⟨hx.script, hx.directive.trans (Leaf.directive_inItem outer _ l).symm, hx.source⟩

theorem madeOfAll_sequence {s : Scope} {outer : Option Directive} {comments : List (List Comment)}
    {leaves : Nat → List Leaf} {parts : List (List Fragment)}
    (h : ∀ i part, parts[i]? = some part →
      s.MadeOfAll (itemDirective outer comments i) (leaves i) part) :
    s.MadeOfAll outer ((List.range parts.length).flatMap fun i =>
      (leaves i).map (Leaf.inItem (comments[i]?.getD []))) parts.flatten := by
  have hparts : List.Forall₂ (fun i part => parts[i]? = some part) (List.range parts.length)
      parts := by
    rw [List.forall₂_iff_get]
    refine ⟨by simp, fun i hi hi' => ?_⟩
    simp [List.getElem?_eq_getElem hi']
  have hall : ∀ {is : List Nat} {ps : List (List Fragment)},
      List.Forall₂ (fun i part => parts[i]? = some part) is ps →
      s.MadeOfAll outer (is.flatMap fun i =>
        (leaves i).map (Leaf.inItem (comments[i]?.getD []))) ps.flatten := by
    intro is ps hps
    induction hps with
    | nil => exact .nil
    | cons hi _ ih => exact List.rel_append (madeOfAll_inItem (h _ _ hi)) ih
  exact hall hparts

/-- The fragments of an expansion are made of the leaves, and there are leaves wherever there is a
meaning. -/
theorem Expands.exists_leaves {s : Scope} {d : Option Directive} {id : NodeId}
    {out : List Fragment} (h : s.Expands d id out) :
    ∃ leaves, s.LeadsTo id leaves ∧ s.MadeOfAll d leaves out := by
  induction h with
  | scalar hk => exact ⟨_, .leaf (.scalar hk), .cons ⟨.scalar hk, rfl, rfl⟩ .nil⟩
  | literal hk => exact ⟨_, .leaf (.literal hk), .cons ⟨.literal hk, rfl, rfl⟩ .nil⟩
  | folded hk => exact ⟨_, .leaf (.folded hk), .cons ⟨.folded hk, rfl, rfl⟩ .nil⟩
  | @sequence d id items comments parts hk hlength hitems ih =>
    have hsome : ∀ i, ∃ leaves, ∀ item part, items[i]? = some item → parts[i]? = some part →
        s.LeadsTo item leaves ∧ s.MadeOfAll (itemDirective d comments i) leaves part := by
      intro i
      rcases Nat.lt_or_ge i items.length with hi | hi
      · have hi' : i < parts.length := by omega
        obtain ⟨leaves, hleaves⟩ :=
          ih i _ _ (List.getElem?_eq_getElem hi) (List.getElem?_eq_getElem hi')
        refine ⟨leaves, fun item part hitem hpart => ?_⟩
        rw [List.getElem?_eq_getElem hi] at hitem
        rw [List.getElem?_eq_getElem hi'] at hpart
        cases hitem
        cases hpart
        exact hleaves
      · refine ⟨[], fun item part hitem => ?_⟩
        rw [List.getElem?_eq_none hi] at hitem
        cases hitem
    choose leaves hleaves using hsome
    refine ⟨_, .sequence hk (fun i item hitem => ?_ : ∀ i item, items[i]? = some item →
      s.LeadsTo item (leaves i)), ?_⟩
    · have hi : i < parts.length := by
        have hlt := (List.getElem?_eq_some_iff.mp hitem).1
        omega
      exact (hleaves i item _ hitem (List.getElem?_eq_getElem hi)).1
    · rw [← hlength]
      refine madeOfAll_sequence fun i part hpart => ?_
      have hi : i < items.length := by
        have hlt := (List.getElem?_eq_some_iff.mp hpart).1
        omega
      exact (hleaves i _ part (List.getElem?_eq_getElem hi) hpart).2
  | anchor hk hvalue ih =>
    obtain ⟨leaves, hleads, hmade⟩ := ih
    exact ⟨leaves, .through (by simp [standsFor?, hk]) hleads, hmade⟩
  | tagged hk htag hvalue ih =>
    obtain ⟨leaves, hleads, hmade⟩ := ih
    exact ⟨leaves, .through (by simp [standsFor?, hk, htag]) hleads, hmade⟩
  | aliasOf hk htarget hvalue ih =>
    obtain ⟨leaves, hleads, hmade⟩ := ih
    exact ⟨leaves, .through (by simp [standsFor?, hk, htarget]) hleads, hmade⟩
  | reference hk hpath htarget hvalue ih =>
    obtain ⟨leaves, hleads, hmade⟩ := ih
    refine ⟨leaves, .through ?_ hleads, hmade⟩
    simp [standsFor?, hk, resolveReference?, hpath, htarget]
  | malformed hk hpath =>
    exact ⟨[], .nothing (by simp [HoldsNothing, hk, resolveReference?, hpath]), .nil⟩
  | notFound hk hpath htarget =>
    exact ⟨[], .nothing (by simp [HoldsNothing, hk, resolveReference?, hpath, htarget]), .nil⟩
  | mapping hk | entry hk | absent hk =>
    exact ⟨[], .nothing (by simp [HoldsNothing, hk]), .nil⟩

/-- A node has one meaning: its leaves are determined, and so is what is made of each. -/
theorem Expands.unique {s : Scope} {d : Option Directive} {id : NodeId} {out out' : List Fragment}
    (h : s.Expands d id out) (h' : s.Expands d id out') : out = out' := by
  obtain ⟨leaves, hleads, hmade⟩ := h.exists_leaves
  obtain ⟨leaves', hleads', hmade'⟩ := h'.exists_leaves
  rw [← hleads.unique hleads'] at hmade'
  have hunique : Relator.RightUnique (Fragment.MadeOf s.file d) := fun _ _ _ hx hy => hx.unique hy
  exact List.right_unique_forall₂' hunique hmade hmade'

end Scope

end PipelineScripts.Script
