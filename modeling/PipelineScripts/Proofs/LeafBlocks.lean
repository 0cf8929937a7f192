import PipelineScripts.Proofs.Blocks
import PipelineScripts.Proofs.CarriedDrafts
import PipelineScripts.Proofs.Leaves

/-!
# Blocks and the leaves they are made at

The blocks of a section are made at the leaves of its value, one at each leaf and in their order.
Text, line and file of a block are those of its leaf, and its path is that of the section's value.
-/
namespace PipelineScripts.Script

open Yaml

/-- A block is made at a leaf of the section that a mapping entry holds. -/
structure Block.MadeAt (f : File) (shell : String) (entry : NodeId) (l : Leaf) (b : Block) :
    Prop where
  script : ∃ text, ScriptAt f l.node text b.startLine ∧
    b.script = String.ofList (replaceInputs text.toList)
  file : b.file = f.sourceName (f.sourceOf l.node)
  entry_eq : b.entry = some entry
  value : ∃ key value comments, f.kind? entry = some (.entry key value comments) ∧
    b.path = f.path value ∧
    b.directive = Directive.combine (Directive.ofComments? (comments.map (·.text)))
      (l.directive none)
  shell : b.shell = Block.chooseShell b.directive shell

namespace Scope

/-- The leaves of the section that a mapping entry holds. -/
def EntryLeadsTo (s : Scope) (entry : NodeId) (leaves : List Leaf) : Prop :=
  ∃ key value comments, s.file.kind? entry = some (.entry key value comments) ∧
    s.LeadsTo value leaves

/-- The fragments of a section are made of its leaves. -/
theorem exists_entryLeaves {s : Scope} {entry key value : NodeId} {comments : List Comment}
    {fragments : List Fragment} (hk : s.file.kind? entry = some (.entry key value comments))
    (h : s.expand value = .ok fragments) :
    ∃ leaves, s.EntryLeadsTo entry leaves ∧ s.MadeOfAll none leaves fragments := by
  obtain ⟨leaves, hleads, hmade⟩ := (expands_of_expandWithin h).exists_leaves
  exact ⟨leaves, ⟨key, value, comments, hk, hleads⟩, hmade⟩

end Scope

namespace Draft

theorem madeAt_block {f : File} {shell name : String} {d : Draft} {key value : NodeId}
    {comments : List Comment} {l : Leaf} {x : Fragment}
    (hk : f.kind? d.entry = some (.entry key value comments)) (hx : x.MadeOf f none l) :
    (d.block f shell x name).MadeAt f shell d.entry l where
  script := ⟨x.text, hx.script, rfl⟩
  file := congrArg f.sourceName hx.source
  entry_eq := rfl
  value := by
    refine ⟨key, value, comments, hk, by simp only [block, path, hk], ?_⟩
    simp only [block, directive?, File.entryComments, hk, hx.directive]
  shell := rfl

/-- The blocks of a draft are made at the leaves its fragments are made of. -/
theorem madeAt_blocks {s : Scope} {d : Draft} {leaves : List Leaf} (shell : String)
    (names : BlockNames) (hleads : s.EntryLeadsTo d.entry leaves)
    (hmade : s.MadeOfAll none leaves d.fragments) :
    List.Forall₂ (Block.MadeAt s.file shell d.entry) leaves (d.blocks s.file shell names).1 := by
  obtain ⟨key, value, comments, hk, -⟩ := hleads
  have hblocks := d.forall₂_blocks s.file shell names
  generalize (d.blocks s.file shell names).1 = blocks at hblocks
  generalize d.fragments = fragments at hmade hblocks
  induction hmade generalizing blocks with
  | nil =>
    cases hblocks
    exact .nil
  | cons hx _ ih =>
    cases hblocks with
    | cons hb hrest =>
      obtain ⟨name, rfl⟩ := hb
      exact .cons (madeAt_block hk hx) (ih _ hrest)

end Draft

end PipelineScripts.Script
