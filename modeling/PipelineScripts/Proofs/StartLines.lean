import PipelineScripts.Proofs.BlockNodes
import PipelineScripts.Proofs.Blocks
import PipelineScripts.Proofs.Comments
import PipelineScripts.Proofs.CountedLines
import PipelineScripts.Proofs.Leaves
import PipelineScripts.Proofs.MetNodes

/-!
# Lines of scripts

A script in the text of a scalar starts on the line of a token, one in a block scalar on the line
below its header. Both are lines of the file, counted from one, and so are the lines that findings
in the script are moved to.
-/
namespace PipelineScripts.Yaml

/-- Every node of a text stands on a line from one on. -/
theorem one_le_line_of_mem_read {source : List Char} {events : List Event}
    (h : Event.read source = .ok events) {e : Event} (he : e ∈ events) {p : Properties}
    (hp : e.kind.properties? = some p) : 1 ≤ e.span.start.line := by
  obtain ⟨t, ht, hspan⟩ := (EventReader.runs_of_run h).exists_span he
    (EventKind.isNode_of_properties? hp)
  rw [← hspan]
  exact one_le_line_of_mem_scan ht

/-- A scalar stands on a line from one on. -/
def Node.ScalarCounts (n : Node) : Prop :=
  ∀ value style, n.kind = .scalar value style → 1 ≤ n.position.line

namespace File

theorem keptByMerging_scalarCounts : KeptByMerging Node.ScalarCounts where
  moved := by
    intro n offset source hn value style hk
    refine hn value style ?_
    cases hkind : n.kind <;> simp [hkind, NodeKind.mapChildren] at hk ⊢
    exact hk
  mapping := by
    rintro entries position path source value style ⟨⟩

theorem scalarCounts_of_read {keep : Bool} {name content : String} {f : File}
    (h : File.read keep name content = .ok f) : ∀ n ∈ f.nodes, n.ScalarCounts := by
  obtain ⟨source, events, aliases, hread, hf⟩ := exists_events_of_read h
  intro n hn value style hk
  obtain ⟨e, he, hnode, hposition⟩ := (made_and_stands hf n hn).2 value style hk
  obtain ⟨p, hp⟩ := Option.isSome_iff_exists.mp hnode
  rw [hposition]
  exact one_le_line_of_mem_read hread he hp

theorem FromReader.scalarCounts {f : File} (h : f.FromReader) : ∀ n ∈ f.nodes, n.ScalarCounts :=
  h.forall_nodes keptByMerging_scalarCounts scalarCounts_of_read

end File

end PipelineScripts.Yaml

namespace PipelineScripts.Script

open Yaml

/-- A script starts on a line from one on. -/
theorem ScriptAt.one_le_line {f : File} (hf : f.FromReader) {id : NodeId} {text : String}
    {line : Nat} (h : ScriptAt f id text line) : 1 ≤ line := by
  cases h with
  | scalar hk =>
    obtain ⟨n, hn, hkind⟩ := Option.map_eq_some_iff.mp hk
    have hcounts := hf.scalarCounts n (Array.mem_of_getElem? hn) _ _ hkind
    rwa [File.line, hn]
  | literal | folded => exact Nat.le_add_left 1 _

/-- Every block of a file starts on a line from one on. -/
theorem one_le_startLine {f : File} (hf : f.FromReader) {shell : String} {blocks : List Block}
    (h : decode f shell = .ok blocks) {b : Block} (hb : b ∈ blocks) : 1 ≤ b.startLine := by
  obtain ⟨d, fragment, name, ⟨s, id, out, rfl, hout, hmem⟩, rfl⟩ := exists_fragment_of_decode h hb
  obtain ⟨leaves, -, hmade⟩ := (Scope.expands_of_expandWithin hout).exists_leaves
  obtain ⟨l, hl⟩ : ∃ l, fragment.MadeOf s.file none l := by
    obtain ⟨i, hi, rfl⟩ := List.getElem_of_mem hmem
    have hi' : i < leaves.length := hmade.length_eq ▸ hi
    exact ⟨leaves[i], List.Forall₂.get hmade hi' hi⟩
  exact hl.script.one_le_line hf

end PipelineScripts.Script
