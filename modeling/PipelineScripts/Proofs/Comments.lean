import PipelineScripts.Proofs.OneLine
import PipelineScripts.Proofs.ReadFiles

/-!
# Comments of files

A comment is part of one line, so no comment of a file that was read has a line feed. Merging moves
nodes and lengthens a root mapping; the comments stay as they are.
-/
namespace PipelineScripts.Yaml

open Text

/-- The comments a node carries. -/
def NodeKind.comments : NodeKind → List Comment
  | entry _ _ comments => comments
  | sequence _ comments => comments.flatten
  | _ => []

@[simp] theorem NodeKind.comments_mapChildren (f : NodeId → NodeId) (k : NodeKind) :
    (k.mapChildren f).comments = k.comments := by
  cases k <;> rfl

theorem oneLine_of_lineComment? {number : Nat} {line : List Char} {c : LineComment}
    (hline : '\n' ∉ line) (h : lineComment? number line = some c) : OneLine c.comment.text := by
  obtain ⟨i, -, rfl⟩ := Option.map_eq_some_iff.mp h
  intro hc
  rw [String.toList_ofList] at hc
  exact hline (List.mem_of_mem_drop hc)

namespace SourceComments

/-- No comment has a line feed. -/
def OneLine (s : SourceComments) : Prop :=
  ∀ line c, s.at? line = some c → Text.OneLine c.comment.text

theorem OneLine.find (source : List Char) (content : List LineRange) :
    (find (lines source) content).OneLine := by
  intro number c h
  unfold at? at h
  split_ifs at h with hzero
  have hfound := Option.join_eq_some_iff.mp h
  simp only [SourceComments.find, Array.getElem?_map, List.getElem?_toArray,
    List.getElem?_zipIdx, Option.map_map] at hfound
  obtain ⟨line, hline, hcomment⟩ := Option.map_eq_some_iff.mp hfound
  simp only [Function.comp_apply] at hcomment
  split_ifs at hcomment
  exact oneLine_of_lineComment? (newline_not_mem_of_mem_lines (List.mem_of_getElem? hline)) hcomment

theorem OneLine.aloneUpTo {s : SourceComments} (hs : s.OneLine) {n : Nat} {c : Comment}
    (h : c ∈ s.aloneUpTo n) : Text.OneLine c.text := by
  induction n with
  | zero => simp [SourceComments.aloneUpTo] at h
  | succ n ih =>
    rw [SourceComments.aloneUpTo] at h
    split at h
    next found hfound =>
      split_ifs at h
      · rcases List.mem_append.mp h with h | h
        · exact ih h
        · rw [List.mem_singleton.mp h]
          exact hs _ _ hfound
      · simp at h
    next => simp at h

theorem OneLine.groupFor {s : SourceComments} (hs : s.OneLine) {line : Nat} {c : Comment}
    (h : c ∈ s.groupFor line) : Text.OneLine c.text := by
  rcases List.mem_append.mp h with h | h
  · exact hs.aloneUpTo h
  · split at h
    next found hfound =>
      split_ifs at h
      · simp at h
      · rw [List.mem_singleton.mp h]
        exact hs _ _ hfound
    next => simp at h

end SourceComments

/-- No comment of a node has a line feed. -/
def Node.OneLineComments (n : Node) : Prop := ∀ c ∈ n.kind.comments, OneLine c.text

namespace File

/-- No comment of a file has a line feed. -/
def OneLineComments (f : File) : Prop := ∀ n ∈ f.nodes, n.OneLineComments

theorem OneLineComments.kind? {f : File} (hf : f.OneLineComments) {id : NodeId} {k : NodeKind}
    (h : f.kind? id = some k) {c : Comment} (hc : c ∈ k.comments) : OneLine c.text := by
  obtain ⟨n, hn, rfl⟩ := Option.map_eq_some_iff.mp h
  exact hf n (Array.mem_of_getElem? hn) c hc

theorem oneLineComments_attachComments {nodes : Array Node} {comments : SourceComments}
    (h : comments.OneLine) :
    ∀ n ∈ TreeBuilder.attachComments nodes comments, n.OneLineComments := by
  intro n hn c hc
  obtain ⟨original, -, rfl⟩ := Array.mem_map.mp hn
  -- Entries and sequences get their comments here; the others have none.
  split at hc
  next key value _ _ => exact h.groupFor hc
  next items _ _ =>
    obtain ⟨group, hgroup, hc⟩ := List.mem_flatten.mp hc
    obtain ⟨i, -, rfl⟩ := List.mem_map.mp hgroup
    exact h.groupFor hc
  next hentry hsequence =>
    unfold NodeKind.comments at hc
    split at hc
    next key value comments hk => exact absurd hk (hentry _ _ _)
    next items comments hk => exact absurd hk (hsequence _ _)
    next => simp at hc

/-- A file that was read has its comments from the lines of its source. -/
theorem oneLineComments_of_read {keep : Bool} {name content : String} {f : File}
    (h : File.read keep name content = .ok f) : f.OneLineComments := by
  obtain ⟨source, events, aliases, documents, b, -, rfl⟩ := exists_built_of_read h
  exact oneLineComments_attachComments (SourceComments.OneLine.find _ _)

/-- No file from the reader has a comment with a line feed. -/
theorem FromReader.oneLineComments {f : File} (h : f.FromReader) : f.OneLineComments := by
  refine h.forall_nodes ⟨?_, ?_⟩ oneLineComments_of_read
  · intro n offset source hn c hc
    exact hn c (by simpa using hc)
  · intro entries position path source c hc
    simp [NodeKind.comments] at hc

end File

end PipelineScripts.Yaml
