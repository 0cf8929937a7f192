import PipelineScripts.Proofs.Results
import PipelineScripts.Yaml.Merging
import PipelineScripts.Yaml.Reading

/-!
# Files from the reader

A file is read on its own or as one of several that belong together, and files are merged in any
number of rounds. What holds of every file that was read, and of a merged file if it holds of those
it is made of, holds of all of them.
-/
namespace PipelineScripts.Yaml.File

/-- A file is built from the events of its source with the unknown aliases replaced. -/
theorem exists_eventSource_of_read {keep : Bool} {name content : String} {f : File}
    (h : File.read keep name content = .ok f) :
    ∃ r, readEvents keep (content.toList.count '*' + 1) content.toList [] = .ok r ∧
      ofEvents? name r.source r.events r.aliases = some f := by
  obtain ⟨r, hr, h⟩ := bind_eq_ok.mp h
  split at h
  next file hfile =>
    cases h
    exact ⟨r, hr, hfile⟩
  next => cases h

/-- The nodes of a file that was read carry the comments of the source they are built from. -/
theorem exists_built_of_read {keep : Bool} {name content : String} {f : File}
    (h : File.read keep name content = .ok f) :
    ∃ (source : List Char) (events : List Event) (aliases : List (Nat × String))
        (documents : List (Option NodeId)) (b : TreeBuilder),
      TreeBuilder.documents? ⟨source, (Text.lines source).toArray, aliases⟩ (events.length + 1)
        { events } = some (documents, b) ∧
      f = ⟨name, [name], documents, TreeBuilder.attachComments b.nodes
        (SourceComments.find (Text.lines source) b.content)⟩ := by
  obtain ⟨r, -, hfile⟩ := exists_eventSource_of_read h
  obtain ⟨⟨documents, b⟩, hb, hf⟩ := Option.bind_eq_some_iff.mp hfile
  cases hf
  exact ⟨r.source, r.events, r.aliases, documents, b, hb, rfl⟩

/-- A file from the reader: one read on its own, one of several that belong together, or one that
such files were merged into. -/
inductive FromReader : File → Prop
  | alone {name content : String} {f : File} (h : File.parse name content = .ok f) : FromReader f
  | fragment {name content : String} {f : File} (h : File.parseFragment name content = .ok f) :
      FromReader f
  | merged {files : List File} {f : File} (hfiles : ∀ g ∈ files, FromReader g)
      (h : merge files = .ok f) : FromReader f

theorem FromReader.of_fragments {inputs : List (String × String)} {files : List File}
    (hinputs : inputs.mapM (fun i => File.parseFragment i.1 i.2) = .ok files) :
    ∀ g ∈ files, g.FromReader := by
  intro g hg
  obtain ⟨input, -, hinput⟩ := exists_of_mem_mapM hinputs hg
  exact .fragment hinput

/-- What holds of every file that was read and is kept by merging holds of all files. -/
theorem FromReader.of_read_of_merge {P : File → Prop} {f : File} (h : f.FromReader)
    (hread : ∀ {keep : Bool} {name content : String} {g : File},
      File.read keep name content = .ok g → P g)
    (hmerge : ∀ {files : List File} {g : File}, (∀ f ∈ files, P f) → merge files = .ok g → P g) :
    P f := by
  induction h with
  | alone h => exact hread h
  | fragment h => exact hread h
  | merged _ h ih => exact hmerge ih h

/-! ### Properties of nodes -/

/-- A property that nodes keep where files are merged: nodes are moved, and a root mapping gets more
entries. -/
structure KeptByMerging (P : Node → Prop) : Prop where
  moved : ∀ {n : Node} (offset source : Nat), P n →
    P { n with kind := n.kind.mapChildren (· + offset), source }
  mapping : ∀ entries position path source, P ⟨.mapping entries, position, path, source⟩

namespace KeptByMerging

variable {P : Node → Prop}

theorem appendNodes (hP : KeptByMerging P) {f g : File} (hf : ∀ n ∈ f.nodes, P n)
    (hg : ∀ n ∈ g.nodes, P n) : ∀ n ∈ (f.appendNodes g).nodes, P n := by
  intro n hn
  rcases Array.mem_append.mp hn with hn | hn
  · exact hf n hn
  · obtain ⟨original, horiginal, rfl⟩ := Array.mem_map.mp hn
    exact hP.moved _ _ (hg original horiginal)

theorem mergeRoot (hP : KeptByMerging P) {f f' : File} (hf : ∀ n ∈ f.nodes, P n)
    {destination source : NodeId} {name : String}
    (h : f.mergeRoot destination source name = .ok f') : ∀ n ∈ f'.nodes, P n := by
  unfold File.mergeRoot at h
  split at h
  next more hmore =>
    dsimp only at h
    split at h
    next entries position path n hn =>
      cases h
      intro x hx
      rcases Array.mem_or_eq_of_mem_setIfInBounds hx with hx | rfl
      · exact hf x hx
      · exact hP.mapping _ _ _ _
    next => cases h
  next => cases h

theorem addRoot (hP : KeptByMerging P) {name : String} {m m' : Merging} {root : NodeId}
    (hm : ∀ n ∈ m.file.nodes, P n) (h : m.addRoot name root = .ok m') :
    ∀ n ∈ m'.file.nodes, P n := by
  unfold Merging.addRoot at h
  split at h
  next =>
    cases h
    exact hm
  next destination hdestination =>
    obtain ⟨f, hf, rfl⟩ := map_eq_ok.mp h
    exact hP.mergeRoot hm hf

/-- A merged file has the property if all the files it is made of have it. -/
theorem merge (hP : KeptByMerging P) {files : List File} {f : File}
    (hfiles : ∀ g ∈ files, ∀ n ∈ g.nodes, P n) (h : File.merge files = .ok f) :
    ∀ n ∈ f.nodes, P n := by
  obtain ⟨m, hm, h⟩ := bind_eq_ok.mp h
  cases h
  suffices hfile : ∀ n ∈ m.file.nodes, P n from hfile
  refine foldlM_induct (fun m : Merging => ∀ n ∈ m.file.nodes, P n) ?_ ?_ hm
  · intro n hn
    simp at hn
  · intro m g hg hm m' hm'
    refine foldlM_induct (fun m : Merging => ∀ n ∈ m.file.nodes, P n) ?_ ?_ hm'
    · exact hP.appendNodes hm (hfiles g hg)
    · intro m root _ hm m' hm'
      exact hP.addRoot hm hm'

end KeptByMerging

/-- What merging keeps holds of all nodes if it holds of those of every file that was read. -/
theorem FromReader.forall_nodes {P : Node → Prop} {f : File} (h : f.FromReader)
    (hP : KeptByMerging P)
    (hread : ∀ {keep : Bool} {name content : String} {g : File},
      File.read keep name content = .ok g → ∀ n ∈ g.nodes, P n) : ∀ n ∈ f.nodes, P n :=
  h.of_read_of_merge (P := fun f => ∀ n ∈ f.nodes, P n) hread hP.merge

end PipelineScripts.Yaml.File
