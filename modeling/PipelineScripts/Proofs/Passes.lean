import PipelineScripts.Proofs.CarriedAliases
import PipelineScripts.Proofs.CarriedDrafts

/-!
# The two passes over a file

A file is gone through twice, once for its jobs and once for annotated entries. In a file with one
document and a mapping at its root, both passes go along the entries at the root.
-/
namespace PipelineScripts.Yaml.File

theorem behindAnchors_of_mapping {f : File} {root : NodeId} {entries : List NodeId}
    (h : f.kind? root = some (.mapping entries)) : f.behindAnchors root = root := by
  unfold behindAnchors
  cases f.nodes.size with
  | zero => rfl
  | succ fuel => rw [behindAnchorsWithin, h]

theorem rootEntries_of_mapping {f : File} {root : NodeId} {entries : List NodeId}
    (h : f.kind? root = some (.mapping entries)) : f.rootEntries root = entries := by
  rw [rootEntries, behindAnchors_of_mapping h, h]

/-- A file with at most one document, whose root is a mapping without an anchor. -/
structure OneMapping (f : File) : Prop where
  single : f.documents.length ≤ 1
  mapping : ∀ root ∈ f.roots, ∃ entries, f.kind? root = some (.mapping entries)

/-- The keys at the root of a file. -/
def rootKeys (f : File) : List String := (f.roots.flatMap f.rootEntries).filterMap f.entryKey?

instance (k : Option NodeKind) : Decidable (∃ entries, k = some (.mapping entries)) :=
  match k with
  | some (.mapping entries) => isTrue ⟨entries, rfl⟩
  | none | some (.scalar ..) | some (.block ..) | some (.sequence ..) | some (.entry ..)
  | some (.tagged ..) | some (.anchor ..) | some (.aliasOf _) => isFalse (by simp)

instance (f : File) : Decidable f.OneMapping :=
  decidable_of_iff (f.documents.length ≤ 1 ∧
      ∀ root ∈ f.roots, ∃ entries, f.kind? root = some (.mapping entries))
    ⟨fun h => ⟨h.1, h.2⟩, fun h => ⟨h.single, h.mapping⟩⟩

namespace OneMapping

variable {f : File} {root : NodeId}

theorem kind? (hf : f.OneMapping) (hroot : root ∈ f.roots) :
    f.kind? root = some (.mapping (f.rootEntries root)) := by
  obtain ⟨entries, hk⟩ := hf.mapping root hroot
  rw [rootEntries_of_mapping hk, hk]

theorem documents_cases (hf : f.OneMapping) :
    (f.documents = [] ∨ f.documents = [none]) ∨ ∃ root, f.documents = [some root] := by
  have hsingle := hf.single
  match hdocuments : f.documents with
  | [] => exact .inl (.inl rfl)
  | [none] => exact .inl (.inr rfl)
  | [some root] => exact .inr ⟨root, rfl⟩
  | _ :: _ :: _ =>
    rw [hdocuments] at hsingle
    simp at hsingle

theorem roots_eq (hf : f.OneMapping) (hroot : root ∈ f.roots) : f.roots = [root] := by
  rcases hf.documents_cases with (hnone | hnone) | ⟨r, hsome⟩
  · simp [roots, hnone] at hroot
  · simp [roots, hnone] at hroot
  · simp only [roots, hsome, List.filterMap_cons, id, List.filterMap_nil] at hroot ⊢
    rw [List.mem_singleton.mp hroot]

/-- The root comes first, then all that is below it. -/
theorem preorder_root (hf : f.OneMapping) (hacyclic : f.Acyclic) (hclosed : f.Closed)
    (hroot : root ∈ f.roots) : f.preorder root = root :: f.belowRoots := by
  have hk := hf.kind? hroot
  rw [preorder_eq hacyclic hclosed (lt_size_of_kind? hk), children_of_kind? hk, belowRoots,
    hf.roots_eq hroot, List.flatMap_singleton]
  rfl

end OneMapping

end PipelineScripts.Yaml.File

namespace PipelineScripts.Script

open Yaml

/-! ### Drafts of both passes -/

/-- What the two passes find: the scripts of jobs, and those of annotated entries. -/
structure Passes where
  jobs : List Block
  annotated : List Block

/-- Both passes over a file, each for itself. -/
def passes (f : File) (shell : String) : Except ExtractError Passes := do
  let (jobs, names) ← jobBlocks f shell {}
  let (annotated, _) ← annotatedBlocks f shell (jobs.filterMap (·.entry)) names
  return ⟨jobs, annotated⟩

theorem decode_eq_passes (f : File) (shell : String) :
    decode f shell = (passes f shell).map fun p => p.jobs ++ p.annotated := by
  unfold decode passes
  cases jobBlocks f shell {} with
  | error e => rfl
  | ok found =>
    obtain ⟨jobs, names⟩ := found
    show (annotatedBlocks f shell (jobs.filterMap (·.entry)) names >>= _) =
      Except.map _ (annotatedBlocks f shell (jobs.filterMap (·.entry)) names >>= _)
    cases annotatedBlocks f shell (jobs.filterMap (·.entry)) names <;> rfl

/-- The drafts of the two passes over a file. -/
structure FindsDrafts (f : File) (jobs annotated : List Draft) : Prop where
  jobs_eq : jobDrafts f = .ok jobs
  annotated_eq : concatResults (annotatedInDocument f (jobs.flatMap Draft.entries)) f.roots =
    .ok annotated

theorem Draft.contents_numbered (f : File) (shell : String) (count : Nat) (drafts : List Draft) :
    (Draft.numbered count drafts).flatMap (Draft.contents f shell) =
      drafts.flatMap (Draft.contents f shell) := by
  induction drafts generalizing count with
  | nil => rfl
  | cons d rest ih =>
    rw [Draft.numbered, List.flatMap_cons, List.flatMap_cons, ih]
    rfl

theorem exists_findsDrafts {f : File} {shell : String} {p : Passes}
    (h : passes f shell = .ok p) : ∃ jobs annotated, FindsDrafts f jobs annotated := by
  obtain ⟨⟨blocks, names⟩, hblocks, h⟩ := bind_eq_ok.mp h
  obtain ⟨⟨more, names'⟩, hmore, -⟩ := bind_eq_ok.mp h
  obtain ⟨jobs, hjobs, hmade⟩ := map_eq_ok.mp hblocks
  obtain ⟨numbered, hnumbered, -⟩ := map_eq_ok.mp hmore
  obtain ⟨annotated, hannotated, -⟩ := map_eq_ok.mp hnumbered
  have hentries := Draft.entries_blocksOfAll f shell {} jobs
  rw [hmade] at hentries
  dsimp only at hannotated hentries
  rw [hentries] at hannotated
  exact ⟨jobs, annotated, hjobs, hannotated⟩

/-- The blocks of the two passes are those of their drafts. -/
theorem FindsDrafts.exists_passes {f : File} {jobs annotated : List Draft}
    (h : FindsDrafts f jobs annotated) (shell : String) :
    ∃ p, passes f shell = .ok p ∧
      p.jobs.map Block.content = jobs.flatMap (Draft.contents f shell) ∧
      p.annotated.map Block.content = annotated.flatMap (Draft.contents f shell) := by
  have hentries := Draft.entries_blocksOfAll f shell {} jobs
  have hcontents := Draft.contents_blocksOfAll f shell {} jobs
  have hblocks : jobBlocks f shell {} = .ok (Draft.blocksOfAll f shell {} jobs) :=
    map_eq_ok.mpr ⟨jobs, h.jobs_eq, rfl⟩
  generalize Draft.blocksOfAll f shell {} jobs = made at hblocks hentries hcontents
  have hmore := Draft.contents_blocksOfAll f shell made.2 (Draft.numbered 0 annotated)
  have hannotated : annotatedBlocks f shell (made.1.filterMap (·.entry)) made.2 =
      .ok (Draft.blocksOfAll f shell made.2 (Draft.numbered 0 annotated)) := by
    rw [hentries]
    exact map_eq_ok.mpr ⟨_, map_eq_ok.mpr ⟨annotated, h.annotated_eq, rfl⟩, rfl⟩
  refine ⟨⟨made.1, _⟩, bind_eq_ok.mpr ⟨made, hblocks, bind_eq_ok.mpr ⟨_, hannotated, rfl⟩⟩,
    hcontents, ?_⟩
  rw [← Draft.contents_numbered f shell 0 annotated]
  exact hmore

/-! ### Along the entries at the root -/

/-- The drafts of the two passes, found along the entries at the roots. -/
structure FindsAtRoots (f : File) (w : AliasWalk) (jobs annotated : List Draft) : Prop where
  walk : ownWalk f = .ok w
  jobs_eq : concatResults
    (fun root => sectionDrafts ⟨f, root, ⟨w.targets⟩⟩ (f.rootEntries root)) f.roots = .ok jobs
  annotated_eq : concatResults (fun root => concatResults
    (annotatedWithin ⟨f, root, ⟨w.targets⟩⟩ (jobs.flatMap Draft.entries) (f.nodes.size - 1))
    (f.rootEntries root)) f.roots = .ok annotated

section OneMapping

variable {f : File} {root : NodeId}

theorem build_eq_ok (hf : f.OneMapping) (hacyclic : f.Acyclic) (hclosed : f.Closed)
    (hroot : root ∈ f.roots) {m : AliasMap} :
    AliasMap.build f root = .ok m ↔ ∃ w, ownWalk f = .ok w ∧ m = ⟨w.targets⟩ := by
  have hvisit : AliasWalk.visit f {} root = .ok {} := by
    simp only [AliasWalk.visit, hf.kind? hroot]
  have hwalk : (f.preorder root).foldlM (AliasWalk.visit f) {} = ownWalk f := by
    rw [hf.preorder_root hacyclic hclosed hroot, List.foldlM_cons, hvisit]
    rfl
  rw [AliasMap.build, hwalk, bind_eq_ok]
  simp only [pure, Except.pure, Except.ok.injEq, eq_comm]

theorem annotatedWithin_root (hf : f.OneMapping) (hroot : root ∈ f.roots) (aliases : AliasMap)
    (covered : List NodeId) : annotatedWithin ⟨f, root, aliases⟩ covered f.nodes.size root =
      concatResults (annotatedWithin ⟨f, root, aliases⟩ covered (f.nodes.size - 1))
        (f.rootEntries root) := by
  have hk := hf.kind? hroot
  have hlt := File.lt_size_of_kind? hk
  obtain ⟨depth, hdepth⟩ : ∃ depth, f.nodes.size = depth + 1 := ⟨f.nodes.size - 1, by omega⟩
  rw [hdepth, annotatedWithin]
  simp only [hk]
  rfl

/-- Both passes over a file with one mapping go along the entries of that mapping. -/
theorem findsDrafts_iff (hf : f.OneMapping) (hacyclic : f.Acyclic) (hclosed : f.Closed)
    {jobs annotated : List Draft} :
    FindsDrafts f jobs annotated ↔ ∃ w, FindsAtRoots f w jobs annotated := by
  rcases hf.documents_cases with hnone | ⟨root, hsome⟩
  · have hroots : f.roots = [] := by
      rcases hnone with hnone | hnone <;> simp [File.roots, hnone]
    have hjob : jobRoot? f = none := by
      rcases hnone with hnone | hnone <;> simp [jobRoot?, jobDocument?, hnone]
    have hwalk : ownWalk f = .ok {} := by
      rw [ownWalk, File.belowRoots, hroots]
      rfl
    constructor
    · rintro ⟨hjobs, hannotated⟩
      rw [jobDrafts, hjob] at hjobs
      rw [hroots] at hannotated
      exact ⟨{}, hwalk, by rw [hroots]; exact hjobs, by rw [hroots]; exact hannotated⟩
    · rintro ⟨w, -, hjobs, hannotated⟩
      rw [hroots] at hjobs hannotated
      exact ⟨by rw [jobDrafts, hjob]; exact hjobs, by rw [hroots]; exact hannotated⟩
  · have hroots : f.roots = [root] := by simp [File.roots, hsome]
    have hroot : root ∈ f.roots := by simp [hroots]
    have hjob : jobRoot? f = some root := by simp [jobRoot?, jobDocument?, hsome]
    have hdrafts : jobDrafts f = AliasMap.build f root >>= fun aliases =>
        sectionDrafts ⟨f, root, aliases⟩ (f.rootEntries root) := by
      rw [jobDrafts_eq hjob]
      simp only [Scope.mappingEntries?_of_mapping (s := ⟨f, root, _⟩) (hf.kind? hroot)]
      rfl
    have hfound : ∀ covered, annotatedInDocument f covered root = AliasMap.build f root >>=
        fun aliases => concatResults
          (annotatedWithin ⟨f, root, aliases⟩ covered (f.nodes.size - 1)) (f.rootEntries root) := by
      intro covered
      unfold annotatedInDocument
      simp only [annotatedWithin_root hf hroot]
    constructor
    · rintro ⟨hjobs, hannotated⟩
      rw [hdrafts] at hjobs
      rw [hroots, concatResults_singleton, hfound] at hannotated
      obtain ⟨aliases, hbuild, hjobs⟩ := bind_eq_ok.mp hjobs
      obtain ⟨aliases', hbuild', hannotated⟩ := bind_eq_ok.mp hannotated
      cases hbuild.symm.trans hbuild'
      obtain ⟨w, hw, rfl⟩ := (build_eq_ok hf hacyclic hclosed hroot).mp hbuild
      exact ⟨w, hw, by rw [hroots, concatResults_singleton]; exact hjobs,
        by rw [hroots, concatResults_singleton]; exact hannotated⟩
    · rintro ⟨w, hw, hjobs, hannotated⟩
      have hbuild := (build_eq_ok hf hacyclic hclosed hroot).mpr ⟨w, hw, rfl⟩
      rw [hroots, concatResults_singleton] at hjobs hannotated
      refine ⟨?_, ?_⟩
      · rw [hdrafts]
        exact bind_eq_ok.mpr ⟨_, hbuild, hjobs⟩
      · rw [hroots, concatResults_singleton, hfound]
        exact bind_eq_ok.mpr ⟨_, hbuild, hannotated⟩

end OneMapping

/-! ### Sources of fragments -/

/-- Every node is from one of the sources of the file. -/
def IsSourced (f : File) : Prop :=
  ∀ {id : NodeId} {n : Node}, f.node? id = some n → n.source < f.sources.length

/-- An expansion is made of scalars of the file, each from one of its sources. -/
theorem source_lt_of_expands {s : Scope} (hs : IsSourced s.file) {d : Option Directive}
    {id : NodeId}
    {out : List Fragment} (h : s.Expands d id out) :
    ∀ x ∈ out, x.source < s.file.sources.length := by
  have hnode : ∀ {id : NodeId} {k : NodeKind}, s.file.kind? id = some k →
      s.file.sourceOf id < s.file.sources.length := by
    intro id k hk
    obtain ⟨n, hn, -⟩ := Option.map_eq_some_iff.mp hk
    have hlt := hs hn
    simpa [File.sourceOf, hn] using hlt
  induction h with
  | scalar hk | literal hk | folded hk =>
    intro x hx
    rw [List.mem_singleton.mp hx]
    exact hnode hk
  | @sequence d id items comments parts hk hlength hitems ih =>
    intro x hx
    obtain ⟨part, hpart, hx⟩ := List.mem_flatten.mp hx
    obtain ⟨i, hi, rfl⟩ := List.getElem_of_mem hpart
    have hi' : i < items.length := by omega
    exact ih i _ _ (List.getElem?_eq_getElem hi') (List.getElem?_eq_getElem hi) x hx
  | anchor hk hvalue ih | aliasOf hk htarget hvalue ih | tagged hk htag hvalue ih
  | reference hk hpath htarget hvalue ih => exact ih
  | malformed | notFound | mapping | entry | absent => simp

theorem Fragment.ExpandedIn.source_lt {f : File} (hf : IsSourced f) {x : Fragment}
    (h : x.ExpandedIn f) : x.source < f.sources.length := by
  obtain ⟨s, id, out, rfl, hout, hx⟩ := h
  exact source_lt_of_expands hf (Scope.expands_of_expandWithin hout) x hx

theorem expandedIn_of_sectionDrafts {s : Scope} {entries : List NodeId} {drafts : List Draft}
    (h : sectionDrafts s entries = .ok drafts) {d : Draft} (hd : d ∈ drafts) :
    ∀ x ∈ d.fragments, x.ExpandedIn s.file := by
  obtain ⟨y, -, part, hpart, hd⟩ := exists_of_mem_concatResults h hd
  obtain ⟨fragments, hfragments, rfl⟩ := map_eq_ok.mp hpart
  rw [List.mem_singleton.mp hd]
  exact expandedIn_of_entryFragments hfragments

end PipelineScripts.Script
