import PipelineScripts.Proofs.Expansion
import PipelineScripts.Script.Decoding

/-!
# Where blocks come from

Every block of a file is made of one draft and one fragment of its expansion, under some name.
-/
namespace PipelineScripts.Script

open Yaml

/-- A fragment of some expansion in a file. -/
def Fragment.ExpandedIn (f : File) (fragment : Fragment) : Prop :=
  ∃ (s : Scope) (id : NodeId) (out : List Fragment),
    s.file = f ∧ s.expand id = .ok out ∧ fragment ∈ out

theorem expandedIn_of_entryFragments {s : Scope} {entry : NodeId} {fragments : List Fragment}
    (h : entryFragments s entry = .ok fragments) :
    ∀ fragment ∈ fragments, fragment.ExpandedIn s.file := by
  intro fragment hfragment
  unfold entryFragments at h
  split at h
  next value _ _ => exact ⟨s, value, fragments, rfl, h, hfragment⟩
  next =>
    cases h
    simp at hfragment

theorem expandedIn_of_jobDrafts {f : File} {drafts : List Draft}
    (h : jobDrafts f = .ok drafts) {d : Draft} (hd : d ∈ drafts) :
    ∀ fragment ∈ d.fragments, fragment.ExpandedIn f := by
  unfold jobDrafts at h
  split at h
  next =>
    cases h
    simp at hd
  next root hroot =>
    obtain ⟨aliases, -, h⟩ := bind_eq_ok.mp h
    obtain ⟨⟨entry, base, index⟩, -, part, hpart, hmem⟩ := exists_of_mem_concatResults h hd
    obtain ⟨fragments, hfragments, rfl⟩ := map_eq_ok.mp hpart
    have heq : d = ⟨entry, base, index, fragments⟩ := by simpa using hmem
    subst heq
    exact expandedIn_of_entryFragments hfragments

/-- The scope of a document of a file. -/
structure Scope.IsOf (f : File) (s : Scope) : Prop where
  file : s.file = f
  root : some s.root ∈ f.documents
  aliases : AliasMap.build f s.root = .ok s.aliases

/-- A draft of a mapping entry, with the expansion of its value. -/
def Draft.IsExpanded (s : Scope) (d : Draft) : Prop :=
  ∃ key value comments, s.file.kind? d.entry = some (.entry key value comments) ∧
    s.expand value = .ok d.fragments

theorem Draft.IsExpanded.expandedIn {s : Scope} {d : Draft} (h : d.IsExpanded s) :
    ∀ fragment ∈ d.fragments, fragment.ExpandedIn s.file := by
  obtain ⟨key, value, comments, -, hexpand⟩ := h
  exact fun fragment hfragment => ⟨s, value, d.fragments, rfl, hexpand, hfragment⟩

/-- The walk for annotated entries, at any depth. -/
theorem isExpanded_of_annotatedWithin {s : Scope} {covered : List NodeId} {depth : Nat} :
    ∀ {id : NodeId} {drafts : List Draft}, annotatedWithin s covered depth id = .ok drafts →
      ∀ d ∈ drafts, d.IsExpanded s := by
  induction depth with
  | zero => intro id drafts h; cases h
  | succ depth ih =>
    intro id drafts h d hd
    rw [annotatedWithin] at h
    split at h
    next =>
      obtain ⟨entry, -, part, hpart, hmem⟩ := exists_of_mem_concatResults h hd
      exact ih hpart d hmem
    next =>
      obtain ⟨item, -, part, hpart, hmem⟩ := exists_of_mem_concatResults h hd
      exact ih hpart d hmem
    next => exact ih h d hd
    next => exact ih h d hd
    next key value comments hk =>
      split_ifs at h
      · cases h
        simp at hd
      · exact ih h d hd
      · split at h
        next => cases h
        next => exact ih h d hd
        next fragments _ hexpand =>
          cases h
          have heq := List.mem_singleton.mp hd
          subst heq
          exact ⟨key, value, comments, hk, hexpand⟩
    next =>
      cases h
      simp at hd

theorem exists_of_mem_numbered {count : Nat} {drafts : List Draft} {d : Draft}
    (h : d ∈ Draft.numbered count drafts) : ∃ d' ∈ drafts, ∃ index, d = { d' with index } := by
  induction drafts generalizing count with
  | nil => simp [Draft.numbered] at h
  | cons d' rest ih =>
    rcases List.mem_cons.mp h with rfl | h
    · exact ⟨d', by simp, count, rfl⟩
    · obtain ⟨x, hx, hindex⟩ := ih h
      exact ⟨x, List.mem_cons_of_mem d' hx, hindex⟩

theorem isExpanded_of_annotatedDrafts {f : File} {covered : List NodeId} {drafts : List Draft}
    (h : annotatedDrafts f covered = .ok drafts) {d : Draft} (hd : d ∈ drafts) :
    ∃ s, Scope.IsOf f s ∧ d.IsExpanded s := by
  obtain ⟨found, hall, rfl⟩ := map_eq_ok.mp h
  obtain ⟨d', hd', index, rfl⟩ := exists_of_mem_numbered hd
  obtain ⟨root, hroot, part, hpart, hmem⟩ := exists_of_mem_concatResults hall hd'
  obtain ⟨aliases, hbuild, hpart⟩ := bind_eq_ok.mp hpart
  have hdocument : some root ∈ f.documents := by simpa using hroot
  exact ⟨⟨f, root, aliases⟩, ⟨rfl, hdocument, hbuild⟩, isExpanded_of_annotatedWithin hpart d' hmem⟩

theorem expandedIn_of_annotatedDrafts {f : File} {covered : List NodeId} {drafts : List Draft}
    (h : annotatedDrafts f covered = .ok drafts) {d : Draft} (hd : d ∈ drafts) :
    ∀ fragment ∈ d.fragments, fragment.ExpandedIn f := by
  obtain ⟨s, ⟨rfl, -, -⟩, hexpanded⟩ := isExpanded_of_annotatedDrafts h hd
  exact hexpanded.expandedIn

theorem BlockNames.length_reserveAll (names : BlockNames) (requests : List (String × Nat)) :
    (names.reserveAll requests).1.length = requests.length := by
  induction requests generalizing names with
  | nil => rfl
  | cons request rest ih => simp [BlockNames.reserveAll, ih]

/-- The blocks of a draft are made of its fragments, one of each. -/
theorem Draft.forall₂_blocks (f : File) (shell : String) (names : BlockNames) (d : Draft) :
    List.Forall₂ (fun x b => ∃ name, b = d.block f shell x name) d.fragments
      (d.blocks f shell names).1 := by
  have hlength := BlockNames.length_reserveAll names d.requests
  have hrequests : d.requests.length = d.fragments.length := by simp [Draft.requests]
  unfold Draft.blocks
  generalize names.reserveAll d.requests = given at hlength
  obtain ⟨given, names'⟩ := given
  dsimp only at hlength
  refine List.forall₂_iff_get.mpr ⟨?_, fun i hi hi' => ?_⟩
  · simp only [List.length_zipWith]
    omega
  · simp only [List.get_eq_getElem, List.getElem_zipWith]
    exact ⟨_, rfl⟩

theorem mem_blocks {f : File} {shell : String} {names : BlockNames} {d : Draft} {b : Block}
    (h : b ∈ (d.blocks f shell names).1) :
    ∃ fragment ∈ d.fragments, ∃ name, b = d.block f shell fragment name :=
  exists_left_of_mem (d.forall₂_blocks f shell names) h

theorem mem_blocksOfAll {f : File} {shell : String} {names : BlockNames} {drafts : List Draft}
    {b : Block} (h : b ∈ (Draft.blocksOfAll f shell names drafts).1) :
    ∃ d ∈ drafts, ∃ fragment ∈ d.fragments, ∃ name, b = d.block f shell fragment name := by
  induction drafts generalizing names with
  | nil => simp [Draft.blocksOfAll] at h
  | cons d rest ih =>
    rcases List.mem_append.mp h with h | h
    · obtain ⟨fragment, hfragment, name, rfl⟩ := mem_blocks h
      exact ⟨d, by simp, fragment, hfragment, name, rfl⟩
    · obtain ⟨d', hd', hb⟩ := ih h
      exact ⟨d', List.mem_cons_of_mem d hd', hb⟩

/-- Every block of a file is one fragment of an expansion, dressed as the block of a draft. -/
theorem exists_fragment_of_decode {f : File} {shell : String} {blocks : List Block}
    (h : decode f shell = .ok blocks) {b : Block} (hb : b ∈ blocks) :
    ∃ d fragment name, fragment.ExpandedIn f ∧ b = Draft.block f shell d fragment name := by
  obtain ⟨⟨jobs, names⟩, hjobs, h⟩ := bind_eq_ok.mp h
  obtain ⟨⟨annotated, names'⟩, hannotated, h⟩ := bind_eq_ok.mp h
  cases h
  obtain ⟨jobDrafts, hjobDrafts, hjobs⟩ := map_eq_ok.mp hjobs
  obtain ⟨others, hothers, hannotated⟩ := map_eq_ok.mp hannotated
  rcases List.mem_append.mp hb with hb | hb
  · have hb' : b ∈ (Draft.blocksOfAll f shell {} jobDrafts).1 := by rw [hjobs]; exact hb
    obtain ⟨d, hd, fragment, hfragment, name, rfl⟩ := mem_blocksOfAll hb'
    exact ⟨d, fragment, name, expandedIn_of_jobDrafts hjobDrafts hd fragment hfragment, rfl⟩
  · have hb' : b ∈ (Draft.blocksOfAll f shell names others).1 := by rw [hannotated]; exact hb
    obtain ⟨d, hd, fragment, hfragment, name, rfl⟩ := mem_blocksOfAll hb'
    exact ⟨d, fragment, name, expandedIn_of_annotatedDrafts hothers hd fragment hfragment, rfl⟩

end PipelineScripts.Script
