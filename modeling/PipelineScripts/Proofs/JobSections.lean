import PipelineScripts.Proofs.Behind
import PipelineScripts.Script.Jobs

/-!
# Jobs and their sections

The jobs of a document are found among the entries of its root mapping. A job has its own sections
first. Behind them come those that its merge keys offer, in their order, each unless the job or a
section offered before has its key.
-/
namespace PipelineScripts.Script

open Yaml

/-- A job: its name and the entries of its mapping. -/
structure Job where
  name : String
  entries : List NodeId
deriving DecidableEq, Repr

namespace Scope

/-- An entry is a job that runs. Its key is a scalar, but no template's name and no merge key, and a
mapping stands behind its value. -/
def IsJob (s : Scope) (entry : NodeId) (j : Job) : Prop :=
  ∃ key value comments, s.file.kind? entry = some (.entry key value comments) ∧
    s.file.scalarText? key = some j.name ∧ j.name.toList.head? ≠ some '.' ∧ j.name ≠ mergeKey ∧
    s.IsMapping value j.entries

/-- The jobs among some entries, in order. -/
inductive JobsAmong (s : Scope) : List NodeId → List Job → Prop
  | nil : JobsAmong s [] []
  | job {entry entries j jobs} (h : s.IsJob entry j) (hrest : JobsAmong s entries jobs) :
      JobsAmong s (entry :: entries) (j :: jobs)
  | other {entry entries jobs} (h : ∀ j, ¬ s.IsJob entry j) (hrest : JobsAmong s entries jobs) :
      JobsAmong s (entry :: entries) jobs

/-- Of the sections that are offered, those whose key is neither among others nor offered before. -/
def inherited (f : File) (own offered : List NodeId) : List NodeId :=
  (offered.zipIdx.filter fun x =>
    (own ++ offered.take x.2).all fun e => f.entryKey? e != f.entryKey? x.1).map (·.1)

/-- The sections of a mapping with certain entries. -/
def sectionsInOrder (s : Scope) (entries : List NodeId) : List NodeId :=
  let own := entries.filter (isSection s.file)
  own ++ inherited s.file own (entries.flatMap (mergedSections s))

variable {s : Scope}

/-! ### Sections in order -/

theorem inherited_append_singleton (f : File) (own offered : List NodeId) (x : NodeId) :
    inherited f own (offered ++ [x]) = inherited f own offered ++
      if (own ++ offered).all fun e => f.entryKey? e != f.entryKey? x then [x] else [] := by
  have hfront : ∀ y ∈ offered.zipIdx, (offered ++ [x]).take y.2 = offered.take y.2 := by
    intro y hy
    have hlt := (List.mem_zipIdx hy).2.1
    rw [List.take_append_of_le_length (by omega)]
  unfold inherited
  rw [List.zipIdx_append, List.filter_append, List.map_append]
  congr 1
  · exact congrArg _ (List.filter_congr fun y hy => by rw [hfront y hy])
  · simp only [List.zipIdx_singleton, Nat.zero_add, List.filter_singleton, List.take_left,
      Bool.cond_eq_ite]
    split_ifs <;> rfl

/-- What is inherited has every key that is offered and that the others do not have. -/
theorem exists_key_iff (f : File) (own offered : List NodeId) (key : Option String) :
    (∃ e ∈ own ++ inherited f own offered, f.entryKey? e = key) ↔
      ∃ e ∈ own ++ offered, f.entryKey? e = key := by
  induction offered using List.reverseRecOn with
  | nil => rfl
  | append_singleton offered x ih =>
    rw [inherited_append_singleton]
    simp only [List.mem_append, or_and_right, exists_or] at ih ⊢
    split_ifs with hnew
    · rw [← or_assoc, ih, or_assoc]
    · simp only [List.mem_append, List.all_eq_true, bne_iff_ne, ne_eq, not_forall, not_not] at hnew
      obtain ⟨e, he, hkey⟩ := hnew
      simp only [List.not_mem_nil, false_and, exists_false, or_false, List.mem_singleton,
        exists_eq_left]
      rw [ih]
      constructor
      · rintro (h | h)
        · exact .inl h
        · exact .inr (.inl h)
      · rintro (h | h | h)
        · exact .inl h
        · exact .inr h
        · rcases he with he | he
          · exact .inl ⟨e, he, hkey.trans h⟩
          · exact .inr ⟨e, he, hkey.trans h⟩

theorem foldl_addMissing (f : File) (own offered : List NodeId) :
    offered.foldl (addMissing f) own = own ++ inherited f own offered := by
  induction offered using List.reverseRecOn with
  | nil => simp [inherited]
  | append_singleton offered x ih =>
    have hkeys := exists_key_iff f own offered (f.entryKey? x)
    have hall : ((own ++ inherited f own offered).all fun e => f.entryKey? e != f.entryKey? x) =
        (own ++ offered).all fun e => f.entryKey? e != f.entryKey? x := by
      rw [Bool.eq_iff_iff, ← not_iff_not]
      simpa only [List.all_eq_true, bne_iff_ne, ne_eq, not_forall, not_not, exists_prop] using hkeys
    rw [List.foldl_append, ih, List.foldl_cons, List.foldl_nil, addMissing, hall,
      inherited_append_singleton]
    split_ifs <;> simp

theorem jobSections_eq (s : Scope) (entries : List NodeId) :
    jobSections s entries = s.sectionsInOrder entries := foldl_addMissing _ _ _

/-- Every section has one of the keys of sections. -/
theorem isSection_of_mem_sectionsInOrder {entries : List NodeId} {entry : NodeId}
    (h : entry ∈ s.sectionsInOrder entries) : isSection s.file entry = true := by
  rcases List.mem_append.mp h with h | h
  · exact (List.mem_filter.mp h).2
  · obtain ⟨⟨x, i⟩, hx, rfl⟩ := List.mem_map.mp h
    have hmem := (List.mem_zipIdx (List.mem_filter.mp hx).1).2.2
    have hoffered : x ∈ entries.flatMap (mergedSections s) := by
      rw [hmem]
      exact List.getElem_mem _
    obtain ⟨e, -, hoffered⟩ := List.mem_flatMap.mp hoffered
    unfold mergedSections at hoffered
    split at hoffered
    next =>
      split_ifs at hoffered
      · obtain ⟨source, -, hsource⟩ := List.mem_flatMap.mp hoffered
        exact (List.mem_filter.mp hsource).2
      · simp at hoffered
    next => simp at hoffered

theorem exists_entry_of_isSection {f : File} {entry : NodeId} (h : isSection f entry = true) :
    ∃ key value comments, f.kind? entry = some (.entry key value comments) ∧
      ∃ text, f.scalarText? key = some text := by
  unfold isSection File.entryKey? at h
  split at h
  next text htext =>
    split at htext
    next key value comments hk => exact ⟨key, value, comments, hk, text, htext⟩
    next => cases htext
  next => cases h

/-! ### Jobs in order -/

/-- The sections of a job, each with what its blocks are named after and its number. -/
def jobEntries (s : Scope) (j : Job) : List (NodeId × String × Nat) :=
  (s.sectionsInOrder j.entries).zipIdx.map fun x =>
    (x.1, j.name ++ "_" ++ (s.file.entryKey? x.1).getD "", x.2)

theorem mem_sectionsInOrder_of_mem_jobEntries {j : Job} {x : NodeId × String × Nat}
    (h : x ∈ s.jobEntries j) : x.1 ∈ s.sectionsInOrder j.entries := by
  obtain ⟨y, hy, rfl⟩ := List.mem_map.mp h
  rw [(List.mem_zipIdx hy).2.2]
  exact List.getElem_mem _

theorem exists_mem_jobEntries {j : Job} {entry : NodeId} (h : entry ∈ s.sectionsInOrder j.entries) :
    ∃ x ∈ s.jobEntries j, x.1 = entry := by
  rw [← List.zipIdx_map_fst 0 (s.sectionsInOrder j.entries)] at h
  obtain ⟨y, hy, rfl⟩ := List.mem_map.mp h
  exact ⟨_, List.mem_map_of_mem hy, rfl⟩

theorem sectionsOf_of_isJob {entry : NodeId} {j : Job} (h : s.IsJob entry j) :
    sectionsOf s entry = s.jobEntries j := by
  obtain ⟨key, value, comments, hk, htext, hdot, hmerge, hmapping⟩ := h
  have hkey : s.file.entryKey? entry = some j.name := by simp only [File.entryKey?, hk, htext]
  have hentries := mappingEntries?_eq_some_iff.mpr hmapping
  have hjob : isJobKey j.name = true := by simp [isJobKey, hdot, hmerge]
  simp only [sectionsOf, hk, hkey, hjob, if_true, hentries, jobSections_eq, jobEntries]
  rw [← List.filterMap_eq_map]
  refine List.filterMap_congr fun x hx => ?_
  have hmem : x.1 ∈ s.sectionsInOrder j.entries := by
    rw [(List.mem_zipIdx hx).2.2]
    exact List.getElem_mem _
  obtain ⟨key', value', comments', hk', text, htext'⟩ :=
    exists_entry_of_isSection (isSection_of_mem_sectionsInOrder hmem)
  simp [File.entryKey?, hk', htext']

theorem sectionsOf_of_not_isJob {entry : NodeId} (h : ∀ j, ¬ s.IsJob entry j) :
    sectionsOf s entry = [] := by
  unfold sectionsOf
  split
  next key value comments name hk hname =>
    split_ifs with hjob
    · split
      next entries hentries =>
        simp only [isJobKey, Bool.and_eq_true, bne_iff_ne, ne_eq] at hjob
        simp only [File.entryKey?, hk] at hname
        exact absurd ⟨key, value, comments, hk, hname, hjob.1, hjob.2,
          mappingEntries?_eq_some_iff.mp hentries⟩ (h ⟨name, entries⟩)
      next => rfl
    · rfl
  next => rfl

/-- The sections that are found are those of the jobs, one job after the other. -/
theorem exists_jobsAmong (s : Scope) (entries : List NodeId) :
    ∃ jobs, s.JobsAmong entries jobs ∧
      entries.flatMap (sectionsOf s) = jobs.flatMap s.jobEntries := by
  induction entries with
  | nil => exact ⟨[], .nil, rfl⟩
  | cons entry rest ih =>
    obtain ⟨jobs, hjobs, hsections⟩ := ih
    by_cases hjob : ∃ j, s.IsJob entry j
    · obtain ⟨j, hj⟩ := hjob
      refine ⟨j :: jobs, .job hj hjobs, ?_⟩
      rw [List.flatMap_cons, List.flatMap_cons, hsections, sectionsOf_of_isJob hj]
    · have hnone := not_exists.mp hjob
      refine ⟨jobs, .other hnone hjobs, ?_⟩
      rw [List.flatMap_cons, hsections, sectionsOf_of_not_isJob hnone, List.nil_append]

end Scope

end PipelineScripts.Script
