import PipelineScripts.Proofs.TreeShape
import PipelineScripts.Script.Jobs

/-!
# Where look-ups lead

A look-up goes down the tree and from aliases to what they stand for, and nowhere else. So do the
walks that collect the sections of jobs. Whatever is found stands in any set of nodes that these
steps do not leave.
-/
namespace PipelineScripts.Script

open Yaml Relation

namespace Scope

/-! ### Looking through anchors and aliases -/

/-- The node that an anchor or an alias leads to. -/
def unwrapStep (s : Scope) (id : NodeId) : Option NodeId :=
  match s.file.kind? id with
  | some (.anchor _ value) => some value
  | some (.aliasOf _) => s.aliases.target? id
  | _ => none

theorem unwrapWithin_succ (s : Scope) (fuel : Nat) (id : NodeId) :
    s.unwrapWithin (fuel + 1) id = (s.unwrapStep id).elim id (s.unwrapWithin fuel) := by
  rw [unwrapWithin, unwrapStep]
  cases s.file.kind? id with
  | none => rfl
  | some k =>
    cases k with
    | aliasOf name => cases s.aliases.target? id <;> rfl
    | scalar _ _ | block _ _ _ | sequence _ _ | mapping _ | entry _ _ _ | tagged _ _
    | anchor _ _ => rfl

theorem lt_size_of_unwrapStep {s : Scope} {id next : Nat} (h : s.unwrapStep id = some next) :
    id < s.file.nodes.size := by
  unfold unwrapStep at h
  split at h
  next hk => exact File.lt_size_of_kind? hk
  next hk => exact File.lt_size_of_kind? hk
  next => cases h

/-- Where one step is all there is, it is what looking through anchors and aliases does. -/
theorem unwrap_eq {s : Scope} {id : NodeId}
    (hnext : ∀ next, s.unwrapStep id = some next → s.unwrapStep next = none) :
    s.unwrap id = (s.unwrapStep id).getD id := by
  rw [unwrap, unwrapWithin_succ]
  cases hstep : s.unwrapStep id with
  | none => rfl
  | some next =>
    have hlt := lt_size_of_unwrapStep hstep
    obtain ⟨fuel, hfuel⟩ : ∃ fuel, s.file.nodes.size = fuel + 1 :=
      ⟨s.file.nodes.size - 1, by omega⟩
    rw [hfuel, Option.elim_some, unwrapWithin_succ s fuel next, hnext next hstep]
    rfl

theorem unwrapStep_of_bare {s : Scope} {id : NodeId} {k : NodeKind} (hk : s.file.kind? id = some k)
    (hbare : k.isBare = true) : s.unwrapStep id = none := by
  unfold unwrapStep
  rw [hk]
  cases k <;> simp_all [NodeKind.isBare]

theorem mappingEntries?_of_mapping {s : Scope} {id : NodeId} {entries : List NodeId}
    (hk : s.file.kind? id = some (.mapping entries)) : s.mappingEntries? id = some entries := by
  have hunwrap : s.unwrap id = id := by simp [unwrap, unwrapWithin, hk]
  simp [mappingEntries?, hunwrap, hk]

theorem valueOfKey?_eq_none {f : File} {key : String} {entry : NodeId}
    (h : f.entryKey? entry ≠ some key) : valueOfKey? f key entry = none := by
  unfold valueOfKey?
  split
  next hk =>
    rw [File.entryKey?, hk] at h
    rw [if_neg h]
  next => rfl

/-! ### Steps of look-ups -/

/-- A step of a look-up. -/
inductive Step (s : Scope) (a : NodeId) : NodeId → Prop
  | down {b} (h : s.file.Below a b) : Step s a b
  | aliasOf {b} (h : s.aliases.target? a = some b) : Step s a b

/-- No step of a look-up leaves a set of nodes. -/
def Encloses (s : Scope) (T : Set NodeId) : Prop := ∀ a b, a ∈ T → s.Step a b → b ∈ T

theorem Encloses.mem {s : Scope} {T : Set NodeId} (h : s.Encloses T) {a b : NodeId} (ha : a ∈ T)
    (hsteps : ReflTransGen s.Step a b) : b ∈ T := by
  induction hsteps with
  | refl => exact ha
  | tail _ hstep ih => exact h _ _ ih hstep

variable {s : Scope} {a b : NodeId}

theorem Step.of_kind? {k : NodeKind} (hk : s.file.kind? a = some k) (hb : b ∈ k.children) :
    s.Step a b := .down (by simpa [File.Below, File.children_of_kind? hk] using hb)

theorem step_of_unwrapStep (h : s.unwrapStep a = some b) : s.Step a b := by
  unfold unwrapStep at h
  split at h
  next hk =>
    cases h
    exact .of_kind? hk (by simp [NodeKind.children])
  next => exact .aliasOf h
  next => cases h

theorem steps_unwrapWithin (fuel : Nat) (a : NodeId) :
    ReflTransGen s.Step a (s.unwrapWithin fuel a) := by
  induction fuel generalizing a with
  | zero => exact .refl
  | succ fuel ih =>
    rw [unwrapWithin_succ]
    cases hstep : s.unwrapStep a with
    | none => exact .refl
    | some next => exact (ih next).head (step_of_unwrapStep hstep)

theorem steps_unwrap (s : Scope) (a : NodeId) : ReflTransGen s.Step a (s.unwrap a) :=
  steps_unwrapWithin _ a

theorem steps_of_mem_mappingEntries? {entries : List NodeId}
    (h : s.mappingEntries? a = some entries)
    (hb : b ∈ entries) : ReflTransGen s.Step a b := by
  unfold mappingEntries? at h
  split at h
  next hk =>
    cases h
    exact (s.steps_unwrap a).tail (.of_kind? hk hb)
  next => cases h

theorem steps_of_mem_getD_mappingEntries? (h : b ∈ (s.mappingEntries? a).getD []) :
    ReflTransGen s.Step a b := by
  cases hentries : s.mappingEntries? a with
  | none => simp [hentries] at h
  | some entries => exact steps_of_mem_mappingEntries? hentries (by simpa [hentries] using h)

theorem step_of_valueOfKey? {key : String} (h : valueOfKey? s.file key a = some b) :
    s.Step a b := by
  unfold valueOfKey? at h
  split at h
  next hk =>
    split_ifs at h
    cases h
    exact .of_kind? hk (by simp [NodeKind.children])
  next => cases h

theorem steps_of_lookup? {key : String} (h : s.lookup? a key = some b) :
    ReflTransGen s.Step a b := by
  obtain ⟨entries, hentries, h⟩ := Option.bind_eq_some_iff.mp h
  obtain ⟨entry, hentry, hvalue⟩ := List.exists_of_findSome?_eq_some h
  have hsteps := steps_of_mem_mappingEntries? hentries (List.mem_reverse.mp hentry)
  exact hsteps.tail (step_of_valueOfKey? hvalue)

theorem resolvePath?_cons (s : Scope) (a : NodeId) (key : String) (rest : List String) :
    s.resolvePath? a (key :: rest) = (s.lookup? a key).bind fun b => s.resolvePath? b rest :=
  List.foldlM_cons

/-- Following keys. -/
theorem steps_of_resolvePath? {keys : List String} (h : s.resolvePath? a keys = some b) :
    ReflTransGen s.Step a b := by
  induction keys generalizing a with
  | nil =>
    cases h
    exact .refl
  | cons key rest ih =>
    rw [resolvePath?_cons] at h
    obtain ⟨next, hnext, h⟩ := Option.bind_eq_some_iff.mp h
    exact (steps_of_lookup? hnext).trans (ih h)

/-! ### Sections of jobs -/

theorem steps_of_mem_mergeSources (h : b ∈ mergeSources s a) : ReflTransGen s.Step a b := by
  have hsteps := s.steps_unwrap a
  unfold mergeSources at h
  dsimp only at h
  split at h
  next items comments hk => exact hsteps.tail (.of_kind? hk h)
  next =>
    obtain rfl := List.mem_singleton.mp h
    exact hsteps

theorem steps_of_mem_mergedSections (h : b ∈ mergedSections s a) : ReflTransGen s.Step a b := by
  unfold mergedSections at h
  split at h
  next key value comments hk =>
    split_ifs at h
    · obtain ⟨source, hsource, h⟩ := List.mem_flatMap.mp h
      have hvalue : s.Step a value := .of_kind? hk (by simp [NodeKind.children])
      exact ((steps_of_mem_mergeSources hsource).head hvalue).trans
        (steps_of_mem_getD_mappingEntries? (List.mem_filter.mp h).1)
    · simp at h
  next => simp at h

theorem mem_addMissing {f : File} {sections : List NodeId} (h : b ∈ addMissing f sections a) :
    b ∈ sections ∨ b = a := by
  unfold addMissing at h
  split_ifs at h
  · simpa using h
  · exact .inl h

theorem mem_foldl_addMissing {f : File} {sections more : List NodeId}
    (h : b ∈ more.foldl (addMissing f) sections) : b ∈ sections ∨ b ∈ more := by
  induction more generalizing sections with
  | nil => exact .inl h
  | cons entry rest ih =>
    rcases ih h with h | h
    · rcases mem_addMissing h with h | rfl
      · exact .inl h
      · exact .inr List.mem_cons_self
    · exact .inr (List.mem_cons_of_mem entry h)

theorem steps_of_mem_jobSections {entries : List NodeId} (h : b ∈ jobSections s entries) :
    ∃ entry ∈ entries, ReflTransGen s.Step entry b := by
  rcases mem_foldl_addMissing h with h | h
  · exact ⟨b, (List.mem_filter.mp h).1, .refl⟩
  · obtain ⟨entry, hentry, h⟩ := List.mem_flatMap.mp h
    exact ⟨entry, hentry, steps_of_mem_mergedSections h⟩

/-- Collecting the sections of a job. -/
theorem steps_of_mem_sectionsOf {x : NodeId × String × Nat} (h : x ∈ sectionsOf s a) :
    ReflTransGen s.Step a x.1 := by
  unfold sectionsOf at h
  split at h
  next key value comments job hk hjob =>
    split_ifs at h
    · split at h
      next entries hentries =>
        obtain ⟨⟨entry', i⟩, hsection, hx⟩ := List.mem_filterMap.mp h
        obtain ⟨name, -, rfl⟩ := Option.map_eq_some_iff.mp hx
        obtain ⟨entry, hentry, hsteps⟩ :=
          steps_of_mem_jobSections (List.fst_mem_of_mem_zipIdx hsection)
        have hvalue : s.Step a value := .of_kind? hk (by simp [NodeKind.children])
        exact ((steps_of_mem_mappingEntries? hentries hentry).head hvalue).trans hsteps
      next => simp at h
    · simp at h
  next => simp at h

end Scope

end PipelineScripts.Script
