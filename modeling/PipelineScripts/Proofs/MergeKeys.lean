import PipelineScripts.Proofs.Cycles
import PipelineScripts.Proofs.JobSections

/-!
# Merge keys

A merge key names mappings whose entries a mapping takes over, as far as it has none of their keys
itself. These mappings may have merge keys in their turn. A mapping that is fully merged has its own
entries, and behind them those of its sources, each fully merged first; of each key the first entry
counts. The sections of a job are found among its own entries and the own entries of its sources.
So a section comes out right exactly if the entry that counts is the first of its key there.
-/
namespace PipelineScripts.Script

open Yaml Relation

/-- No two of some entries have the same key. -/
def DistinctKeys (f : File) (entries : List NodeId) : Prop := (entries.filterMap f.entryKey?).Nodup

/-- Whether an entry has a key. -/
def hasKey (f : File) (key : String) (entry : NodeId) : Bool := f.entryKey? entry = some key

/-- The first of some entries that has a key. -/
def firstWithKey? (f : File) (entries : List NodeId) (key : String) : Option NodeId :=
  entries.find? (hasKey f key)

section Keys

variable {f : File} {key : String} {entries own offered : List NodeId}

@[simp] theorem hasKey_iff {entry : NodeId} :
    hasKey f key entry = true ↔ f.entryKey? entry = some key := by
  simp [hasKey]

theorem firstWithKey?_eq_none_iff :
    firstWithKey? f entries key = none ↔ ∀ e ∈ entries, f.entryKey? e ≠ some key := by
  simp [firstWithKey?]

theorem firstWithKey?_append (more : List NodeId) : firstWithKey? f (entries ++ more) key =
    (firstWithKey? f entries key).or (firstWithKey? f more key) := List.find?_append

/-- Where keys differ, an entry with a key is the only one. -/
theorem DistinctKeys.filter_hasKey (h : DistinctKeys f entries) (key : String) :
    entries.filter (hasKey f key) = (firstWithKey? f entries key).toList := by
  induction entries with
  | nil => rfl
  | cons e rest ih =>
    have hrest : DistinctKeys f rest := by
      refine List.Nodup.sublist ?_ h
      exact (List.sublist_cons_self e rest).filterMap _
    rw [List.filter_cons, firstWithKey?, List.find?_cons]
    by_cases hkey : f.entryKey? e = some key
    · have hnone : ∀ x ∈ rest, f.entryKey? x ≠ some key := by
        intro x hx hsame
        rw [DistinctKeys, List.filterMap_cons_some hkey] at h
        exact (List.nodup_cons.mp h).1 (List.mem_filterMap.mpr ⟨x, hx, hsame⟩)
      have hfilter : rest.filter (hasKey f key) = [] := by simpa using hnone
      simp [hkey, hfilter, hasKey]
    · rw [firstWithKey?] at ih
      simpa [hkey, hasKey] using ih hrest

/-- Only entries with keys of sections can be the first with the key of a section. -/
theorem firstWithKey?_filter_isSection (hkey : key ∈ sectionKeys) :
    firstWithKey? f (entries.filter (isSection f)) key = firstWithKey? f entries key := by
  rw [firstWithKey?, List.find?_filter]
  refine congrArg (entries.find? ·) (funext fun e => ?_)
  by_cases h : f.entryKey? e = some key
  · have hsection : isSection f e = true := by simp [isSection, h, hkey]
    simp only [hsection, true_and, Bool.decide_eq_true]
  · simp [hasKey, h]

/-- What is inherited with a key is what is offered first with it. -/
theorem Scope.filter_inherited (hown : firstWithKey? f own key = none) :
    (inherited f own offered).filter (hasKey f key) = (firstWithKey? f offered key).toList := by
  induction offered using List.reverseRecOn with
  | nil => rfl
  | append_singleton offered x ih =>
    rw [inherited_append_singleton, List.filter_append, ih, firstWithKey?_append]
    by_cases hx : f.entryKey? x = some key
    · cases hfirst : firstWithKey? f offered key with
      | none =>
        have hall : ((own ++ offered).all fun e => f.entryKey? e != f.entryKey? x) = true := by
          simp only [List.all_eq_true, bne_iff_ne, hx]
          intro e he
          rcases List.mem_append.mp he with he | he
          · exact firstWithKey?_eq_none_iff.mp hown e he
          · exact firstWithKey?_eq_none_iff.mp hfirst e he
        rw [if_pos hall]
        simp [firstWithKey?, hasKey, hx]
      | some e =>
        have hmem := List.mem_of_find?_eq_some hfirst
        have hkey : f.entryKey? e = some key := by simpa using List.find?_some hfirst
        have hold : ¬ ((own ++ offered).all fun e => f.entryKey? e != f.entryKey? x) = true := by
          simp only [List.all_eq_true, bne_iff_ne, ne_eq, not_forall, not_not]
          exact ⟨e, List.mem_append_right own hmem, hkey.trans hx.symm⟩
        rw [if_neg hold]
        simp
    · have hnone : (if (own ++ offered).all fun e => f.entryKey? e != f.entryKey? x then [x]
          else []).filter (hasKey f key) = [] := by
        split_ifs <;> simp [hx]
      have hfirst : firstWithKey? f [x] key = none := by simp [firstWithKey?, hx]
      rw [hnone, hfirst, List.append_nil, Option.or_none]

theorem Scope.filter_inherited_of_mem {e : NodeId} (he : e ∈ own)
    (hkey : f.entryKey? e = some key) :
    (inherited f own offered).filter (hasKey f key) = [] := by
  refine List.filter_eq_nil_iff.mpr fun x hx hsame => ?_
  obtain ⟨y, hy, rfl⟩ := List.mem_map.mp hx
  have hall := (List.mem_filter.mp hy).2
  rw [List.all_eq_true] at hall
  have hne := hall e (List.mem_append_left _ he)
  rw [hkey, hasKey_iff.mp hsame] at hne
  simp at hne

/-- Of each section the first entry is found, among the own ones and those that are offered. -/
theorem Scope.filter_hasKey_inherited (hkeys : DistinctKeys f entries) (hkey : key ∈ sectionKeys) :
    (entries.filter (isSection f) ++ inherited f (entries.filter (isSection f))
      (offered.filter (isSection f))).filter (hasKey f key) =
        (firstWithKey? f (entries ++ offered) key).toList := by
  have hown : (entries.filter (isSection f)).filter (hasKey f key) =
      (firstWithKey? f entries key).toList := by
    have hdistinct : DistinctKeys f (entries.filter (isSection f)) :=
      List.Nodup.sublist (List.filter_sublist.filterMap _) hkeys
    rw [hdistinct.filter_hasKey, firstWithKey?_filter_isSection hkey]
  rw [List.filter_append, hown, firstWithKey?_append]
  cases hfirst : firstWithKey? f entries key with
  | none =>
    rw [← firstWithKey?_filter_isSection hkey] at hfirst
    rw [filter_inherited hfirst, firstWithKey?_filter_isSection hkey, Option.none_or]
    rfl
  | some e =>
    rw [← firstWithKey?_filter_isSection hkey] at hfirst
    have hsame : f.entryKey? e = some key := by simpa using List.find?_some hfirst
    rw [filter_inherited_of_mem (List.mem_of_find?_eq_some hfirst) hsame, List.append_nil,
      Option.some_or]

end Keys

theorem exists_sectionKey {f : File} {entry : NodeId} (h : isSection f entry = true) :
    ∃ key ∈ sectionKeys, f.entryKey? entry = some key := by
  unfold isSection at h
  split at h
  next key hkey => exact ⟨key, by simpa using h, hkey⟩
  next => cases h

namespace Scope

/-! ### Sources -/

/-- What the value of a merge key names: the items of a sequence that stands behind it, in their
order; anything else is named itself. -/
inductive Names (s : Scope) (value : NodeId) : List NodeId → Prop
  | several {target items comments} (h : s.Behind value target)
      (hk : s.file.kind? target = some (.sequence items comments)) : Names s value items
  | one (h : ∀ target, s.Behind value target →
      ∀ items comments, s.file.kind? target ≠ some (.sequence items comments)) :
      Names s value [value]

/-- The sources that the merge keys among some entries name, in order. -/
inductive SourcesOf (s : Scope) : List NodeId → List NodeId → Prop
  | nil : SourcesOf s [] []
  | merge {entry key value comments entries sources rest}
      (hk : s.file.kind? entry = some (.entry key value comments))
      (hkey : s.file.scalarText? key = some mergeKey) (hnames : s.Names value sources)
      (hrest : SourcesOf s entries rest) : SourcesOf s (entry :: entries) (sources ++ rest)
  | other {entry entries rest} (h : s.file.entryKey? entry ≠ some mergeKey)
      (hrest : SourcesOf s entries rest) : SourcesOf s (entry :: entries) rest

mutual

/-- The entries of a mapping that is fully merged, those that count more before those that count
less: its own, and behind them what its sources offer. -/
inductive MergesTo (s : Scope) : List NodeId → List NodeId → Prop
  | intro {entries sources offered} (hsources : s.SourcesOf entries sources)
      (hoffered : SourcesOffer s sources offered) : MergesTo s entries (entries ++ offered)

/-- What sources offer, one after the other: each mapping the entries that it has once it is fully
merged itself, and anything else nothing. -/
inductive SourcesOffer (s : Scope) : List NodeId → List NodeId → Prop
  | nil : SourcesOffer s [] []
  | mapping {source sources own line offered} (h : s.IsMapping source own)
      (hline : MergesTo s own line) (hrest : SourcesOffer s sources offered) :
      SourcesOffer s (source :: sources) (line ++ offered)
  | other {source sources offered} (h : ∀ own, ¬ s.IsMapping source own)
      (hrest : SourcesOffer s sources offered) : SourcesOffer s (source :: sources) offered

end

/-- A mapping names another one as a source. -/
def Merges (s : Scope) (a b : NodeId) : Prop :=
  ∃ entries sources source own, s.file.kind? a = some (.mapping entries) ∧
    s.SourcesOf entries sources ∧ source ∈ sources ∧ s.Behind source b ∧
    s.file.kind? b = some (.mapping own)

/-- Merging comes to a mapping that is a source of itself, perhaps through others. -/
def MergesInCircles (s : Scope) (start : NodeId) : Prop :=
  ∃ a, ReflTransGen s.Merges start a ∧ TransGen s.Merges a a

/-- The entries of the mapping behind a node; none if there is none. -/
def entriesBehind (s : Scope) (id : NodeId) : List NodeId := (s.mappingEntries? id).getD []

/-- The sources that a value names. -/
def namedBy (s : Scope) (value : NodeId) : List NodeId :=
  match s.file.kind? (s.unwrap value) with
  | some (.sequence items _) => items
  | _ => [value]

/-- The sources that an entry names. -/
def sourcesAt (s : Scope) (entry : NodeId) : List NodeId :=
  match s.file.kind? entry with
  | some (.entry _ value _) =>
    if s.file.entryKey? entry = some mergeKey then s.namedBy value else []
  | _ => []

variable {s : Scope} {id target value entry : NodeId} {entries sources own : List NodeId}

theorem Behind.unwrapStep_eq_none (h : s.Behind id target) : s.unwrapStep target = none := by
  induction h with
  | here h => exact h
  | step _ _ ih => exact ih

/-- What stands behind a node stands behind any on the way. -/
theorem behind_unwrap_iff : s.Behind (s.unwrap id) target ↔ s.Behind id target := by
  refine ⟨behind_of_behind_unwrapWithin, fun h => ?_⟩
  rw [unwrap_of_behind h]
  exact .here h.unwrapStep_eq_none

theorem mappingEntries?_unwrap (s : Scope) (id : NodeId) :
    s.mappingEntries? (s.unwrap id) = s.mappingEntries? id := by
  refine Option.ext fun entries => ?_
  simp only [mappingEntries?_eq_some_iff, IsMapping, behind_unwrap_iff]

theorem IsMapping.unique {own' : List NodeId} (h : s.IsMapping id own) (h' : s.IsMapping id own') :
    own = own' := by
  rw [← mappingEntries?_eq_some_iff] at h h'
  exact Option.some.inj (h.symm.trans h')

/-- A sequence stands behind a value exactly if looking through anchors and aliases finds it. -/
theorem exists_behind_sequence_iff {items : List NodeId} {comments : List (List Comment)} :
    (∃ target, s.Behind value target ∧ s.file.kind? target = some (.sequence items comments)) ↔
      s.file.kind? (s.unwrap value) = some (.sequence items comments) := by
  constructor
  · rintro ⟨target, hbehind, hk⟩
    rwa [unwrap_of_behind hbehind]
  · intro hk
    have hend : s.unwrapStep (s.unwrap value) = none := by simp [unwrapStep, hk]
    exact ⟨_, behind_of_unwrapWithin hend, hk⟩

theorem names_iff : s.Names value sources ↔ sources = s.namedBy value := by
  unfold namedBy
  constructor
  · rintro (⟨h, hk⟩ | h)
    · rw [exists_behind_sequence_iff.mp ⟨_, h, hk⟩]
    · split
      next items comments hk =>
        obtain ⟨target, hbehind, hk⟩ := exists_behind_sequence_iff.mpr hk
        exact absurd hk (h target hbehind items comments)
      next => rfl
  · rintro rfl
    split
    next items comments hk =>
      obtain ⟨target, hbehind, hk⟩ := exists_behind_sequence_iff.mpr hk
      exact .several hbehind hk
    next hother =>
      exact .one fun target hbehind items comments hk =>
        hother items comments (exists_behind_sequence_iff.mp ⟨target, hbehind, hk⟩)

theorem exists_value_of_mergeKey (h : s.file.entryKey? entry = some mergeKey) :
    ∃ key value comments, s.file.kind? entry = some (.entry key value comments) ∧
      s.file.scalarText? key = some mergeKey ∧ s.sourcesAt entry = s.namedBy value := by
  have hentry := h
  unfold File.entryKey? at hentry
  split at hentry
  next key value comments hk =>
    exact ⟨key, value, comments, hk, hentry, by simp only [sourcesAt, hk, h, if_true]⟩
  next => cases hentry

theorem sourcesAt_of_ne (h : s.file.entryKey? entry ≠ some mergeKey) : s.sourcesAt entry = [] := by
  unfold sourcesAt
  split
  next => rw [if_neg h]
  next => rfl

theorem sourcesOf_iff : s.SourcesOf entries sources ↔ sources = entries.flatMap s.sourcesAt := by
  constructor
  · intro h
    induction h with
    | nil => rfl
    | @merge entry key value comments entries sources rest hk hkey hnames _ ih =>
      have hentry : s.file.entryKey? entry = some mergeKey := by simp [File.entryKey?, hk, hkey]
      have hat : s.sourcesAt entry = s.namedBy value := by
        simp only [sourcesAt, hk, hentry, if_true]
      rw [List.flatMap_cons, ← ih, hat, names_iff.mp hnames]
    | other h _ ih => rw [List.flatMap_cons, ← ih, sourcesAt_of_ne h, List.nil_append]
  · rintro rfl
    induction entries with
    | nil => exact .nil
    | cons entry rest ih =>
      rw [List.flatMap_cons]
      by_cases hentry : s.file.entryKey? entry = some mergeKey
      · obtain ⟨key, value, comments, hk, hkey, hat⟩ := exists_value_of_mergeKey hentry
        exact .merge hk hkey (names_iff.mpr hat) ih
      · rw [sourcesAt_of_ne hentry, List.nil_append]
        exact .other hentry ih

theorem mergedSections_eq (s : Scope) (entry : NodeId) : mergedSections s entry =
    ((s.sourcesAt entry).flatMap s.entriesBehind).filter (isSection s.file) := by
  by_cases hentry : s.file.entryKey? entry = some mergeKey
  · obtain ⟨key, value, comments, hk, -, hat⟩ := exists_value_of_mergeKey hentry
    have hnamed : (mergeSources s value).flatMap s.entriesBehind =
        (s.namedBy value).flatMap s.entriesBehind := by
      unfold mergeSources namedBy
      dsimp only
      cases s.file.kind? (s.unwrap value) with
      | none => simp only [List.flatMap_singleton, entriesBehind, mappingEntries?_unwrap]
      | some k =>
        cases k with
        | sequence items comments => rfl
        | _ => simp only [List.flatMap_singleton, entriesBehind, mappingEntries?_unwrap]
    simp only [mergedSections, hk, hentry, if_true]
    rw [hat, ← hnamed, List.filter_flatMap]
    rfl
  · have hnone : mergedSections s entry = [] := by
      unfold mergedSections
      split
      next => rw [if_neg hentry]
      next => rfl
    rw [hnone, sourcesAt_of_ne hentry]
    rfl

/-! ### Merging ends -/

theorem lt_size_of_merges {a b : Nat} (h : s.Merges a b) : a < s.file.nodes.size := by
  obtain ⟨entries, -, -, -, hk, -⟩ := h
  exact File.lt_size_of_kind? hk

/-- What sources offer is one list, if that is so of each mapping among them. -/
theorem existsUnique_sourcesOffer (h : ∀ source ∈ sources, ∀ own, s.IsMapping source own →
    ∃! line, s.MergesTo own line) : ∃! offered, s.SourcesOffer sources offered := by
  induction sources with
  | nil =>
    refine ⟨[], .nil, fun offered hoffered => ?_⟩
    cases hoffered
    rfl
  | cons source rest ih =>
    obtain ⟨offered, hoffered, hunique⟩ := ih fun x hx => h x (List.mem_cons_of_mem source hx)
    by_cases hmapping : ∃ own, s.IsMapping source own
    · obtain ⟨own, hown⟩ := hmapping
      obtain ⟨line, hline, hlineUnique⟩ := h source List.mem_cons_self own hown
      refine ⟨line ++ offered, .mapping hown hline hoffered, fun other hother => ?_⟩
      cases hother with
      | mapping hown' hline' hrest =>
        obtain rfl := hown.unique hown'
        rw [hlineUnique _ hline', hunique _ hrest]
      | other hnone => exact absurd hown (hnone own)
    · refine ⟨offered, .other (not_exists.mp hmapping) hoffered, fun other hother => ?_⟩
      cases hother with
      | mapping hown => exact absurd ⟨_, hown⟩ hmapping
      | other _ hrest => exact hunique _ hrest

/-- Without circles a mapping is fully merged in one way. -/
theorem existsUnique_mergesTo {a : NodeId} (hk : s.file.kind? a = some (.mapping entries))
    (h : ¬ s.MergesInCircles a) : ∃! line, s.MergesTo entries line := by
  have hacc : Acc (fun b a => s.Merges a b) a := by
    by_contra hendless
    exact h (exists_loop_of_not_acc (fun _ _ => lt_size_of_merges) hendless)
  clear h
  induction hacc generalizing entries with
  | intro a _ ih =>
    have hsources := sourcesOf_iff.mpr (Eq.refl (entries.flatMap s.sourcesAt))
    have hsource : ∀ source ∈ entries.flatMap s.sourcesAt, ∀ own, s.IsMapping source own →
        ∃! line, s.MergesTo own line := by
      rintro source hsource own ⟨b, hbehind, hkb⟩
      exact ih b ⟨entries, _, source, own, hk, hsources, hsource, hbehind, hkb⟩ hkb
    obtain ⟨offered, hoffered, hunique⟩ := existsUnique_sourcesOffer hsource
    refine ⟨entries ++ offered, .intro hsources hoffered, fun line hline => ?_⟩
    cases hline with
    | intro hsources' hoffered' =>
      rw [sourcesOf_iff.mp hsources'] at hoffered'
      rw [hunique _ hoffered']

/-! ### The entries that count -/

variable {offered line : List NodeId} {key : String}

/-- The own entries of sources are among those that they offer. -/
theorem mem_of_sourcesOffer (h : s.SourcesOffer sources offered) {e : NodeId}
    (he : e ∈ sources.flatMap s.entriesBehind) : e ∈ offered := by
  induction sources generalizing offered with
  | nil => simp at he
  | cons source rest ih =>
    rw [List.flatMap_cons, List.mem_append] at he
    cases h with
    | @mapping _ _ own line _ hown hline hrest =>
      rw [entriesBehind, mappingEntries?_eq_some_iff.mpr hown] at he
      cases hline with
      | intro =>
        rcases he with he | he
        · exact List.mem_append_left _ (List.mem_append_left _ he)
        · exact List.mem_append_right _ (ih hrest he)
    | other hnone hrest =>
      rw [entriesBehind, mappingEntries?_eq_none_iff.mpr hnone] at he
      exact ih hrest (by simpa using he)

/-- Where every source that has a key has it itself, the own entries of the sources decide. -/
theorem firstWithKey?_of_owned (h : s.SourcesOffer sources offered)
    (howned : ∀ source ∈ sources, ∀ own line, s.IsMapping source own → s.MergesTo own line →
      firstWithKey? s.file own key = none → firstWithKey? s.file line key = none) :
    firstWithKey? s.file offered key =
      firstWithKey? s.file (sources.flatMap s.entriesBehind) key := by
  induction sources generalizing offered with
  | nil =>
    cases h
    rfl
  | cons source rest ih =>
    have howned' := fun x hx => howned x (List.mem_cons_of_mem source hx)
    rw [List.flatMap_cons, firstWithKey?_append]
    cases h with
    | @mapping _ _ own line _ hown hline hrest =>
      have hsame : firstWithKey? s.file line key = firstWithKey? s.file own key := by
        cases hfirst : firstWithKey? s.file own key with
        | none => exact howned source List.mem_cons_self own line hown hline hfirst
        | some e =>
          cases hline with
          | intro => rw [firstWithKey?_append, hfirst, Option.some_or]
      rw [firstWithKey?_append, ih hrest howned', hsame, entriesBehind,
        mappingEntries?_eq_some_iff.mpr hown, Option.getD_some]
    | other hnone hrest =>
      rw [ih hrest howned', entriesBehind, mappingEntries?_eq_none_iff.mpr hnone]
      rfl

/-- Of each key the job yields the entry that counts among its own entries and the own entries of
its sources. -/
theorem filter_hasKey_jobSections (hkeys : DistinctKeys s.file entries)
    (hsources : s.SourcesOf entries sources) (hkey : key ∈ sectionKeys) :
    (jobSections s entries).filter (hasKey s.file key) =
      (firstWithKey? s.file (entries ++ sources.flatMap s.entriesBehind) key).toList := by
  have hoffered : entries.flatMap (mergedSections s) =
      (sources.flatMap s.entriesBehind).filter (isSection s.file) := by
    rw [sourcesOf_iff.mp hsources, List.flatMap_assoc, List.filter_flatMap]
    exact List.flatMap_congr fun e _ => s.mergedSections_eq e
  rw [jobSections_eq, sectionsInOrder, hoffered, filter_hasKey_inherited hkeys hkey]

/-- Of some entries in the order in which they count, the job yields the one that counts under a
key, once, and nothing else with this key. -/
def YieldsFirst (s : Scope) (entries line : List NodeId) (key : String) : Prop :=
  (jobSections s entries).filter (hasKey s.file key) = (firstWithKey? s.file line key).toList

/-- Without circles a job has one full merge. It yields of each section the entry that counts among
its own entries and the own entries of its sources. This is the one that counts in the full merge
exactly if the latter is found there first; so in particular if every source that has the section
has it itself. -/
theorem sections_fully_merged_iff {job : NodeId}
    (hjob : s.file.kind? job = some (.mapping entries)) (hkeys : DistinctKeys s.file entries)
    (hcircles : ¬ s.MergesInCircles job) :
    ∃ sources line, s.SourcesOf entries sources ∧ s.MergesTo entries line ∧
      (∀ line', s.MergesTo entries line' → line' = line) ∧
      (∀ e ∈ jobSections s entries, ∃ key ∈ sectionKeys, s.file.entryKey? e = some key) ∧
      ∀ key ∈ sectionKeys,
        let direct := entries ++ sources.flatMap s.entriesBehind
        s.YieldsFirst entries direct key ∧
        (s.YieldsFirst entries line key ↔ ∀ e, firstWithKey? s.file line key = some e →
          firstWithKey? s.file direct key = some e) ∧
        ((∀ source ∈ sources, ∀ own merged, s.IsMapping source own → s.MergesTo own merged →
            firstWithKey? s.file own key = none → firstWithKey? s.file merged key = none) →
          s.YieldsFirst entries line key) := by
  obtain ⟨line, hline, hunique⟩ := existsUnique_mergesTo hjob hcircles
  cases hline with
  | @intro _ sources offered hsources hoffered =>
    refine ⟨sources, _, hsources, .intro hsources hoffered, hunique, fun e he => ?_,
      fun key hkey => ?_⟩
    · rw [jobSections_eq] at he
      exact exists_sectionKey (isSection_of_mem_sectionsInOrder he)
    have hyields := filter_hasKey_jobSections hkeys hsources hkey
    refine ⟨hyields, ?_, fun howned => ?_⟩
    · rw [YieldsFirst, hyields]
      constructor
      · intro hsame e hfirst
        rw [hfirst] at hsame
        exact Option.toList_eq_singleton_iff.mp hsame
      · intro hfirst
        cases hline : firstWithKey? s.file (entries ++ offered) key with
        | some e => rw [hfirst e hline]
        | none =>
          have hnone := firstWithKey?_eq_none_iff.mp hline
          have hdirect : firstWithKey? s.file (entries ++ sources.flatMap s.entriesBehind) key =
              none := by
            refine firstWithKey?_eq_none_iff.mpr fun e he => hnone e ?_
            rcases List.mem_append.mp he with he | he
            · exact List.mem_append_left _ he
            · exact List.mem_append_right _ (mem_of_sourcesOffer hoffered he)
          rw [hdirect]
    · rw [YieldsFirst, hyields, firstWithKey?_append, firstWithKey?_append,
        firstWithKey?_of_owned hoffered howned]

/-! ### Circles at a concrete scope -/

/-- The mappings that a mapping names as sources, by what looking through anchors and aliases
finds. -/
def mergesAt (s : Scope) (a : NodeId) : List NodeId :=
  match s.file.kind? a with
  | some (.mapping entries) => (entries.flatMap s.sourcesAt).map s.unwrap
  | _ => []

/-- Where sources stand in front of what they are merged into there are no circles. -/
theorem not_mergesInCircles {start : NodeId}
    (h : ∀ a < s.file.nodes.size, ∀ b ∈ s.mergesAt a, b < a) : ¬ s.MergesInCircles start := by
  have hlt : ∀ a b, s.Merges a b → b < a := by
    rintro a b ⟨entries, sources, source, own, hk, hsources, hsource, hbehind, -⟩
    refine h a (File.lt_size_of_kind? hk) b ?_
    rw [sourcesOf_iff.mp hsources] at hsource
    simp only [mergesAt, hk]
    exact List.mem_map.mpr ⟨source, hsource, unwrap_of_behind hbehind⟩
  rintro ⟨a, -, hloop⟩
  have hless : ∀ b, TransGen s.Merges a b → b < a := by
    intro b hb
    induction hb with
    | single h => exact hlt _ _ h
    | tail _ h ih => exact (hlt _ _ h).trans ih
  exact absurd (hless a hloop) (lt_irrefl a)

/-- A mapping without merge keys is fully merged as it is. -/
theorem MergesTo.eq_of_flatMap_eq_nil (h : s.MergesTo entries line)
    (hnone : entries.flatMap s.sourcesAt = []) : line = entries := by
  cases h with
  | intro hsources hoffered =>
    rw [sourcesOf_iff.mp hsources, hnone] at hoffered
    cases hoffered
    exact List.append_nil entries

/-- A job with a section of its own and a list of two templates. -/
def listedPipeline : String :=
  ".a: &a\n  script: echo a\n  before_script: echo b\n" ++
    ".b: &b\n  script: echo c\n  after_script: echo d\n" ++
    "job:\n  <<: [*a, *b]\n  before_script: echo e\n"

/-- The job has its own section, one of the first template and one of the second, as in its full
merge. -/
theorem listedPipeline_sections : ∃ s : Scope, File.parse "ci.yml" listedPipeline = .ok s.file ∧
    jobRoot? s.file = some s.root ∧ AliasMap.build s.file s.root = .ok s.aliases ∧
    s.file.kind? 29 = some (.mapping [25, 28]) ∧ DistinctKeys s.file [25, 28] ∧
    ¬ s.MergesInCircles 29 ∧ jobSections s [25, 28] = [28, 3, 16] ∧
    ∃ line, s.MergesTo [25, 28] line ∧ ∀ key ∈ sectionKeys, s.YieldsFirst [25, 28] line key := by
  have hrun : (File.parse "ci.yml" listedPipeline).toOption.any (fun f =>
      let s : Scope := ⟨f, 31, ⟨[(22, 7), (23, 17)]⟩⟩
      jobRoot? f = some 31 ∧ AliasMap.build f 31 = .ok s.aliases ∧
      f.kind? 29 = some (.mapping [25, 28]) ∧ ([25, 28].filterMap f.entryKey?).Nodup ∧
      (∀ a < f.nodes.size, ∀ b ∈ s.mergesAt a, b < a) ∧ jobSections s [25, 28] = [28, 3, 16] ∧
      [25, 28].flatMap s.sourcesAt = [22, 23] ∧ s.mappingEntries? 22 = some [3, 6] ∧
      s.mappingEntries? 23 = some [13, 16] ∧ [3, 6].flatMap s.sourcesAt = [] ∧
      [13, 16].flatMap s.sourcesAt = []) = true := by
    decide +kernel
  obtain ⟨f, hparse, hrun⟩ := (Option.any_eq_true _ _).mp hrun
  simp only [decide_eq_true_eq] at hrun
  obtain ⟨hroot, hbuild, hk, hdistinct, hless, hsections, hsources, hfirst, hsecond, hnone,
    hnone'⟩ := hrun
  let s : Scope := ⟨f, 31, ⟨[(22, 7), (23, 17)]⟩⟩
  have hcircles : ¬ s.MergesInCircles 29 := not_mergesInCircles hless
  obtain ⟨sources, line, hsourcesOf, hline, -, -, hyields⟩ :=
    sections_fully_merged_iff (s := s) hk hdistinct hcircles
  refine ⟨s, toOption_eq_some.mp hparse, hroot, hbuild, hk, hdistinct, hcircles, hsections, line,
    hline, fun key hkey => (hyields key hkey).2.2 ?_⟩
  -- Neither template has a merge key, so each is its own full merge.
  intro source hsource own merged hown hmerged hmissing
  rw [sourcesOf_iff.mp hsourcesOf, hsources] at hsource
  have hsame : own.flatMap s.sourcesAt = [] := by
    rw [← mappingEntries?_eq_some_iff] at hown
    rcases List.mem_pair.mp hsource with rfl | rfl
    · cases hfirst.symm.trans hown
      exact hnone
    · cases hsecond.symm.trans hown
      exact hnone'
  rwa [hmerged.eq_of_flatMap_eq_nil hsame]

/-- A job that merges a template, which merges another one. -/
def chainedPipeline : String :=
  ".base: &base\n  before_script: echo a\n.mid: &mid\n  <<: *base\n" ++
    "job:\n  <<: *mid\n  script: echo b\n"

/-- The fully merged job has a section of the first template, by way of the second. The second
yields it, but the job does not. -/
theorem chainedPipeline_section_lost :
    ∃ s : Scope, File.parse "ci.yml" chainedPipeline = .ok s.file ∧
      jobRoot? s.file = some s.root ∧ AliasMap.build s.file s.root = .ok s.aliases ∧
      s.file.kind? 21 = some (.mapping [17, 20]) ∧ DistinctKeys s.file [17, 20] ∧
      ¬ s.MergesInCircles 21 ∧ s.MergesTo [17, 20] [17, 20, 10, 3] ∧
      firstWithKey? s.file [17, 20, 10, 3] "before_script" = some 3 ∧
      jobSections s [10] = [3] ∧ jobSections s [17, 20] = [20] ∧
      ¬ s.YieldsFirst [17, 20] [17, 20, 10, 3] "before_script" := by
  have hrun : (File.parse "ci.yml" chainedPipeline).toOption.any (fun f =>
      let s : Scope := ⟨f, 23, ⟨[(9, 4), (16, 11)]⟩⟩
      jobRoot? f = some 23 ∧ AliasMap.build f 23 = .ok s.aliases ∧
      f.kind? 21 = some (.mapping [17, 20]) ∧ ([17, 20].filterMap f.entryKey?).Nodup ∧
      (∀ a < f.nodes.size, ∀ b ∈ s.mergesAt a, b < a) ∧
      [17, 20].flatMap s.sourcesAt = [16] ∧ s.mappingEntries? 16 = some [10] ∧
      [10].flatMap s.sourcesAt = [9] ∧ s.mappingEntries? 9 = some [3] ∧
      [3].flatMap s.sourcesAt = [] ∧ firstWithKey? f [17, 20, 10, 3] "before_script" = some 3 ∧
      jobSections s [10] = [3] ∧ jobSections s [17, 20] = [20] ∧
      [20].filter (hasKey f "before_script") = []) = true := by
    decide +kernel
  obtain ⟨f, hparse, hrun⟩ := (Option.any_eq_true _ _).mp hrun
  simp only [decide_eq_true_eq] at hrun
  obtain ⟨hroot, hbuild, hk, hdistinct, hless, hsources, hmid, hsourcesMid, hbase, hsourcesBase,
    hfirst, hsectionsMid, hsections, hmissing⟩ := hrun
  let s : Scope := ⟨f, 23, ⟨[(9, 4), (16, 11)]⟩⟩
  have hline : s.MergesTo [17, 20] [17, 20, 10, 3] :=
    .intro (sourcesOf_iff.mpr hsources.symm) (.mapping (mappingEntries?_eq_some_iff.mp hmid)
      (.intro (sourcesOf_iff.mpr hsourcesMid.symm) (.mapping (mappingEntries?_eq_some_iff.mp hbase)
        (.intro (sourcesOf_iff.mpr hsourcesBase.symm) .nil) .nil)) .nil)
  refine ⟨s, toOption_eq_some.mp hparse, hroot, hbuild, hk, hdistinct,
    not_mergesInCircles hless, hline, hfirst, hsectionsMid, hsections, ?_⟩
  rw [YieldsFirst, hsections, hmissing, hfirst]
  simp

end Scope

end PipelineScripts.Script
