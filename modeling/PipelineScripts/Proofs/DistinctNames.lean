import PipelineScripts.Proofs.CarriedDrafts
import PipelineScripts.Yaml.Reading
import Mathlib.Data.List.Perm.Subperm
import Mathlib.Data.Nat.Find
import Mathlib.Data.Nat.ModEq

/-!
# Names of blocks

The names tried behind a base that is taken differ from each other until their numbers come round,
so among as many as are taken, and one more, there is a free one. A name that is handed out is
therefore new, and so are the names of all blocks of a file. Names are kept, so a run hands out no
more of them than a word can count.
-/
namespace PipelineScripts.Text

theorem decimal_injective : Function.Injective decimal := by
  intro m n h
  have hdigits : Nat.toDigits 10 m = Nat.toDigits 10 n := String.ofList_injective h
  rw [← Nat.ofDigitChars_ten_toDigits (n := m), hdigits, Nat.ofDigitChars_ten_toDigits]

end PipelineScripts.Text

namespace PipelineScripts.Script

open Text Yaml

namespace BlockNames

/-- The `k`-th name that is tried behind a base, counted from zero. -/
def candidate (base : String) (index k : Nat) : String := suffixed base ((index + k) % wordSize)

/-- The search behind a base ends after `k` names that are taken. -/
structure EndsAfter (names : BlockNames) (base : String) (index k : Nat) : Prop where
  free : candidate base index k ∉ names.taken
  first : ∀ j < k, candidate base index j ∈ names.taken

theorem suffixed_injective (base : String) : Function.Injective (suffixed base) := by
  intro m n h
  have hlist := congrArg String.toList h
  simp only [suffixed, String.toList_append, List.append_assoc, List.append_cancel_left_eq] at hlist
  exact decimal_injective (String.toList_injective hlist)

/-- The names tried differ until their numbers come round. -/
theorem candidate_inj {base : String} {index j k : Nat} (hj : j < wordSize) (hk : k < wordSize)
    (h : candidate base index j = candidate base index k) : j = k := by
  have hmod : (index + j) % wordSize = (index + k) % wordSize := suffixed_injective base h
  have hjk : j % wordSize = k % wordSize := Nat.ModEq.add_left_cancel' index hmod
  rwa [Nat.mod_eq_of_lt hj, Nat.mod_eq_of_lt hk] at hjk

/-- More names are tried than are taken. -/
theorem exists_free (names : BlockNames) (base : String) (index : Nat)
    (h : names.taken.length < wordSize) :
    ∃ k ≤ names.taken.length, candidate base index k ∉ names.taken := by
  by_contra hall
  push Not at hall
  have hnodup : ((List.range (names.taken.length + 1)).map (candidate base index)).Nodup := by
    refine List.Nodup.map_on ?_ List.nodup_range
    intro j hj k hk heq
    rw [List.mem_range] at hj hk
    exact candidate_inj (by omega) (by omega) heq
  have hsubset : (List.range (names.taken.length + 1)).map (candidate base index) ⊆
      names.taken := by
    intro name hname
    obtain ⟨k, hk, rfl⟩ := List.mem_map.mp hname
    rw [List.mem_range] at hk
    exact hall k (by omega)
  have hlength := (hnodup.subperm hsubset).length_le
  simp only [List.length_map, List.length_range] at hlength
  omega

/-- The search ends, and its result is where it ends. -/
theorem exists_endsAfter (names : BlockNames) (base : String) (index : Nat)
    (h : names.taken.length < wordSize) :
    ∃ k, names.EndsAfter base index k ∧
      names.freeSuffixed base index = candidate base index k := by
  obtain ⟨bound, hbound, hfree⟩ := exists_free names base index h
  have hex : ∃ k, candidate base index k ∉ names.taken := ⟨bound, hfree⟩
  classical
  have hends : names.EndsAfter base index (Nat.find hex) :=
    ⟨Nat.find_spec hex, fun j hj => not_not.mp (Nat.find_min hex hj)⟩
  have hle : Nat.find hex ≤ bound := Nat.find_min' hex hfree
  refine ⟨Nat.find hex, hends, ?_⟩
  have hfind : ((List.range (names.taken.length + 1)).map (candidate base index)).find?
      (fun c => !names.taken.contains c) = some (candidate base index (Nat.find hex)) := by
    rw [List.find?_map, Option.map_eq_some_iff]
    refine ⟨Nat.find hex, ?_, rfl⟩
    rw [List.find?_range_eq_some]
    refine ⟨by simpa using hends.free, List.mem_range.mpr (by omega), ?_⟩
    intro j hj
    simpa using hends.first j hj
  rw [freeSuffixed]
  exact congrArg (Option.getD · base) hfind

/-- What is handed out is free. -/
theorem reserve_not_mem {names : BlockNames} (base : String) (index : Nat)
    (h : names.taken.length < wordSize) : (names.reserve base index).1 ∉ names.taken := by
  unfold reserve
  dsimp only
  split_ifs with hbase
  · obtain ⟨k, hends, hresult⟩ := exists_endsAfter names base index h
    rw [hresult]
    exact hends.free
  · simpa using hbase

@[simp] theorem taken_reserve (names : BlockNames) (base : String) (index : Nat) :
    (names.reserve base index).2.taken = (names.reserve base index).1 :: names.taken := rfl

/-- The names handed out are those that become taken, the last in front. -/
theorem taken_reserveAll (names : BlockNames) (requests : List (String × Nat)) :
    (names.reserveAll requests).2.taken =
      (names.reserveAll requests).1.reverse ++ names.taken := by
  induction requests generalizing names with
  | nil => rfl
  | cons request rest ih => simp [reserveAll, ih]

/-- No name is taken twice. -/
theorem nodup_taken_reserveAll {names : BlockNames} {requests : List (String × Nat)}
    (hnames : names.taken.Nodup) (h : names.taken.length + requests.length ≤ wordSize) :
    (names.reserveAll requests).2.taken.Nodup := by
  induction requests generalizing names with
  | nil => exact hnames
  | cons request rest ih =>
    rw [List.length_cons] at h
    refine @ih (names.reserve request.1 request.2).2 ?_ ?_
    · rw [taken_reserve]
      exact List.nodup_cons.mpr ⟨reserve_not_mem _ _ (by omega), hnames⟩
    · rw [taken_reserve, List.length_cons]
      omega

theorem reserveAll_append (names : BlockNames) (first others : List (String × Nat)) :
    names.reserveAll (first ++ others) =
      ((names.reserveAll first).1 ++ ((names.reserveAll first).2.reserveAll others).1,
        ((names.reserveAll first).2.reserveAll others).2) := by
  induction first generalizing names with
  | nil => rfl
  | cons request rest ih => simp [reserveAll, ih]

end BlockNames

/-! ### Names of blocks -/

namespace Draft

/-- The blocks of a draft have the names that are handed out for it. -/
theorem names_blocks (f : File) (shell : String) (names : BlockNames) (d : Draft) :
    (d.blocks f shell names).1.map (·.name) = (names.reserveAll d.requests).1 ∧
      (d.blocks f shell names).2 = (names.reserveAll d.requests).2 := by
  have hlength := BlockNames.length_reserveAll names d.requests
  have hrequests : d.requests.length = d.fragments.length := by simp [Draft.requests]
  refine ⟨?_, rfl⟩
  show (List.zipWith (d.block f shell) d.fragments (names.reserveAll d.requests).1).map _ = _
  rw [List.map_zipWith]
  refine List.ext_getElem (by simp; omega) fun i hi hi' => ?_
  simp [Draft.block]

/-- The blocks of several drafts have the names that are handed out for all of them in turn. -/
theorem names_blocksOfAll (f : File) (shell : String) (names : BlockNames)
    (drafts : List Draft) :
    (blocksOfAll f shell names drafts).1.map (·.name) =
        (names.reserveAll (drafts.flatMap requests)).1 ∧
      (blocksOfAll f shell names drafts).2 = (names.reserveAll (drafts.flatMap requests)).2 := by
  induction drafts generalizing names with
  | nil => exact ⟨rfl, rfl⟩
  | cons d rest ih =>
    obtain ⟨hfirst, hnames⟩ := names_blocks f shell names d
    obtain ⟨hothers, hlast⟩ := ih (d.blocks f shell names).2
    rw [List.flatMap_cons, BlockNames.reserveAll_append, blocksOfAll]
    rw [hnames] at hothers hlast
    refine ⟨?_, ?_⟩
    · rw [List.map_append, hfirst, ← hothers, ← hnames]
    · rw [← hlast, ← hnames]

end Draft

/-- The blocks of a file have the names that are handed out for one list of requests. -/
theorem exists_requests_of_decode {f : File} {shell : String} {blocks : List Block}
    (h : decode f shell = .ok blocks) :
    ∃ requests, blocks.map (·.name) = (({} : BlockNames).reserveAll requests).1 := by
  obtain ⟨⟨jobs, names⟩, hjobs, h⟩ := bind_eq_ok.mp h
  obtain ⟨⟨annotated, names'⟩, hannotated, h⟩ := bind_eq_ok.mp h
  cases h
  obtain ⟨drafts, -, hjobs⟩ := map_eq_ok.mp hjobs
  obtain ⟨others, -, hannotated⟩ := map_eq_ok.mp hannotated
  obtain ⟨hnames, hrest⟩ := Draft.names_blocksOfAll f shell {} drafts
  obtain ⟨hnames', -⟩ := Draft.names_blocksOfAll f shell names others
  rw [hjobs] at hnames hrest
  rw [hannotated] at hnames'
  refine ⟨drafts.flatMap Draft.requests ++ others.flatMap Draft.requests, ?_⟩
  dsimp only at hnames hnames' hrest
  rw [BlockNames.reserveAll_append, List.map_append, hnames, hnames', hrest]

/-- Names that were handed out one after another differ, whatever was asked for, and the search for
each of them ended at a name that was free. The blocks of a file, those of its jobs and those of
annotated entries together, have different names. -/
theorem blocks_have_distinct_names :
    (∀ requests : List (String × Nat), requests.length ≤ wordSize →
      (({} : BlockNames).reserveAll requests).1.Nodup ∧
      ∀ before base index after, requests = before ++ (base, index) :: after →
        let names := (({} : BlockNames).reserveAll before).2
        (base ∉ names.taken → (names.reserve base index).1 = base) ∧
        (base ∈ names.taken → ∃ k, names.EndsAfter base index k ∧
          (names.reserve base index).1 = BlockNames.candidate base index k)) ∧
    ∀ (f : File) (shell : String) (blocks : List Block), decode f shell = .ok blocks →
      blocks.length ≤ wordSize → (blocks.map (·.name)).Nodup := by
  have hnodup : ∀ requests : List (String × Nat), requests.length ≤ wordSize →
      (({} : BlockNames).reserveAll requests).1.Nodup := by
    intro requests hlength
    have htaken := @BlockNames.nodup_taken_reserveAll {} requests
      List.nodup_nil (by simpa using hlength)
    rw [BlockNames.taken_reserveAll] at htaken
    simpa using htaken
  refine ⟨fun requests hlength => ⟨hnodup requests hlength, ?_⟩, ?_⟩
  · intro before base index after hrequests
    refine ⟨fun hfree => by simp [BlockNames.reserve, hfree], fun htaken => ?_⟩
    have hbefore : (({} : BlockNames).reserveAll before).2.taken.length < wordSize := by
      rw [BlockNames.taken_reserveAll]
      simp [BlockNames.length_reserveAll]
      simp [hrequests] at hlength
      omega
    obtain ⟨k, hends, hresult⟩ := BlockNames.exists_endsAfter _ base index hbefore
    exact ⟨k, hends, by simp [BlockNames.reserve, htaken, hresult]⟩
  · intro f shell blocks h hlength
    obtain ⟨requests, hrequests⟩ := exists_requests_of_decode h
    rw [hrequests]
    refine hnodup requests ?_
    rw [← BlockNames.length_reserveAll {} requests, ← hrequests, List.length_map]
    exact hlength

/-- Two jobs of one name, a job whose name continues that of another, and a directive. -/
def collidingPipeline : String :=
  "a:\n  script: [x, y]\na:\n  script: [x, y]\na_script:\n  '1': z\n  script: w\n" ++
    "directive:\n  a: # scriptcheck shell=sh\n    [v]\n  a: # scriptcheck shell=sh\n    [v]\n"

/-- The names of `collidingPipeline`, of which three were taken at first. -/
def collidingNames : List String :=
  ["a_script", "a_script_1", "a_script_0", "a_script_1_0", "a_script_script", "directive_a",
    "directive_a_1"]

theorem collidingPipeline_distinct :
    (∃ f blocks, File.parse "ci.yml" collidingPipeline = .ok f ∧ decode f "" = .ok blocks ∧
      blocks.map (·.name) = collidingNames ∧ collidingNames.Nodup) ∧
    (({} : BlockNames).reserveAll [("a", 1), ("a_1", 0), ("a", 1)]).1.Nodup := by
  have hrun : ((File.parse "ci.yml" collidingPipeline).toOption.bind fun f =>
      (decode f "").toOption.map fun blocks => blocks.map (·.name)) = some collidingNames := by
    decide +kernel
  obtain ⟨f, hf, hrun⟩ := Option.bind_eq_some_iff.mp hrun
  obtain ⟨blocks, hblocks, hnames⟩ := Option.map_eq_some_iff.mp hrun
  have hdecode := toOption_eq_some.mp hblocks
  refine ⟨⟨f, blocks, toOption_eq_some.mp hf, hdecode, hnames, ?_⟩, ?_⟩
  · rw [← hnames]
    refine blocks_have_distinct_names.2 f "" blocks hdecode ?_
    rw [← List.length_map (·.name), hnames]
    decide +kernel
  · exact (blocks_have_distinct_names.1 _ (by decide +kernel)).1

end PipelineScripts.Script
