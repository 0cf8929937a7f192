import PipelineScripts.Check.Checking
import PipelineScripts.Proofs.Extractions

/-!
# Checking files together

Files that are no merged pipeline do not take part in each other's check. A linter that looks at
each script by itself says about the scripts of all files what it says about those of each, and a
block's reports depend on the block alone, not on the name its generated file was given. So the
outcome for two lists of files is that for the first followed by that for the second.
-/
namespace PipelineScripts.Check

open Script

/-! ### A linter that looks at one script at a time -/

/-- What is found in the scripts of a call, one after the other, where `lint` tells what there is to
find in a text. -/
def LinterCall.found (lint : List String → String → List Finding) (call : LinterCall) :
    List Finding :=
  call.scripts.flatMap fun script =>
    (lint call.arguments script.text).map fun x => { x with file := script.name }

/-- A linter's answer: it ends with status 1 and lists what was found, or with status 0 if that is
nothing. -/
def LinterRun.Answers (found : List Finding) (r : LinterRun) : Prop :=
  (found = [] ∧ r.status = .code 0) ∨
    found ≠ [] ∧ r.status = .code 1 ∧ readFindings? r.stdout.toList = some found

instance (found : List Finding) (r : LinterRun) : Decidable (r.Answers found) :=
  inferInstanceAs (Decidable (_ ∨ _))

theorem LinterRun.findings_eq {found : List Finding} {r : LinterRun} (h : r.Answers found) :
    r.findings = .ok found := by
  rcases h with ⟨rfl, hstatus⟩ | ⟨-, hstatus, hread⟩
  · simp [LinterRun.findings, hstatus]
  · simp [LinterRun.findings, hstatus, hread]

/-! ### Reports of a block -/

/-- The reports of what is found in the script of a block. -/
def reportsOf (lint : String → List Finding) (b : Block) : List Report :=
  (lint b.text).filterMap fun x => remapOne? [(x.file, b)] x

/-- A report does not tell the name of the generated file. -/
theorem remapOne?_renamed {map : BlockMap} {name : String} {b : Block}
    (h : map.lookup name = some b) (x : Finding) :
    remapOne? map { x with file := name } = remapOne? [(x.file, b)] x := by
  have hreason : ({ x with file := name } : Finding).reason = x.reason := rfl
  simp [remapOne?, h, hreason]

/-! ### Generated files -/

theorem scriptName_injective : Function.Injective scriptName := by
  intro i j h
  unfold scriptName at h
  generalize "/tmp/scriptcheck/script-" = front at h
  generalize ".sh" = back at h
  have hlist := congrArg String.toList h
  simp only [String.toList_append, List.append_cancel_right_eq,
    List.append_cancel_left_eq] at hlist
  exact Text.decimal_injective (String.toList_inj.mp hlist)

theorem length_nameBlocks (start : Nat) (blocks : List Block) :
    (nameBlocks start blocks).length = blocks.length := by
  induction blocks generalizing start with
  | nil => rfl
  | cons b rest ih => simp [nameBlocks, ih]

theorem map_snd_nameBlocks (start : Nat) (blocks : List Block) :
    (nameBlocks start blocks).map Prod.snd = blocks := by
  induction blocks generalizing start with
  | nil => rfl
  | cons b rest ih => simp [nameBlocks, ih]

theorem map_fst_nameBlocks (start : Nat) (blocks : List Block) :
    (nameBlocks start blocks).map Prod.fst =
      (List.range' start blocks.length).map scriptName := by
  induction blocks generalizing start with
  | nil => rfl
  | cons b rest ih => simp [nameBlocks, ih, List.range'_succ]

theorem nodup_names_nameBlocks (start : Nat) (blocks : List Block) :
    ((nameBlocks start blocks).map Prod.fst).Nodup := by
  rw [map_fst_nameBlocks]
  exact List.Nodup.map scriptName_injective List.nodup_range'

/-- What is found in the scripts of some blocks is reported block by block. -/
theorem remap_found (lint : List String → String → List Finding) (arguments : List String)
    (blocks : List Block) :
    let named := nameBlocks 0 blocks
    remap (LinterCall.found lint ⟨arguments, named.map scriptFile⟩) named =
      blocks.flatMap (reportsOf (lint arguments)) := by
  intro named
  have hblock : ∀ x ∈ named, ((lint arguments (scriptFile x).text).map fun y =>
      { y with file := (scriptFile x).name }).filterMap (remapOne? named) =
        reportsOf (lint arguments) x.2 := by
    intro x hx
    have hlookup : named.lookup x.1 = some x.2 :=
      lookup_of_mem (nodup_names_nameBlocks 0 blocks) hx
    rw [List.filterMap_map]
    exact List.filterMap_congr fun y _ => remapOne?_renamed hlookup y
  rw [remap, LinterCall.found, List.filterMap_flatMap, List.flatMap_map]
  conv_rhs => rw [← map_snd_nameBlocks 0 blocks, List.flatMap_map]
  exact List.flatMap_congr hblock

namespace Surroundings

variable {s : Surroundings} {config : Config}
  {lint : List String → String → List Finding}

/-- The call for the scripts of some blocks, if there are any. -/
def callFor (config : Config) (blocks : List Block) : Option LinterCall :=
  if blocks = [] then none
  else some ⟨linterArguments config.linterFlags, (nameBlocks 0 blocks).map scriptFile⟩

/-- The outcome for some files, if the linter finds in their scripts what there is. -/
def jointOutcome (s : Surroundings) (config : Config)
    (lint : List String → String → List Finding) (paths : List (List Char)) : Outcome where
  checkedAt := s.time
  files := paths.length
  scripts := (paths.flatMap (s.scriptsOf config)).length
  reports := (paths.flatMap (s.scriptsOf config)).flatMap
    (reportsOf (lint (linterArguments config.linterFlags)))
  errors := paths.flatMap (s.errorsOf config)

theorem extractScripts_eq (hmerge : config.merge = false) (hstrict : config.strict = false)
    (paths : List (List Char)) :
    s.extractScripts config paths = .ok (s.extractEach config paths) := by
  unfold extractScripts
  rw [if_neg (by simp [hmerge])]
  simp [hstrict, pure, Except.pure, bind, Except.bind]

theorem call_checkFiles {run : LinterCall → LinterRun} (hlinter : s.linter = .program run)
    (hmerge : config.merge = false) (hstrict : config.strict = false) (paths : List (List Char)) :
    (s.checkFiles config paths).call = callFor config (paths.flatMap (s.scriptsOf config)) := by
  rw [checkFiles, extractScripts_eq hmerge hstrict, extractEach_eq]
  dsimp only
  rw [checkExtraction, callFor]
  dsimp only
  cases h : paths.flatMap (s.scriptsOf config) with
  | nil => rfl
  | cons b rest => simp [Linter.lint, hlinter, nameBlocks]

/-- The outcome for some files where the linter answers the call with what there is to find. -/
theorem outcome_checkFiles {run : LinterCall → LinterRun} (hlinter : s.linter = .program run)
    (hmerge : config.merge = false) (hstrict : config.strict = false) {paths : List (List Char)}
    (hrun : ∀ call, (s.checkFiles config paths).call = some call →
      (run call).Answers (call.found lint)) :
    (s.checkFiles config paths).outcome = .ok (s.jointOutcome config lint paths) := by
  rw [call_checkFiles hlinter hmerge hstrict] at hrun
  rw [checkFiles, extractScripts_eq hmerge hstrict, extractEach_eq]
  dsimp only
  rw [checkExtraction]
  dsimp only
  rw [length_nameBlocks, jointOutcome, ← remap_found lint]
  generalize paths.flatMap (s.scriptsOf config) = blocks at hrun ⊢
  rcases blocks with _ | ⟨b, rest⟩
  · rfl
  · have hfindings := LinterRun.findings_eq (hrun _ (if_neg (List.cons_ne_nil b rest)))
    have hscripts : ((nameBlocks 0 (b :: rest)).map scriptFile).isEmpty = false := rfl
    simp only [Linter.lint, hscripts, hlinter, Bool.false_eq_true, if_false]
    rw [hfindings]
    rfl

section Broken

variable {p : List Char} {e : Failure} (he : s.decodeFile config p = .error e)
include he

/-- A file that cannot be decoded has no scripts. -/
theorem scriptsOf_insert (fs gs : List (List Char)) :
    (fs ++ p :: gs).flatMap (s.scriptsOf config) = (fs ++ gs).flatMap (s.scriptsOf config) := by
  have hnone : s.scriptsOf config p = [] := by rw [scriptsOf, he]
  rw [List.flatMap_append, List.flatMap_append, List.flatMap_cons, hnone, List.nil_append]

theorem errorsOf_insert (fs gs : List (List Char)) :
    (fs ++ p :: gs).flatMap (s.errorsOf config) = fs.flatMap (s.errorsOf config) ++
      ⟨String.ofList p, e.message s.detail⟩ :: gs.flatMap (s.errorsOf config) := by
  have howns : s.errorsOf config p = [⟨String.ofList p, e.message s.detail⟩] := by
    rw [errorsOf, he]
  rw [List.flatMap_append, List.flatMap_cons, howns, List.singleton_append]

theorem jointOutcome_insert (fs gs : List (List Char)) :
    s.jointOutcome config lint (fs ++ p :: gs) = { s.jointOutcome config lint (fs ++ gs) with
      files := (fs ++ gs).length + 1
      errors := fs.flatMap (s.errorsOf config) ++
        ⟨String.ofList p, e.message s.detail⟩ :: gs.flatMap (s.errorsOf config) } := by
  simp only [jointOutcome, scriptsOf_insert he, errorsOf_insert he, List.length_append,
    List.length_cons, Nat.add_assoc]

end Broken

theorem reports_jointOutcome_append (s : Surroundings) (config : Config)
    (lint : List String → String → List Finding) (fs gs : List (List Char)) :
    (s.jointOutcome config lint (fs ++ gs)).reports =
      (s.jointOutcome config lint fs).reports ++ (s.jointOutcome config lint gs).reports := by
  simp only [jointOutcome, List.flatMap_append]

theorem errors_jointOutcome_append (s : Surroundings) (config : Config)
    (lint : List String → String → List Finding) (fs gs : List (List Char)) :
    (s.jointOutcome config lint (fs ++ gs)).errors =
      (s.jointOutcome config lint fs).errors ++ (s.jointOutcome config lint gs).errors := by
  simp only [jointOutcome, List.flatMap_append]

/-- The check of two lists of files gives the reports and errors of the first and then those of the
second, counts what is in both, and passes if both do. A file that cannot be decoded adds its own
error, in its place, and nothing else. -/
theorem check_append {run : LinterCall → LinterRun} {fs gs : List (List Char)}
    (hlinter : s.linter = .program run) (hmerge : config.merge = false)
    (hstrict : config.strict = false)
    (hanswers : ∀ paths ∈ [fs, gs, fs ++ gs], ∀ call,
      (s.checkFiles config paths).call = some call → (run call).Answers (call.found lint)) :
    ∃ a b c : Outcome, (s.checkFiles config fs).outcome = .ok a ∧
      (s.checkFiles config gs).outcome = .ok b ∧
      (s.checkFiles config (fs ++ gs)).outcome = .ok c ∧
      c.reports = a.reports ++ b.reports ∧ c.errors = a.errors ++ b.errors ∧
      c.files = a.files + b.files ∧ c.scripts = a.scripts + b.scripts ∧
      (∀ level, c.count level = a.count level + b.count level) ∧
      c.passed = (a.passed && b.passed) ∧
      ∀ p e, s.decodeFile config p = .error e →
        (s.checkFiles config (fs ++ p :: gs)).call = (s.checkFiles config (fs ++ gs)).call ∧
        (s.checkFiles config (fs ++ p :: gs)).outcome = .ok { c with
          files := c.files + 1
          errors := a.errors ++ ⟨String.ofList p, e.message s.detail⟩ :: b.errors } := by
  have houtcome : ∀ paths ∈ [fs, gs, fs ++ gs],
      (s.checkFiles config paths).outcome = .ok (s.jointOutcome config lint paths) :=
    fun paths hpaths => outcome_checkFiles hlinter hmerge hstrict (hanswers paths hpaths)
  have hreports := reports_jointOutcome_append s config lint fs gs
  have herrors := errors_jointOutcome_append s config lint fs gs
  refine ⟨_, _, _, houtcome fs (by simp), houtcome gs (by simp), houtcome (fs ++ gs) (by simp),
    hreports, herrors, ?_, ?_, fun level => ?_, ?_, fun p e he => ?_⟩
  · simp only [jointOutcome, List.length_append]
  · simp only [jointOutcome, List.flatMap_append, List.length_append]
  · rw [Outcome.count, hreports, List.countP_append]
    rfl
  · rw [Bool.eq_iff_iff]
    simp only [Outcome.passed, hreports, herrors, Bool.and_eq_true, List.isEmpty_iff,
      List.append_eq_nil_iff]
    tauto
  · have hcall : (s.checkFiles config (fs ++ p :: gs)).call =
        (s.checkFiles config (fs ++ gs)).call := by
      rw [call_checkFiles hlinter hmerge hstrict, call_checkFiles hlinter hmerge hstrict,
        scriptsOf_insert he]
    have hsame : ∀ call, (s.checkFiles config (fs ++ p :: gs)).call = some call →
        (run call).Answers (call.found lint) := by
      rw [hcall]
      exact hanswers (fs ++ gs) (by simp)
    refine ⟨hcall, ?_⟩
    rw [outcome_checkFiles hlinter hmerge hstrict hsame, jointOutcome_insert he]
    rfl

/-- Finds a dollar sign. -/
def dollarLint (_ : List String) (text : String) : List Finding :=
  if text.toList.contains '$' then [⟨"", 1, 1, 6, 8, "info", 2086, "quote"⟩] else []

/-- A linter that finds dollar signs. -/
def dollarLinter (call : LinterCall) : LinterRun :=
  match call.found dollarLint with
  | [] => ⟨.code 0, "[]", ""⟩
  | found =>
    let items := found.map fun x => "[\"" ++ x.file ++ "\",1,1,6,8,\"info\",2086,\"quote\"]"
    ⟨.code 1, "[" ++ Text.joinStrings "," items ++ "]", ""⟩

/-- Two pipelines with a finding each, and a file that is none. -/
def dollarPipelines : Surroundings where
  files := .directory [("a.yml".toList, .text "job:\n  script: [echo $x, ls]\n"),
    ("b.yml".toList, .text "job:\n  script: ls $y\n"), ("c.yml".toList, .text "job: [")]
  linter := .program dollarLinter
  time := ""
  detail := ""

theorem dollarPipelines_joined :
    ∃ a b c : Outcome, (dollarPipelines.checkFiles {} ["a.yml".toList]).outcome = .ok a ∧
      (dollarPipelines.checkFiles {} ["b.yml".toList]).outcome = .ok b ∧
      (dollarPipelines.checkFiles {} ["a.yml".toList, "b.yml".toList]).outcome = .ok c ∧
      c.reports = a.reports ++ b.reports ∧ c.reports.map (·.file) = ["a.yml", "b.yml"] ∧
      c.scripts = 3 ∧
      (dollarPipelines.checkFiles {} ["a.yml".toList, "c.yml".toList, "b.yml".toList]).outcome =
        .ok { c with
          files := 3
          errors := [⟨"c.yml", "unable to parse file c.yml: "⟩] } := by
  have hcalls : ∀ paths ∈
      [["a.yml".toList], ["b.yml".toList], ["a.yml".toList] ++ ["b.yml".toList]],
      ((dollarPipelines.checkFiles {} paths).call.map fun call =>
        decide ((dollarLinter call).Answers (call.found dollarLint))) = some true := by
    decide +kernel
  have hanswers : ∀ paths ∈
      [["a.yml".toList], ["b.yml".toList], ["a.yml".toList] ++ ["b.yml".toList]],
      ∀ call, (dollarPipelines.checkFiles {} paths).call = some call →
        (dollarLinter call).Answers (call.found dollarLint) := by
    intro paths hpaths call hcall
    have hrun := hcalls paths hpaths
    rw [hcall] at hrun
    simpa using hrun
  have hfails : dollarPipelines.decodeFile {} "c.yml".toList = .error (.malformed "c.yml") := by
    decide +kernel
  obtain ⟨a, b, c, ha, hb, hc, hreports, herrors, -, -, -, -, hbroken⟩ :=
    check_append rfl rfl rfl hanswers
  have hsummary :
      (dollarPipelines.checkFiles {} (["a.yml".toList] ++ ["b.yml".toList])).outcome.map
        (fun c => (c.reports.map (·.file), c.files, c.scripts, c.errors)) =
          .ok (["a.yml", "b.yml"], 2, 3, []) := by
    decide +kernel
  rw [hc] at hsummary
  obtain ⟨hfiles, hrest⟩ := Prod.mk.inj (Except.ok.inj hsummary)
  obtain ⟨hcount, hrest⟩ := Prod.mk.inj hrest
  obtain ⟨hscripts, hnone⟩ := Prod.mk.inj hrest
  rw [herrors, List.append_eq_nil_iff] at hnone
  refine ⟨a, b, c, ha, hb, hc, hreports, hfiles, hscripts, ?_⟩
  have houtcome := (hbroken _ _ hfails).2
  rw [hcount, hnone.1, hnone.2] at houtcome
  exact houtcome

end Surroundings

end PipelineScripts.Check
