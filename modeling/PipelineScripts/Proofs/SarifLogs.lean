import Mathlib.Data.List.Forall2
import PipelineScripts.Proofs.OrderedLists
import PipelineScripts.Proofs.ReadBack
import PipelineScripts.Rendering.Sarif

/-!
# What a SARIF log says

The log of an outcome is read back from its text: its table of rules, and a result for each report
that names its rule and stands where the report does. The rules are the reasons that occur, each
once and in ascending order, in whatever order they are collected, and the results point at them.
-/
namespace PipelineScripts.Rendering

open Check Json

/-! ### Reading a log -/

/-- Where a result stands, as a log says it. -/
structure SarifRegion where
  startLine : Int
  startColumn : Option Int
  endColumn : Option Int
deriving DecidableEq, Repr

/-- A rule of a log. -/
structure SarifRule where
  id : String
  shortDescription : String
deriving DecidableEq, Repr

/-- A result of a log. -/
structure SarifResult where
  ruleId : String
  ruleIndex : Nat
  level : String
  message : String
  uri : String
  path : String
  region : SarifRegion
deriving DecidableEq, Repr

/-- The rules and the results of a log. -/
structure SarifLog where
  rules : List SarifRule
  results : List SarifResult
deriving DecidableEq, Repr

/-- The value at the end of some keys, each the only one of its name. -/
def valueAt? (v : Json) (keys : List String) : Option Json :=
  keys.foldlM (fun v key => v.member? key) v

/-- The only item of an array. -/
def onlyItem? (v : Json) : Option Json :=
  match v with
  | .array [item] => some item
  | _ => none

def SarifRegion.ofJson? (v : Json) : Option SarifRegion := do
  let startLine ← (v.member? "startLine").bind integer?
  return ⟨startLine, (v.member? "startColumn").bind integer?, (v.member? "endColumn").bind integer?⟩

def SarifRule.ofJson? (v : Json) : Option SarifRule := do
  let id ← (v.member? "id").bind text?
  let shortDescription ← (valueAt? v ["shortDescription", "text"]).bind text?
  return ⟨id, shortDescription⟩

def SarifResult.ofJson? (v : Json) : Option SarifResult := do
  let ruleId ← (v.member? "ruleId").bind text?
  let ruleIndex ← (v.member? "ruleIndex").bind natural?
  let level ← (v.member? "level").bind text?
  let message ← (valueAt? v ["message", "text"]).bind text?
  let location ← (v.member? "locations").bind onlyItem?
  let uri ← (valueAt? location ["physicalLocation", "artifactLocation", "uri"]).bind text?
  let region ← (valueAt? location ["physicalLocation", "region"]).bind SarifRegion.ofJson?
  let logical ← (location.member? "logicalLocations").bind onlyItem?
  let path ← (logical.member? "fullyQualifiedName").bind text?
  return ⟨ruleId, ruleIndex, level, message, uri, path, region⟩

def SarifLog.ofJson? (v : Json) : Option SarifLog := do
  let run ← (v.member? "runs").bind onlyItem?
  let rules ← (valueAt? run ["tool", "driver", "rules"]).bind items?
  let results ← (run.member? "results").bind items?
  return ⟨← rules.mapM SarifRule.ofJson?, ← results.mapM SarifResult.ofJson?⟩

/-- Reads a log from its text. -/
def SarifLog.read? (text : String) : Option SarifLog := (parse? text.toList).bind SarifLog.ofJson?

/-! ### The log of an outcome -/

/-- A number as a word of 64 bits that is read as a signed number. -/
def signed (n : Nat) : Int := Int.bmod n Text.wordSize

def SarifRegion.of (r : Report) : SarifRegion where
  startLine := signed r.line
  startColumn := if 0 < r.column then some (signed r.column) else none
  endColumn := if 0 < r.endColumn then some (signed r.endColumn) else none

def SarifResult.of (ids : List String) (r : Report) : SarifResult where
  ruleId := r.reason
  ruleIndex := ids.idxOf r.reason
  level := sarifLevel r.level
  message := r.message
  uri := fileUri r.file
  path := r.path
  region := .of r

def SarifLog.of (o : Outcome) : SarifLog where
  rules := (ruleIds o).map fun id => ⟨id, ruleMessage o id⟩
  results := o.reports.map (SarifResult.of (ruleIds o))

theorem ofJson?_regionJson (r : Report) :
    SarifRegion.ofJson? (regionJson r) = some (.of r) := by
  unfold SarifRegion.ofJson? SarifRegion.of regionJson
  by_cases hcolumn : 0 < r.column <;> by_cases hend : 0 < r.endColumn <;>
    simp [hcolumn, hend, member?, onlyMember?, signedJson, integer?, signed]

theorem ofJson?_ruleJson (o : Outcome) (id : String) :
    SarifRule.ofJson? (ruleJson o id) = some ⟨id, ruleMessage o id⟩ := by
  simp [SarifRule.ofJson?, ruleJson, valueAt?, member?, onlyMember?, textJson, text?]

theorem ofJson?_resultJson (ids : List String) (r : Report) :
    SarifResult.ofJson? (resultJson ids r) = some (.of ids r) := by
  simp [SarifResult.ofJson?, SarifResult.of, resultJson, locationJson, valueAt?, member?,
    onlyMember?, textJson, text?, onlyItem?, ofJson?_regionJson]

theorem ofJson?_sarifJson (o : Outcome) : SarifLog.ofJson? (sarifJson o) = some (.of o) := by
  simp [SarifLog.ofJson?, SarifLog.of, sarifJson, valueAt?, member?, onlyMember?, onlyItem?,
    items?, mapM_map_of_eq_some (ofJson?_ruleJson o), mapM_map_of_eq_some (ofJson?_resultJson _)]

theorem plain_regionJson (r : Report) : Plain (regionJson r) := by
  have hcolumn : ∀ (name : String) (n : Nat) (m : String × Json),
      m ∈ (if 0 < n then [(name, signedJson n)] else []) → Plain m.2 := by
    intro name n m hm
    split_ifs at hm
    · rw [List.mem_singleton.mp hm]
      exact .integer _
    · cases hm
  refine .object fun m hm => ?_
  rcases List.mem_append.mp hm with hm | hm
  · rcases List.mem_append.mp hm with hm | hm
    · exact hcolumn _ _ m hm
    · exact hcolumn _ _ m hm
  · rw [List.mem_singleton.mp hm]
    exact .integer _

theorem plain_sarifJson (o : Outcome) : Plain (sarifJson o) := by
  simp [sarifJson, ruleJson, resultJson, textJson, locationJson, plain_regionJson]

theorem read?_sarifText (o : Outcome) : SarifLog.read? (sarifText o) = some (.of o) := by
  rw [SarifLog.read?, sarifText, String.toList_ofList, (plain_sarifJson o).parse?_render]
  exact ofJson?_sarifJson o

/-! ### Rules -/

theorem mem_ruleIds {o : Outcome} {id : String} :
    id ∈ ruleIds o ↔ ∃ r ∈ o.reports, r.reason = id := by
  rw [show ruleIds o = ascending (o.reports.map (·.reason)) from rfl, mem_ascending, List.mem_map]

/-- A rule is described by the first of its reports. -/
theorem exists_first_report {o : Outcome} {id : String} (h : id ∈ ruleIds o) :
    ∃ before r after, o.reports = before ++ r :: after ∧ r.reason = id ∧
      (∀ x ∈ before, x.reason ≠ id) ∧ ruleMessage o id = r.message := by
  obtain ⟨r', hr', hreason'⟩ := mem_ruleIds.mp h
  obtain ⟨r, hfind⟩ : ∃ r, o.reports.find? (·.reason == id) = some r :=
    Option.isSome_iff_exists.mp (List.find?_isSome.mpr ⟨r', hr', by simpa using hreason'⟩)
  obtain ⟨hreason, before, after, hsplit, hbefore⟩ := List.find?_eq_some_iff_append.mp hfind
  refine ⟨before, r, after, hsplit, by simpa using hreason, fun x hx => ?_, ?_⟩
  · simpa using hbefore x hx
  · rw [ruleMessage, hfind]
    rfl

/-- A result says what a report does, and points at its rule. -/
structure SarifResult.IsOf (log : SarifLog) (result : SarifResult) (r : Report) : Prop where
  ruleId : result.ruleId = r.reason
  level : result.level = sarifLevel r.level
  message : result.message = r.message
  uri : result.uri = fileUri r.file
  path : result.path = r.path
  rule : ∃ rule, log.rules[result.ruleIndex]? = some rule ∧ rule.id = r.reason

/-- The log of an outcome has a result for each report, in their order. Its rules are the reasons of
the reports in strictly ascending order, as they come out of any way to collect and sort them; each
result points at its rule, and each rule is described by the message of the first of its reports. -/
theorem sarif_rules_agree (o : Outcome) : ∃ log, SarifLog.read? (sarifText o) = some log ∧
    List.Forall₂ (SarifResult.IsOf log) log.results o.reports ∧
    (log.rules.map (·.id)).Pairwise (· < ·) ∧
    (∀ id, id ∈ log.rules.map (·.id) ↔ ∃ r ∈ o.reports, r.reason = id) ∧
    (∀ keys : List String, keys.Nodup → (∀ id, id ∈ keys ↔ ∃ r ∈ o.reports, r.reason = id) →
      keys.mergeSort (· ≤ ·) = log.rules.map (·.id)) ∧
    ∀ rule ∈ log.rules, ∃ before r after, o.reports = before ++ r :: after ∧ r.reason = rule.id ∧
      (∀ x ∈ before, x.reason ≠ rule.id) ∧ rule.shortDescription = r.message := by
  have hids : (SarifLog.of o).rules.map (·.id) = ruleIds o := by
    rw [SarifLog.of, List.map_map]
    exact List.map_id _
  refine ⟨.of o, read?_sarifText o, ?_, ?_, ?_, ?_, ?_⟩
  · rw [SarifLog.of, List.forall₂_map_left_iff, List.forall₂_same]
    intro r hr
    refine ⟨rfl, rfl, rfl, rfl, rfl, ?_⟩
    have hmem : r.reason ∈ ruleIds o := mem_ruleIds.mpr ⟨r, hr, rfl⟩
    have hget : (ruleIds o)[(ruleIds o).idxOf r.reason]? = some r.reason :=
      List.getElem?_idxOf hmem
    refine ⟨⟨r.reason, ruleMessage o r.reason⟩, ?_, rfl⟩
    rw [SarifResult.of, List.getElem?_map, hget]
    rfl
  · rw [hids]
    exact pairwise_ascending _
  · intro id
    rw [hids, mem_ruleIds]
  · intro keys hkeys hmem
    rw [hids]
    refine mergeSort_eq_ascending hkeys fun id => ?_
    rw [hmem, List.mem_map]
  · intro rule hrule
    obtain ⟨id, hid, rfl⟩ := List.mem_map.mp hrule
    exact exists_first_report hid

end PipelineScripts.Rendering
