import PipelineScripts.Proofs.HeaderLines
import PipelineScripts.Proofs.SarifLogs
import PipelineScripts.Proofs.StartLines

/-!
# Where a SARIF log places a finding

Lines and columns are words of 64 bits, and a log takes them as signed ones. So the place of a
finding is exact as far as signed words reach. A finding in the header of a script that starts on
the first line stands above the file, and the log places it on line zero.
-/
namespace PipelineScripts.Rendering

open Check Json Script Text Yaml

/-- A word that is read as a signed number stays what it is up to the greatest of them. -/
theorem signed_eq_iff {n : Nat} (h : n < wordSize) : signed n = n ↔ n < 2 ^ 63 := by
  have hmod : (n : Int) % (wordSize : Nat) = n := Int.emod_eq_of_lt (by omega) (by omega)
  rw [signed, Int.bmod_def, hmod]
  unfold wordSize at h ⊢
  split_ifs <;> omega

/-- The numbers of a finding are words. -/
theorem lt_wordSize_of_mem_readFindings? {text : List Char} {findings : List Finding}
    (h : readFindings? text = some findings) {finding : Finding} (hmem : finding ∈ findings) :
    finding.line < wordSize ∧ finding.column < wordSize := by
  have hvalues : ∀ {values : List Json}, Finding.ofValues? values = some finding →
      finding.line < wordSize ∧ finding.column < wordSize := by
    intro values hvalues
    unfold Finding.ofValues? at hvalues
    split at hvalues
    · dsimp only at hvalues
      split_ifs at hvalues with hrange
      cases hvalues
      simp only [List.all_cons, List.all_nil, Bool.and_eq_true, decide_eq_true_eq] at hrange
      dsimp only
      omega
    · cases hvalues
  unfold readFindings? at h
  split_ifs at h
  · cases h
    cases hmem
  · split at h
    next items _ =>
      obtain ⟨v, -, hv⟩ := exists_of_mem_mapM_option h hmem
      unfold Finding.ofJson? at hv
      split at hv
      · exact hvalues hv
      · obtain ⟨values, -, hv⟩ := Option.bind_eq_some_iff.mp hv
        exact hvalues hv
      · cases hv
    next => cases h

/-- The place of a finding is exact: the report is on the line of the pipeline file that the finding
is about, and the region starts on that line and in the column of the finding, counted from one. -/
structure SarifRegion.Exact (b : Block) (finding : Finding) (r : Report) (region : SarifRegion) :
    Prop where
  line : (r.line : Int) = b.startLine + finding.line - 1 - b.headerLines
  startLine : region.startLine = r.line
  one_le_startLine : 1 ≤ region.startLine
  startColumn : region.startColumn = some (finding.column : Int)
  one_le_column : 1 ≤ finding.column

/-- The line and the column of a finding can be written: as signed words they are what they are, and
the finding is not about the header of a script that starts on the first line. -/
structure Writable (b : Block) (finding : Finding) : Prop where
  line : b.startLine + finding.line < 2 ^ 63 + 1 + b.headerLines
  column : finding.column < 2 ^ 63
  below : ¬ (b.startLine = 1 ∧ finding.line ≤ b.headerLines)

theorem startLine_of (r : Report) : (SarifRegion.of r).startLine = signed r.line := by
  rw [SarifRegion.of]

theorem startColumn_of {r : Report} (h : 1 ≤ r.column) :
    (SarifRegion.of r).startColumn = some (signed r.column) := if_pos h

theorem exact_iff_writable {b : Block} {finding : Finding} (hstart : 1 ≤ b.startLine)
    (hline : 1 ≤ finding.line) (hcolumn : 1 ≤ finding.column)
    (hword : finding.column < wordSize) :
    SarifRegion.Exact b finding (finding.reportOn b) (.of (finding.reportOn b)) ↔
      Writable b finding := by
  have hheader := b.headerLines_le_one
  have hcolumn_iff := signed_eq_iff hword
  -- The line of the report, with the sum of the lines taken as a word.
  obtain ⟨n, hn⟩ : ∃ n, (finding.reportOn b).line = n := ⟨_, rfl⟩
  have hreport : n = (b.startLine + finding.line) % 18446744073709551616 - (1 + b.headerLines) := by
    rw [← hn, Finding.reportOn]
    simp only [pipelineLine, wordSize]
  have hline_iff := @signed_eq_iff n (by unfold wordSize; omega)
  constructor
  · rintro ⟨hexact, hsigned, hpos, hstartColumn, -⟩
    rw [startLine_of, hn] at hsigned hpos
    rw [hn] at hexact
    rw [hsigned] at hpos
    have hsmall : n < 2 ^ 63 := hline_iff.mp hsigned
    rw [startColumn_of hcolumn] at hstartColumn
    refine ⟨by omega, hcolumn_iff.mp (Option.some.inj hstartColumn), by omega⟩
  · rintro ⟨hsum, hsmall, hbelow⟩
    have hsigned : signed n = n := hline_iff.mpr (by omega)
    refine ⟨?_, ?_, ?_, ?_, hcolumn⟩
    · rw [hn]
      omega
    · rw [startLine_of, hn, hsigned]
    · rw [startLine_of, hn, hsigned]
      omega
    · rw [startColumn_of hcolumn]
      exact congrArg some (hcolumn_iff.mpr hsmall)

/-- Every finding about a known script is reported in its turn, and every log that lists the report
has a result for it. The place that the result names is exact just if the finding is writable. -/
theorem sarif_region_exact_iff {f : File} {shell : String} {blocks : List Block} {b : Block}
    (hf : f.FromReader) (h : decode f shell = .ok blocks) (hb : b ∈ blocks) {map : BlockMap}
    {text : List Char} {before after : List Finding} {finding : Finding}
    (hread : readFindings? text = some (before ++ finding :: after))
    (hfile : map.lookup finding.file = some b) (hrule : finding.reason ∉ b.disabledRules)
    (hline : 1 ≤ finding.line) (hcolumn : 1 ≤ finding.column) :
    ∃ report, remap (before ++ finding :: after) map =
        remap before map ++ report :: remap after map ∧
      ∀ (o : Outcome) (i : Nat), o.reports[i]? = some report →
        ∃ log result, SarifLog.read? (sarifText o) = some log ∧ log.results[i]? = some result ∧
          (SarifRegion.Exact b finding report result.region ↔ Writable b finding) := by
  refine ⟨finding.reportOn b, remap_reportOn hfile hrule before after, fun o i hi => ?_⟩
  refine ⟨.of o, .of (ruleIds o) (finding.reportOn b), read?_sarifText o, ?_, ?_⟩
  · rw [SarifLog.of, List.getElem?_map, hi]
    rfl
  · have hmem : finding ∈ before ++ finding :: after :=
      List.mem_append_right before List.mem_cons_self
    exact exact_iff_writable (one_le_startLine hf h hb) hline hcolumn
      (lt_wordSize_of_mem_readFindings? hread hmem).2

/-- A pipeline with a script on its first line. -/
def shortPipeline : String := "job: \x7bscript: echo\x7d\n"

/-- The block of `shortPipeline`, with a header for its shell. -/
def shortBlock : Block where
  file := "ci.yml"
  name := "job_script"
  script := "echo"
  shell := "sh"
  path := "$.job.script"
  startLine := 1
  directive := none
  entry := some 3

/-- Findings about `shortBlock`: in its header, far to the right, and at its beginning. -/
def shortFindings : List Finding :=
  [⟨"ci-job_script.sh", 1, 1, 1, 1, "info", 2000, "a"⟩,
    ⟨"ci-job_script.sh", 2, 2, 2 ^ 63, 2 ^ 63, "info", 2000, "b"⟩,
    ⟨"ci-job_script.sh", 2, 2, 1, 5, "info", 2000, "c"⟩]

/-- `shortFindings` as the linter writes them. -/
def shortReport : List Char :=
  (Json.array (shortFindings.map fun f => .array [.string f.file, .nat f.line, .nat f.endLine,
    .nat f.column, .nat f.endColumn, .string f.level, .nat f.code, .string f.message])).render

/-- The blocks of `shortPipeline` by their files. -/
def shortMap : BlockMap := [("ci-job_script.sh", shortBlock)]

theorem exists_shortBlock : ∃ f, File.parse "ci.yml" shortPipeline = .ok f ∧
    decode f "sh" = .ok [shortBlock] := by
  have hrun : ((File.parse "ci.yml" shortPipeline).toOption.bind fun f =>
      (decode f "sh").toOption) = some [shortBlock] := by decide +kernel
  obtain ⟨f, hparse, hdecode⟩ := Option.bind_eq_some_iff.mp hrun
  exact ⟨f, toOption_eq_some.mp hparse, toOption_eq_some.mp hdecode⟩

/-- The last of the findings is placed exactly. -/
theorem shortFindings_last_exact : ∃ f, File.parse "ci.yml" shortPipeline = .ok f ∧
    decode f "sh" = .ok [shortBlock] ∧ readFindings? shortReport = some shortFindings ∧
    ∃ report, remap shortFindings shortMap = remap (shortFindings.take 2) shortMap ++ [report] ∧
      ∃ log result, SarifLog.read? (sarifText ⟨"", 1, 1, [report], []⟩) = some log ∧
        log.results[0]? = some result ∧ result.region.startLine = 1 ∧
        result.region.startColumn = some 1 := by
  obtain ⟨f, hparse, hdecode⟩ := exists_shortBlock
  have hread : readFindings? shortReport = some shortFindings := by decide +kernel
  obtain ⟨report, hremap, hall⟩ := @sarif_region_exact_iff f "sh" [shortBlock] shortBlock
    (.alone hparse) hdecode (List.mem_singleton.mpr rfl) shortMap shortReport
    (shortFindings.take 2) [] ⟨"ci-job_script.sh", 2, 2, 1, 5, "info", 2000, "c"⟩ hread
    (by decide +kernel) (by decide +kernel) (by decide) (by decide)
  obtain ⟨log, result, hlog, hresult, hexact⟩ := hall ⟨"", 1, 1, [report], []⟩ 0 rfl
  have hplace := hexact.mpr ⟨by decide +kernel, by decide +kernel, by decide +kernel⟩
  have hline : (report.line : Int) = 1 := hplace.line.trans (by decide +kernel)
  exact ⟨f, hparse, hdecode, hread, report, hremap, log, result, hlog, hresult,
    hplace.startLine.trans hline, hplace.startColumn⟩

/-- The finding in the header is placed on line zero, and the one far to the right in a negative
column. -/
theorem shortFindings_misplaced : ∃ f, File.parse "ci.yml" shortPipeline = .ok f ∧
    decode f "sh" = .ok [shortBlock] ∧ readFindings? shortReport = some shortFindings ∧
    ∃ log, SarifLog.read? (sarifText ⟨"", 1, 1, remap shortFindings shortMap, []⟩) = some log ∧
      log.results.map (·.region) = [⟨0, some 1, some 1⟩,
        ⟨1, some (-9223372036854775808), some (-9223372036854775808)⟩, ⟨1, some 1, some 5⟩] := by
  obtain ⟨f, hparse, hdecode⟩ := exists_shortBlock
  refine ⟨f, hparse, hdecode, by decide +kernel, _, read?_sarifText _, ?_⟩
  decide +kernel

end PipelineScripts.Rendering
