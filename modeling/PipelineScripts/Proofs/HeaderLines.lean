import PipelineScripts.Check.Report
import PipelineScripts.Proofs.Blocks
import PipelineScripts.Proofs.Comments

/-!
# Lines of generated files

A generated file is a header, perhaps empty, and a script. What the header says comes from comments
and from the default shell, so it takes one line or none, as `Block.headerLines` counts. A finding
is therefore reported with the line of text it is about, at that line's place in the pipeline file.
-/
namespace PipelineScripts.Text

/-- A line of a text, counted from one. -/
def lineAt? (s : String) (n : Nat) : Option String := ((lines s.toList)[n - 1]?).map String.ofList

/-- A text without a line feed that is ended by one makes one line, whatever follows. -/
theorem exists_lines_append_newline {a : List Char} (h : '\n' ∉ a) :
    ∃ l, ∀ b, lines (a ++ '\n' :: b) = l :: lines b := by
  induction a with
  | nil => exact ⟨[], fun b => rfl⟩
  | cons c r ih =>
    -- A carriage return at the end belongs to the line break.
    by_cases hlast : c = '\r' ∧ r = []
    · obtain ⟨rfl, rfl⟩ := hlast
      exact ⟨[], fun b => rfl⟩
    · obtain ⟨l, hl⟩ := ih (fun hr => h (List.mem_cons_of_mem c hr))
      refine ⟨c :: l, fun b => ?_⟩
      have hopen : lines (c :: (r ++ '\n' :: b)) = consFirst c (lines (r ++ '\n' :: b)) := by
        refine lines.eq_4 c _ ?_ ?_
        · rintro rfl
          simp at h
        · rintro rest rfl hrest
          cases r with
          | nil => exact hlast ⟨rfl, rfl⟩
          | cons x r =>
            obtain ⟨rfl, -⟩ := List.cons.inj hrest
            simp at h
      rw [List.cons_append, hopen, hl b, consFirst]

end PipelineScripts.Text

namespace PipelineScripts.Script

open Text Yaml

/-! ### No line feed in a block's options -/

/-- The directives of an expansion are those around it and those of comments in the file. -/
theorem oneLine_of_expands {s : Scope} (hs : s.file.OneLineComments) {d : Option Directive}
    {id : NodeId} {out : List Fragment} (h : s.Expands d id out) (hd : ∀ x ∈ d, x.OneLine) :
    ∀ fragment ∈ out, ∀ x ∈ fragment.directive, x.OneLine := by
  induction h with
  | scalar hk | literal hk | folded hk =>
    intro fragment hfragment
    rw [List.mem_singleton.mp hfragment]
    exact hd
  | @sequence d id items comments parts hk hlength hitems ih =>
    intro fragment hfragment
    obtain ⟨part, hpart, hfragment⟩ := List.mem_flatten.mp hfragment
    obtain ⟨i, hi, rfl⟩ := List.getElem_of_mem hpart
    have hi' : i < items.length := by omega
    refine ih i _ _ (List.getElem?_eq_getElem hi') (List.getElem?_eq_getElem hi) ?_ fragment
      hfragment
    refine Directive.OneLine.combine hd fun x hx => Directive.OneLine.ofComments? ?_ hx
    intro text htext
    obtain ⟨c, hc, rfl⟩ := List.mem_map.mp htext
    refine hs.kind? hk (List.mem_flatten.mpr ⟨comments[i]?.getD [], ?_, hc⟩)
    cases hcomments : comments[i]? with
    | none => simp [hcomments] at hc
    | some group => exact List.mem_of_getElem? hcomments
  | anchor hk hvalue ih | aliasOf hk htarget hvalue ih | tagged hk htag hvalue ih
  | reference hk hpath htarget hvalue ih => exact ih hd
  | malformed | notFound | mapping | entry | absent => simp

theorem oneLine_of_expandedIn {f : File} (hf : f.OneLineComments) {fragment : Fragment}
    (h : fragment.ExpandedIn f) : ∀ x ∈ fragment.directive, x.OneLine := by
  obtain ⟨s, id, out, rfl, hout, hmem⟩ := h
  exact oneLine_of_expands hf (Scope.expands_of_expandWithin hout) (by simp) fragment hmem

theorem oneLine_directive? {f : File} (hf : f.OneLineComments) (d : Draft) :
    ∀ x ∈ d.directive? f, x.OneLine := by
  intro x hx
  refine Directive.OneLine.ofComments? ?_ hx
  intro text htext
  obtain ⟨c, hc, rfl⟩ := List.mem_map.mp htext
  unfold File.entryComments at hc
  split at hc
  next key value comments hk => exact hf.kind? hk hc
  next => simp at hc

namespace Block

/-- Neither the shell nor the directive of a block has a line feed. -/
structure OneLine (b : Block) : Prop where
  shell : Text.OneLine b.shell
  directive : ∀ d ∈ b.directive, d.OneLine

theorem OneLine.of_decode {f : File} {shell : String} {blocks : List Block}
    (hf : f.OneLineComments) (hshell : Text.OneLine shell) (h : decode f shell = .ok blocks)
    {b : Block} (hb : b ∈ blocks) : b.OneLine := by
  obtain ⟨d, fragment, name, hfragment, rfl⟩ := exists_fragment_of_decode h hb
  have hdirective := Directive.OneLine.combine (oneLine_directive? hf d)
    (oneLine_of_expandedIn hf hfragment)
  refine ⟨?_, hdirective⟩
  show Text.OneLine (chooseShell _ shell)
  unfold chooseShell
  split
  next x hx =>
    split_ifs
    · exact hshell
    · exact (hdirective x hx).shell
  next => exact hshell

theorem OneLine.headerOptions {b : Block} (hb : b.OneLine) {option : String}
    (h : option ∈ b.headerOptions) : Text.OneLine option := by
  rcases List.mem_append.mp h with h | h
  · split_ifs at h
    · simp at h
    · rw [List.mem_singleton.mp h]
      have hshell : '\n' ∉ b.shell.toList := hb.shell
      simp [Text.OneLine, hshell]
  · split at h
    next => simp at h
    next rules _ =>
      rw [List.mem_singleton.mp h]
      have hrules : '\n' ∉ (joinStrings "," b.disabledRules).toList := by
        refine oneLine_joinStrings (by simp [Text.OneLine]) ?_
        intro rule hrule
        unfold disabledRules at hrule
        split at hrule
        next d hd => exact (hb.directive d hd).disabledRules hrule
        next => simp at hrule
      simp [Text.OneLine, hrules]

/-! ### Line numbers -/

theorem headerLines_le_one (b : Block) : b.headerLines ≤ 1 := by
  unfold headerLines
  split_ifs <;> omega

/-- The header ends with its only line feed. -/
theorem OneLine.header? {b : Block} (hb : b.OneLine) {header : String}
    (h : b.header? = some header) : ∃ a, '\n' ∉ a ∧ header.toList = a ++ ['\n'] := by
  unfold Block.header? at h
  split_ifs at h
  split at h
  next => cases h
  next options hoptions =>
    cases h
    refine ⟨("# shellcheck " ++ joinStrings " " b.headerOptions).toList, ?_, by simp⟩
    have hjoined : '\n' ∉ (joinStrings " " b.headerOptions).toList :=
      oneLine_joinStrings (by simp [Text.OneLine]) fun option => hb.headerOptions
    simp [hjoined]

/-- The lines of a generated file: that of the header, if there is one, and those of the script. -/
theorem OneLine.lines_text {b : Block} (hb : b.OneLine) :
    ∃ header, (lines (b.header?.getD "").toList) = header ∧ header.length = b.headerLines ∧
      lines b.text.toList = header ++ lines b.script.toList := by
  cases h : b.header? with
  | none => exact ⟨[], by simp [lines], by simp [headerLines, h], by simp [Block.text, h]⟩
  | some header =>
    obtain ⟨a, ha, heq⟩ := hb.header? h
    obtain ⟨l, hl⟩ := exists_lines_append_newline ha
    refine ⟨[l], ?_, by simp [headerLines, h], ?_⟩
    · have hnil : lines [] = [] := rfl
      simpa [heq, hnil] using hl []
    · simpa [Block.text, h, heq] using hl b.script.toList

end Block

end PipelineScripts.Script

namespace PipelineScripts.Check

open Script Text Yaml

/-- What is reported where a block has a finding. -/
def Finding.reportOn (b : Block) (finding : Finding) : Report where
  file := b.file
  path := b.path
  level := Level.parse finding.level
  line := pipelineLine b finding.line
  column := finding.column
  endColumn := finding.endColumn
  reason := finding.reason
  message := finding.message
  sourceLine := scriptLine? b finding.line

/-- A finding of a known file is reported in its turn, unless its rule is disabled. -/
theorem remap_reportOn {map : BlockMap} {finding : Finding} {b : Block}
    (hfile : map.lookup finding.file = some b) (hrule : finding.reason ∉ b.disabledRules)
    (before after : List Finding) : remap (before ++ finding :: after) map =
      remap before map ++ finding.reportOn b :: remap after map := by
  have hreport : remapOne? map finding = some (finding.reportOn b) := by
    simp [remapOne?, hfile, hrule, Finding.reportOn]
  simp [remap, List.filterMap_append, hreport]

theorem remap_append_cons {map : BlockMap} {finding : Finding} {b : Block}
    (hfile : map.lookup finding.file = some b) (hrule : finding.reason ∉ b.disabledRules) :
    ∃ report, report.line = pipelineLine b finding.line ∧
      report.sourceLine = scriptLine? b finding.line ∧
      ∀ before after, remap (before ++ finding :: after) map =
        remap before map ++ report :: remap after map :=
  ⟨finding.reportOn b, rfl, rfl, remap_reportOn hfile hrule⟩

/-- The generated file and the reports about it agree on lines. The header takes as many lines as
are counted. A finding below it is reported with the line of the file it is about, at that line's
place in the pipeline file; a finding in the header is about the header's only line, which is not
part of the script. -/
theorem report_agrees_with_text {f : File} {shell : String} {blocks : List Block} {b : Block}
    (hf : f.FromReader) (hshell : OneLine shell) (h : decode f shell = .ok blocks)
    (hb : b ∈ blocks) :
    (lines (b.header?.getD "").toList).length = b.headerLines ∧
    ∀ (map : BlockMap) (finding : Finding), map.lookup finding.file = some b →
      finding.reason ∉ b.disabledRules → 1 ≤ finding.line →
      b.startLine + finding.line < wordSize →
      ∃ report : Report,
        (∀ before after, remap (before ++ finding :: after) map =
          remap before map ++ report :: remap after map) ∧
        (b.headerLines < finding.line →
          report.sourceLine = lineAt? b.text finding.line ∧
          report.line = b.startLine + finding.line - 1 - b.headerLines) ∧
        (finding.line ≤ b.headerLines →
          report.sourceLine = none ∧
          ∃ header l, b.header? = some header ∧ lines header.toList = [l] ∧
            lineAt? b.text finding.line = some (String.ofList l)) := by
  have hone := Block.OneLine.of_decode hf.oneLineComments hshell h hb
  obtain ⟨header, hheader, hlength, htext⟩ := hone.lines_text
  refine ⟨by rw [hheader, hlength], ?_⟩
  intro map finding hfile hrule hpos hword
  obtain ⟨report, hline, hsource, hremap⟩ := remap_append_cons hfile hrule
  refine ⟨report, hremap, fun hbelow => ⟨?_, ?_⟩, fun hin => ⟨?_, ?_⟩⟩
  · rw [hsource, scriptLine?, if_neg (by omega), lineAt?, htext,
      List.getElem?_append_right (by omega), hlength]
    congr 2
    omega
  · rw [hline, pipelineLine, Nat.mod_eq_of_lt hword]
    omega
  · rw [hsource, scriptLine?, if_pos (by omega)]
  · -- The header takes one line, and the finding is on it.
    have hle := b.headerLines_le_one
    have hfirst : finding.line = 1 := by omega
    obtain ⟨text, hsome⟩ : ∃ text, b.header? = some text := by
      cases hnone : b.header? with
      | none => simp [Block.headerLines, hnone] at hin; omega
      | some text => exact ⟨text, rfl⟩
    obtain ⟨l, hl⟩ := List.length_eq_one_iff.mp (show header.length = 1 by omega)
    refine ⟨text, l, hsome, ?_, ?_⟩
    · rw [← hl, ← hheader, hsome, Option.getD_some]
    · rw [lineAt?, htext, hfirst, hl]
      rfl

/-- A pipeline with one script of two lines. -/
def samplePipeline : String :=
  "build:\n  script:\n    # scriptcheck disable=SC2086\n    - |\n      make $x\n      echo\n"

/-- The block of `samplePipeline`, with a header for its shell and its disabled rule. -/
def sampleBlock : Block where
  file := "ci.yml"
  name := "build_script"
  script := "make $x\necho\n"
  shell := "sh"
  path := "$.build.script"
  startLine := 5
  directive := some (Directive.empty.set "disable" "SC2086")
  entry := some 4

/-- A finding on the last line of the generated file, which is the sixth of the pipeline file. -/
theorem sampleBlock_report :
    ∃ f, File.parse "ci.yml" samplePipeline = .ok f ∧ OneLine "sh" ∧
      decode f "sh" = .ok [sampleBlock] ∧ sampleBlock.headerLines = 1 ∧
      ∃ report, remap [⟨"ci-build_script.sh", 3, 3, 1, 5, "info", 2000, "Quote this."⟩]
          [("ci-build_script.sh", sampleBlock)] = [report] ∧
        report.sourceLine = some "echo" ∧ report.line = 6 := by
  have hrun : ((File.parse "ci.yml" samplePipeline).toOption.bind fun f =>
      (decode f "sh").toOption) = some [sampleBlock] := by decide +kernel
  obtain ⟨f, hparse, hdecode⟩ := Option.bind_eq_some_iff.mp hrun
  have hf := toOption_eq_some.mp hparse
  have hblocks := toOption_eq_some.mp hdecode
  have hshell : OneLine "sh" := by simp [OneLine]
  obtain ⟨report, hremap, hbelow, -⟩ :=
    (report_agrees_with_text (.alone hf) hshell hblocks (List.mem_singleton.mpr rfl)).2
      [("ci-build_script.sh", sampleBlock)]
      ⟨"ci-build_script.sh", 3, 3, 1, 5, "info", 2000, "Quote this."⟩
      rfl (by decide +kernel) (by decide) (by decide +kernel)
  obtain ⟨hsource, hline⟩ := hbelow (by decide +kernel)
  refine ⟨f, hf, hshell, hblocks, by decide +kernel, report, hremap [] [], ?_, ?_⟩
  · exact hsource.trans (by decide +kernel)
  · exact hline.trans (by decide +kernel)

end PipelineScripts.Check
