import PipelineScripts.Proofs.BlockNodes
import PipelineScripts.Proofs.HeaderLines
import PipelineScripts.Proofs.SourceLines
import Mathlib.Data.List.Infix

/-!
# Lines of folded scalars

Folding keeps lines: each line of the script that a folded scalar becomes is the line of the source
at the same distance from the header, without its blanks in front, and continued by a backslash
where shell has to read on. So a finding about such a line is reported at its line of the source.
-/
namespace PipelineScripts.Script

open Text Yaml

/-- What a line of a folded scalar becomes: it has no blanks in front, and it is continued unless
it is blank, a comment or the last. -/
def foldedLine (isLast : Bool) (line : List Char) : List Char :=
  trimStart line ++
    if !isAllBlank line && (trimStart line).head? != some '#' && !isLast then [' ', '\\'] else []

theorem foldedLine_congr {a b : List Char} (isLast : Bool) (h : trimStart a = trimStart b) :
    foldedLine isLast a = foldedLine isLast b := by
  have hblank : isAllBlank a = isAllBlank b := by
    rw [Bool.eq_iff_iff, ← trimStart_eq_nil_iff, ← trimStart_eq_nil_iff, h]
  rw [foldedLine, foldedLine, h, hblank]

theorem continueLine_eq (isLast : Bool) (line : List Char) :
    continueLine isLast line = foldedLine isLast line := by
  unfold continueLine foldedLine
  cases h : trimStart line with
  | nil => simp [trimStart_eq_nil_iff.mp h]
  | cons c r =>
    have hblank : isAllBlank line = false := by
      rw [← Bool.not_eq_true, ← trimStart_eq_nil_iff, h]
      simp
    by_cases hc : c = '#' <;> cases isLast <;> simp [hblank, hc]

/-- Every line is continued but the last. -/
theorem getElem?_continueLines (ls : List (List Char)) (k : Nat) :
    (continueLines ls)[k]? = ls[k]?.map (foldedLine (decide (k + 1 = ls.length))) := by
  fun_induction continueLines ls generalizing k with
  | case1 => rfl
  | case2 line =>
    cases k with
    | zero => simp [continueLine_eq]
    | succ k => simp
  | case3 line rest hne ih =>
    have hpos : rest.length ≠ 0 := fun hzero => hne (List.length_eq_zero_iff.mp hzero)
    cases k with
    | zero =>
      have hlast : decide (0 + 1 = (line :: rest).length) = false := by
        simp only [List.length_cons, decide_eq_false_iff_not]
        omega
      rw [hlast]
      simp [continueLine_eq]
    | succ k =>
      rw [List.getElem?_cons_succ, List.getElem?_cons_succ, ih]
      simp

theorem length_continueLines (ls : List (List Char)) : (continueLines ls).length = ls.length := by
  fun_induction continueLines ls with
  | case1 => rfl
  | case2 => rfl
  | case3 line rest _ ih => simp [ih]

/-- Lines without breaks become lines without breaks. -/
theorem unbroken_continueLines {ls : List (List Char)} (h : ∀ l ∈ ls, Unbroken l) :
    ∀ l ∈ continueLines ls, Unbroken l := by
  intro l hl
  obtain ⟨k, hk⟩ := List.mem_iff_getElem?.mp hl
  rw [getElem?_continueLines] at hk
  obtain ⟨m, hm, rfl⟩ := Option.map_eq_some_iff.mp hk
  have hsub := (h m (List.mem_of_getElem? hm)).of_subset fun c => mem_of_mem_trimStart
  refine hsub.append ?_
  split_ifs
  · exact ⟨by decide, by decide⟩
  · exact .nil

/-! ### Folding a body -/

theorem rawText_eq_join {body : List (List Char)} (h : body ≠ []) :
    TreeSource.rawText body = join ['\n'] body ++ ['\n'] := by
  induction body with
  | nil => exact absurd rfl h
  | cons l body ih =>
    cases body with
    | nil => simp [join]
    | cons m body =>
      rw [TreeSource.rawText_cons, ih (by simp)]
      simp [join]

theorem LineBreak.ofText_eq_lf {s : List Char} (h : '\r' ∉ s) : ofText s = lf := by
  have hone : (splitCrlf s).length = 1 := by
    fun_induction splitCrlf s with
    | case1 => rfl
    | case2 r => simp at h
    | case3 c r _ ih =>
      obtain ⟨l, hl⟩ := List.length_eq_one_iff.mp (ih fun hr => h (List.mem_cons_of_mem c hr))
      rw [hl]
      rfl
  rw [ofText, if_pos hone]

/-- A folded scalar's script is the text of its body's lines, each continued in its turn. -/
theorem foldLiteral_rawText {body : List (List Char)} (h : ∀ l ∈ body, Unbroken l) :
    foldLiteral (TreeSource.rawText body) = TreeSource.rawText (continueLines body) := by
  have hreturn : '\r' ∉ TreeSource.rawText body := by
    intro hmem
    obtain ⟨l, hl, hr⟩ := List.mem_flatMap.mp hmem
    have hnone := (h l hl).return_
    simp [hnone] at hr
  rw [foldLiteral, LineBreak.ofText_eq_lf hreturn]
  dsimp only [LineBreak.chars]
  by_cases hne : body = []
  · subst hne
    rfl
  · have hsuffix : ['\n'].isSuffixOf? (TreeSource.rawText body) = some (join ['\n'] body) := by
      rw [List.isSuffixOf?_eq_some_iff_append_eq, rawText_eq_join hne]
    have hcontinue : continueLines body ≠ [] := by
      intro hnil
      have hlength := length_continueLines body
      rw [hnil] at hlength
      exact hne (List.length_eq_zero_iff.mp hlength.symm)
    have hsplit := split_join hne fun l hl => (h l hl).newline
    rw [hsuffix]
    split
    next hempty =>
      -- The body is one empty line, and stays so.
      have hjoin : join ['\n'] body = [] := Option.some.inj hempty
      rw [hjoin] at hsplit
      subst hsplit
      rfl
    next hjoin =>
      cases hjoin
      rw [LineBreak.split, hsplit, ← rawText_eq_join hcontinue]
    next hnone => cases hnone

/-! ### Input tokens -/

/-- No input token starts anywhere in a text. -/
def NoInputToken (s : List Char) : Prop := ∀ t, t <:+ s → inputToken? t = none

/-- Without a token nothing is replaced. -/
theorem replaceInputs_of_noInputToken {s : List Char} (h : NoInputToken s) :
    replaceInputs s = s := by
  have hfrom : ∀ (q : QuoteState) (t : List Char), t <:+ s → replaceFrom q 0 t = t := by
    intro q t ht
    induction t generalizing q with
    | nil => rfl
    | cons c r ih =>
      rw [replaceFrom, h (c :: r) ht]
      exact congrArg (c :: ·) (ih _ ((List.suffix_cons c r).trans ht))
  exact hfrom {} s List.suffix_rfl

/-! ### Bodies in their source -/

/-- The body of a folded scalar: as text, line by line in the source, and as script. -/
theorem exists_body_of_folded {name : String} {source : List Char} {events : List Event}
    {aliases : List (Nat × String)} {f : File}
    (h : File.ofEvents? name source events aliases = some f)
    (hreturn : ∀ l ∈ lines source, '\r' ∉ l) {id : NodeId} {n : Node} {value raw : String}
    (hn : f.node? id = some n) (hk : n.kind = .block true value raw) :
    ∃ body, lines raw.toList = body ∧ lines (foldLiteral raw.toList) = continueLines body ∧
      body.map trimStart <+: ((lines source).drop n.position.line).map trimStart := by
  obtain ⟨e, -, -, hraw, hposition⟩ := File.exists_event_of_block h hn hk
  generalize hbody : ((File.treeSource source aliases).blockBody e.span (blockIndicator true)).2 =
    body at hraw
  have hlines : ∀ l ∈ lines source, Unbroken l := fun l hl =>
    ⟨newline_not_mem_of_mem_lines hl, hreturn l hl⟩
  have hunbroken : ∀ l ∈ body, Unbroken l := by
    intro l hl
    rw [← hbody] at hl
    obtain rfl | ⟨m, hm, k, rfl⟩ := mem_of_mem_bodyLines hl
    · exact .nil
    · have hmem : m ∈ lines source := List.mem_of_mem_drop hm
      exact (hlines m hmem).of_subset fun c => List.mem_of_mem_drop
  refine ⟨body, ?_, ?_, ?_⟩
  · rw [hraw, TreeSource.lines_rawText hunbroken]
  · rw [hraw, foldLiteral_rawText hunbroken,
      TreeSource.lines_rawText (unbroken_continueLines hunbroken)]
  · rw [← hbody, hposition]
    exact trimStart_bodyLines _ _ _

/-- A block made of the scalar at a node. -/
def Block.MadeFrom (f : File) (shell : String) (id : NodeId) (b : Block) : Prop :=
  ∃ d directive fragment name, leafFragment? f id directive = some fragment ∧
    b = Draft.block f shell d fragment name

theorem Block.MadeFrom.of_folded {f : File} {shell : String} {id : NodeId} {b : Block}
    {value raw : String} (hb : b.MadeFrom f shell id)
    (hk : f.kind? id = some (.block true value raw))
    (htoken : NoInputToken (foldLiteral raw.toList)) :
    b.script.toList = foldLiteral raw.toList ∧ b.startLine = f.line id + 1 := by
  obtain ⟨d, directive, fragment, name, hfragment, rfl⟩ := hb
  simp only [leafFragment?, hk, if_true, Option.some.injEq] at hfragment
  subst hfragment
  simp [Draft.block, replaceInputs_of_noInputToken htoken]

end PipelineScripts.Script

namespace PipelineScripts.Check

open Script Text Yaml

/-- The lines of a folded scalar stay where they are: the script has as many as the body, and each
is what the line of the source at its place becomes. So a finding about one of them, in a generated
file whose script was made of the scalar, is reported at that line of the source. -/
theorem folded_lines_stay {name : String} {source : List Char} {events : List Event}
    {aliases : List (Nat × String)} {f : File}
    (h : File.ofEvents? name source events aliases = some f)
    (hreturn : ∀ l ∈ lines source, '\r' ∉ l) (hsize : source.length + 2 < wordSize)
    {id : NodeId} {n : Node} {value raw : String} (hn : f.node? id = some n)
    (hk : n.kind = .block true value raw) :
    let body := lines raw.toList
    let script := lines (foldLiteral raw.toList)
    script.length = body.length ∧
    (∀ k < body.length, ∃ line, (lines source)[n.position.line + k]? = some line ∧
      script[k]? = some (foldedLine (decide (k + 1 = body.length)) line)) ∧
    ∀ (g : File) (shell : String) (blocks : List Block) (b : Block) (place : NodeId),
      g.FromReader → OneLine shell → decode g shell = .ok blocks → b ∈ blocks →
      g.kind? place = some (.block true value raw) → g.line place = n.position.line →
      b.MadeFrom g shell place → NoInputToken (foldLiteral raw.toList) →
      ∀ (map : BlockMap) (finding : Finding) (k : Nat), map.lookup finding.file = some b →
        finding.reason ∉ b.disabledRules → k < body.length →
        finding.line = b.headerLines + 1 + k →
        ∃ report : Report,
          (∀ before after, remap (before ++ finding :: after) map =
            remap before map ++ report :: remap after map) ∧
          report.line = n.position.line + 1 + k ∧
          report.sourceLine = script[k]?.map String.ofList ∧
          report.sourceLine = lineAt? b.text finding.line := by
  intro body script
  obtain ⟨found, hbody, hscript, hplace⟩ := exists_body_of_folded h hreturn hn hk
  have hlength : script.length = body.length := by
    simp only [script, body, hscript, hbody, length_continueLines]
  have hline : ∀ k < body.length, ∃ line, (lines source)[n.position.line + k]? = some line ∧
      script[k]? = some (foldedLine (decide (k + 1 = body.length)) line) := by
    intro k hlt
    rw [show body = found from hbody] at hlt ⊢
    have hmap : k < (found.map trimStart).length := by simpa using hlt
    have hget := (List.prefix_iff_getElem?.mp hplace) k hmap
    rw [List.getElem_map, List.getElem?_map, List.getElem?_drop] at hget
    obtain ⟨line, hsource, htrim⟩ := Option.map_eq_some_iff.mp hget
    refine ⟨line, hsource, ?_⟩
    rw [show script = continueLines found from hscript, getElem?_continueLines,
      List.getElem?_eq_getElem hlt, Option.map_some, foldedLine_congr _ htrim]
  refine ⟨hlength, hline, ?_⟩
  intro g shell blocks b place hg hshell hdecode hb hkind hposition hmade htoken map finding k
    hfile hrule hlt hfinding
  obtain ⟨hscriptText, hstart⟩ := hmade.of_folded hkind htoken
  have hone := Block.OneLine.of_decode hg.oneLineComments hshell hdecode hb
  obtain ⟨header, -, hheader, htext⟩ := hone.lines_text
  obtain ⟨report, hreport, hsource, hremap⟩ := remap_append_cons hfile hrule
  have hat : report.sourceLine = script[k]?.map String.ofList := by
    rw [hsource, scriptLine?, if_neg (by omega), hscriptText, hfinding]
    congr 2
    omega
  refine ⟨report, hremap, ?_, hat, ?_⟩
  · -- The line is one of the source, so the sum of lines is a word.
    obtain ⟨line, hget, -⟩ := hline k hlt
    have hbound := (List.getElem?_eq_some_iff.mp hget).1
    have hlines := length_lines_le source
    have hheaderLines : b.headerLines ≤ 1 := by
      unfold Block.headerLines
      split_ifs <;> omega
    rw [hreport, pipelineLine, hstart, hposition, hfinding, Nat.mod_eq_of_lt (by omega)]
    omega
  · rw [hat, lineAt?, htext, hfinding, List.getElem?_append_right (by omega), hheader, hscriptText]
    congr 2
    omega

/-- A pipeline with a folded scalar that starts with a blank line and has a deeper line and a
comment. -/
def foldedPipeline : String :=
  "build:\n  script: >-\n\n    make all\n      --jobs 4\n    # then\n\n    echo done\n"

/-- The body of the scalar of `foldedPipeline`. -/
def foldedBody : String := "\nmake all\n  --jobs 4\n# then\n\necho done\n"

/-- The block of `foldedPipeline`. -/
def foldedBlock : Block where
  file := "ci.yml"
  name := "build_script"
  script := "\nmake all \\\n--jobs 4 \\\n# then\n\necho done\n"
  shell := "sh"
  path := "$.build.script"
  startLine := 3
  directive := none
  entry := some 3

/-- The deeper line is the fourth of the generated file, below the header, and the fifth of the
pipeline file. -/
theorem foldedBlock_report :
    ∃ f, File.parse "ci.yml" foldedPipeline = .ok f ∧ decode f "sh" = .ok [foldedBlock] ∧
      f.kind? 2 = some (.block true "\nmake all\n  --jobs 4\n# then\necho done" foldedBody) ∧
      foldedBlock.headerLines = 1 ∧
      ∃ report, remap [⟨"ci-build_script.sh", 4, 4, 1, 5, "info", 2086, "Quote this."⟩]
          [("ci-build_script.sh", foldedBlock)] = [report] ∧
        report.line = 5 ∧ report.sourceLine = some "--jobs 4 \\" := by
  let d : Draft := ⟨3, "build_script", 0, []⟩
  have hrun : ((File.parse "ci.yml" foldedPipeline).toOption.bind fun f =>
      (decode f "sh").toOption.map fun blocks => (blocks, f.node? 2,
        (leafFragment? f 2 none).map fun x => d.block f "sh" x "build_script")) =
        some ([foldedBlock],
          some ⟨.block true "\nmake all\n  --jobs 4\n# then\necho done" foldedBody, ⟨2, 5⟩,
            "$.build.script", 0⟩,
          some foldedBlock) := by decide +kernel
  obtain ⟨f, hparse, hrun⟩ := Option.bind_eq_some_iff.mp hrun
  obtain ⟨blocks, hdecode, hrun⟩ := Option.map_eq_some_iff.mp hrun
  simp only [Prod.mk.injEq] at hrun
  obtain ⟨rfl, hn, hblock⟩ := hrun
  have hf := toOption_eq_some.mp hparse
  have hblocks := toOption_eq_some.mp hdecode
  obtain ⟨events, -, hevents⟩ := File.exists_events_of_parse hf
  have hkind : f.kind? 2 =
      some (.block true "\nmake all\n  --jobs 4\n# then\necho done" foldedBody) := by
    rw [File.kind?, hn, Option.map_some]
  have hline : f.line 2 = 2 := by rw [File.line, hn, Option.map_some, Option.getD_some]
  have hmade : foldedBlock.MadeFrom f "sh" 2 := by
    obtain ⟨x, hx, hblock⟩ := Option.map_eq_some_iff.mp hblock
    exact ⟨d, none, x, "build_script", hx, hblock.symm⟩
  have htoken : NoInputToken (foldLiteral foldedBody.toList) := by
    have hall : ∀ t ∈ (foldLiteral foldedBody.toList).tails, inputToken? t = none := by
      decide +kernel
    exact fun t ht => hall t ((List.mem_tails t _).mpr ht)
  obtain ⟨-, -, hreport⟩ := folded_lines_stay hevents (by decide +kernel) (by decide +kernel) hn rfl
  obtain ⟨report, hremap, hreportLine, hsource, -⟩ := hreport f "sh" [foldedBlock] foldedBlock 2
    (.alone hf) (by simp [OneLine]) hblocks (by simp) hkind hline hmade htoken
    [("ci-build_script.sh", foldedBlock)]
    ⟨"ci-build_script.sh", 4, 4, 1, 5, "info", 2086, "Quote this."⟩ 2 rfl (by decide +kernel)
    (by decide +kernel) (by decide +kernel)
  exact ⟨f, hf, hblocks, hkind, by decide +kernel, report, hremap [] [], hreportLine,
    hsource.trans (by decide +kernel)⟩

end PipelineScripts.Check
