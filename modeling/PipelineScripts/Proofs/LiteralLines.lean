import PipelineScripts.Proofs.BlockNodes
import PipelineScripts.Proofs.EventTokens
import PipelineScripts.Proofs.LiteralReads

/-!
# Lines of literal scalars

A literal scalar is kept twice: with the value the scanner read and with the body found again in the
lines of the source. The two have the same lines just if the header can be found from the line of
the content, and the first line below it that is not blank is deeper than it and starts in the
column of the content.
-/
namespace PipelineScripts.Yaml

open Text

/-! ### What is found again -/

/-- The depth of the first line that is not blank. -/
def firstDepth? (ls : List (List Char)) : Option Nat :=
  (ls.find? (!isAllBlank ·)).map leadingSpaces

theorem firstDepth?_eq_some_iff {ls : List (List Char)} {d : Nat} : firstDepth? ls = some d ↔
    ∃ blanks l rest, ls = blanks ++ l :: rest ∧ (∀ m ∈ blanks, isAllBlank m = true) ∧
      isAllBlank l = false ∧ leadingSpaces l = d := by
  simp only [firstDepth?, Option.map_eq_some_iff, List.find?_eq_some_iff_append]
  constructor
  · rintro ⟨l, ⟨hl, blanks, rest, rfl, hblanks⟩, rfl⟩
    exact ⟨blanks, l, rest, rfl, by simpa using hblanks, by simpa using hl, rfl⟩
  · rintro ⟨blanks, l, rest, rfl, hblanks, hl, rfl⟩
    exact ⟨l, ⟨by simpa using hl, blanks, rest, rfl, by simpa using hblanks⟩, rfl⟩

/-- A body is found just if the first line that is not blank is deeper than the header. -/
theorem bodyLines_eq_nil_iff {header : Nat} {ls : List (List Char)} :
    bodyLines header none ls = [] ↔ ∀ d ∈ firstDepth? ls, d ≤ header := by
  induction ls with
  | nil => simp [bodyLines, firstDepth?]
  | cons l ls ih =>
    rw [bodyLines]
    split_ifs with hblank
    · have hdepth : firstDepth? (l :: ls) = firstDepth? ls := by simp [firstDepth?, hblank]
      rw [hdepth, ← ih]
      cases bodyLines header none ls <;> simp
    · have hdepth : firstDepth? (l :: ls) = some (leadingSpaces l) := by
        simp [firstDepth?, hblank]
      dsimp only
      rw [hdepth, Option.getD_none]
      split_ifs with hend <;> simpa using hend

/-- A body with its indentation goes on with the lines that are in it. -/
theorem bare_bodyLines_some {header indent : Nat} (hindent : header < indent)
    {ls : List (List Char)} (hls : ∀ l ∈ ls, isAllBlank l = true → isSpaces l = true) :
    bare (bodyLines header (some indent) ls) =
      bare ((ls.takeWhile (inBody indent)).map (List.drop indent)) := by
  induction ls with
  | nil => rfl
  | cons l ls ih =>
    have ih := ih fun m hm => hls m (List.mem_cons_of_mem l hm)
    rw [bodyLines, List.takeWhile_cons]
    split_ifs with hblank hin hin
    · have hrest : bare ((l :: ls.takeWhile (inBody indent)).map (List.drop indent)) =
          bare ([] :: bodyLines header (some indent) ls) := by
        rw [List.map_cons, bare_cons, bare_cons, ih,
          trimEnd_eq_nil_iff.mpr (isAllBlank_drop hblank indent)]
        rfl
      rw [hrest]
      split
      next hnil =>
        rw [hnil]
        rfl
      next => rfl
    · simp [inBody, hls l (by simp) hblank] at hin
    · have hspaces : isSpaces l = false := by
        rw [← Bool.not_eq_true]
        exact fun hspaces => hblank (isAllBlank_of_isSpaces hspaces)
      rw [inBody, hspaces, Bool.false_or, decide_eq_true_eq] at hin
      dsimp only
      rw [Option.getD_some, if_neg (by simp; omega), List.map_cons, bare_cons, bare_cons, ih]
    · rw [inBody, Bool.or_eq_true, decide_eq_true_eq, not_or] at hin
      dsimp only
      rw [Option.getD_some, if_pos (by simp; omega)]
      rfl

/-- Where the body starts, its first line tells the indentation. -/
theorem bodyLines_append {header : Nat} {blanks rest : List (List Char)} {l : List Char}
    (hblanks : ∀ m ∈ blanks, isAllBlank m = true) (hl : isAllBlank l = false)
    (hdepth : header < leadingSpaces l) : bodyLines header none (blanks ++ l :: rest) =
      List.replicate blanks.length [] ++ l.drop (leadingSpaces l) ::
        bodyLines header (some (leadingSpaces l)) rest := by
  induction blanks with
  | nil =>
    rw [List.nil_append, bodyLines, if_neg (by simp [hl])]
    dsimp only
    rw [Option.getD_none, if_neg (by simp; omega)]
    rfl
  | cons m blanks ih =>
    rw [List.cons_append, bodyLines, if_pos (hblanks m (by simp)),
      ih fun x hx => hblanks x (List.mem_cons_of_mem m hx)]
    split
    next heq => simp at heq
    next => rfl

/-- What is in front of a text is in front of it without the blanks at its end. -/
theorem head?_trimEnd {l : List Char} (h : isAllBlank l = false) : (trimEnd l).head? = l.head? := by
  have hprefix : trimEnd l <+: l := List.rdropWhile_prefix isBlank l
  have hne : trimEnd l ≠ [] := fun hnil => by
    rw [trimEnd_eq_nil_iff.mp hnil] at h
    cases h
  obtain ⟨t, ht⟩ := hprefix
  generalize trimEnd l = m at ht hne
  subst ht
  cases m with
  | nil => exact absurd rfl hne
  | cons c m => rfl

theorem isAllBlank_drop_leadingSpaces {l : List Char} (h : isAllBlank l = false) {n : Nat}
    (hn : n ≤ leadingSpaces l) : isAllBlank (l.drop n) = false := by
  rw [← Bool.not_eq_true] at h ⊢
  intro hblank
  refine h ?_
  rw [eq_replicate_append hn, isAllBlank, List.all_append, Bool.and_eq_true]
  exact ⟨isAllBlank_of_isSpaces (isSpaces_replicate n), hblank⟩

/-- A line without some of the spaces in front is not the line without all of them. -/
theorem leadingSpaces_eq_of_trimEnd_drop {l : List Char} (h : isAllBlank l = false) {n : Nat}
    (hn : n ≤ leadingSpaces l) (heq : trimEnd (l.drop (leadingSpaces l)) = trimEnd (l.drop n)) :
    leadingSpaces l = n := by
  have hhead := congrArg List.head? heq
  rw [head?_trimEnd (isAllBlank_drop_leadingSpaces h le_rfl),
    head?_trimEnd (isAllBlank_drop_leadingSpaces h hn)] at hhead
  by_contra hne
  have hfront : (l.drop n).head? = some ' ' := by
    rw [eq_replicate_append (le_refl (leadingSpaces l)), List.head?_drop,
      List.getElem?_append_left (by rw [List.length_replicate]; omega),
      List.getElem?_replicate, if_pos (by omega)]
  have hspace := headD_drop_leadingSpaces l
  rw [List.headD_eq_head?_getD, hhead, hfront] at hspace
  exact hspace rfl

/-- A value that is not blank has the lines of the body just if both start in the same column,
right of the header. -/
theorem bare_eq_bodyLines_iff {header column : Nat} {below : List (List Char)}
    (hbelow : ∀ l ∈ below, isAllBlank l = true → isSpaces l = true) {value : List Char}
    (hvalue : isAllBlank value = false) (hbody : bare (lines value) =
      bare ((below.takeWhile (inBody column)).map (List.drop column))) :
    bare (lines value) = bare (bodyLines header none below) ↔
      ∃ d ∈ firstDepth? below, header < d ∧ d = column := by
  have hsome : bare (lines value) ≠ [] := by
    rw [Ne, bare_eq_nil_iff, isAllBlank_iff_lines, hvalue]
    simp
  constructor
  · intro heq
    have hne : bodyLines header none below ≠ [] := fun hnil => hsome (by rw [heq, hnil]; rfl)
    simp only [Ne, bodyLines_eq_nil_iff, not_forall, not_le] at hne
    obtain ⟨d, hd, hdepth⟩ := hne
    refine ⟨d, hd, hdepth, ?_⟩
    obtain ⟨blanks, l, rest, rfl, hblanks, hl, rfl⟩ := firstDepth?_eq_some_iff.mp hd
    have hspaces : ∀ m ∈ blanks, isSpaces m = true := fun m hm =>
      hbelow m (by simp [hm]) (hblanks m hm)
    rw [takeWhile_inBody_append hspaces, List.takeWhile_cons] at hbody
    have hin : inBody column l = true := by
      by_contra hout
      rw [if_neg hout, List.append_nil] at hbody
      refine hsome (hbody.trans (bare_eq_nil_iff.mpr fun m hm => ?_))
      obtain ⟨x, hx, rfl⟩ := List.mem_map.mp hm
      exact isAllBlank_drop (hblanks x hx) column
    have hle : column ≤ leadingSpaces l := by
      rw [inBody, Bool.or_eq_true, decide_eq_true_eq] at hin
      refine hin.resolve_left fun hspaces => ?_
      rw [isAllBlank_of_isSpaces hspaces] at hl
      cases hl
    -- The first line that is not blank is the same line in both.
    have hread : (bare (lines value))[blanks.length]? = some (trimEnd (l.drop column)) := by
      rw [hbody, if_pos hin]
      exact getElem?_bare (by simp) (isAllBlank_drop_leadingSpaces hl hle)
    rw [heq, bodyLines_append hblanks hl hdepth, getElem?_bare (l := l.drop (leadingSpaces l))
      (by simp) (isAllBlank_drop_leadingSpaces hl le_rfl), Option.some.injEq] at hread
    exact leadingSpaces_eq_of_trimEnd_drop hl hle hread
  · rintro ⟨d, hd, hdepth, rfl⟩
    obtain ⟨blanks, l, rest, rfl, hblanks, hl, rfl⟩ := firstDepth?_eq_some_iff.mp hd
    have hspaces : ∀ m ∈ blanks, isSpaces m = true := fun m hm =>
      hbelow m (by simp [hm]) (hblanks m hm)
    have hin : inBody (leadingSpaces l) l = true := by simp [inBody]
    rw [hbody, takeWhile_inBody_append hspaces, List.takeWhile_cons, if_pos hin, List.map_append,
      List.map_cons, bodyLines_append hblanks hl hdepth]
    refine bare_append_congr (map_trimEnd_drop_blanks _ hblanks) ?_
    rw [bare_cons, bare_cons, bare_bodyLines_some hdepth fun m hm => hbelow m (by simp [hm])]

/-! ### Headers -/

theorem endsWithHeader_of_isAllBlank {indicator : Char} {l : List Char} (h : isAllBlank l = true) :
    endsWithHeader indicator l = false := by
  have hcode : isAllBlank (codePart l) = true := by
    rw [isAllBlank, List.all_eq_true] at h ⊢
    unfold codePart
    split
    · exact fun c hc => h c (List.mem_of_mem_take hc)
    · exact h
  rw [endsWithHeader, trimEnd_eq_nil_iff.mpr hcode]
  rfl

/-- A header can be found from the line of the content: it is one of the three lines above and ends
like a header, and the line of the content does not. -/
structure HeaderFound (ls : List (List Char)) (header content : Nat) : Prop where
  near : content ≤ header + 3
  header : ls[header - 1]?.any (endsWithHeader '|') = true
  content : ls[content - 1]?.any (endsWithHeader '|') = false

namespace File

theorem line?_treeSource {source : List Char} {n : Nat} (hn : 0 < n) :
    (treeSource source []).line? n = (lines source)[n - 1]? := by
  rw [TreeSource.line?, if_neg (Nat.ne_of_gt hn), treeSource, List.getElem?_toArray]

theorem headerLine_pos {source : List Char} (indicator : Char) {start : Nat} (hstart : 0 < start) :
    0 < (treeSource source []).headerLine indicator start := by
  unfold TreeSource.headerLine
  extract_lets candidates
  have hpos : ∀ n ∈ candidates, 0 < n := by
    intro n hn
    obtain ⟨i, hi, rfl⟩ := List.mem_map.mp hn
    have hlt := of_decide_eq_true (List.mem_filter.mp hi).2
    omega
  cases hfind : candidates.find? fun n =>
      ((treeSource source []).line? n).any (endsWithHeader indicator) with
  | none => exact hstart
  | some n => exact hpos n (List.mem_of_find?_eq_some hfind)

/-- Of a line and the three above it, one is the nearest with a property. -/
theorem find?_candidates_iff {p : Nat → Bool} {header content : Nat} (hpos : 0 < header)
    (hlt : header < content) (hbetween : ∀ k, header < k → k < content → p k = false) :
    (((List.range 4).filter (· < content)).map (content - ·)).find? p = some header ↔
      content ≤ header + 3 ∧ p header = true ∧ p content = false := by
  have hcandidates : ((List.range 4).filter (· < content)).map (content - ·) =
      content :: (([1, 2, 3].filter (· < content)).map (content - ·)) := by
    have hzero : decide (0 < content) = true := decide_eq_true (by omega)
    simp only [List.range, List.range.loop, List.filter_cons, hzero]
    rfl
  constructor
  · intro hfind
    refine ⟨?_, List.find?_some hfind, ?_⟩
    · obtain ⟨i, hi, rfl⟩ := List.mem_map.mp (List.mem_of_find?_eq_some hfind)
      have hi := List.mem_range.mp (List.mem_filter.mp hi).1
      omega
    · rw [← Bool.not_eq_true]
      intro hcontent
      rw [hcandidates, List.find?_cons_of_pos hcontent, Option.some.injEq] at hfind
      omega
  · rintro ⟨hnear, hheader, hcontent⟩
    rw [hcandidates, List.find?_cons_of_neg (by simp [hcontent])]
    obtain rfl | rfl | rfl :
        content = header + 1 ∨ content = header + 2 ∨ content = header + 3 := by omega
    · rw [List.filter_cons_of_pos (by exact decide_eq_true (by omega)), List.map_cons,
        Nat.add_sub_cancel, List.find?_cons_of_pos hheader]
    · rw [List.filter_cons_of_pos (by exact decide_eq_true (by omega)), List.map_cons,
        List.find?_cons_of_neg (by simp [hbetween]),
        List.filter_cons_of_pos (by exact decide_eq_true (by omega)), List.map_cons,
        Nat.add_sub_cancel, List.find?_cons_of_pos hheader]
    · rw [List.filter_cons_of_pos (by exact decide_eq_true (by omega)), List.map_cons,
        List.find?_cons_of_neg (by simp [hbetween]),
        List.filter_cons_of_pos (by exact decide_eq_true (by omega)), List.map_cons,
        List.find?_cons_of_neg (by simp [hbetween]),
        List.filter_cons_of_pos (by exact decide_eq_true (by omega)), List.map_cons,
        Nat.add_sub_cancel, List.find?_cons_of_pos hheader]

/-- With blank lines between them, the line of the indicator is found just if it can be. -/
theorem headerLine_eq_iff {source : List Char} {header content : Nat} (hpos : 0 < header)
    (hlt : header < content) (hblank : ∀ k, header < k → k < content →
      (lines source)[k - 1]?.any (endsWithHeader '|') = false) :
    (treeSource source []).headerLine '|' content = header ↔
      HeaderFound (lines source) header content := by
  have hends : ∀ n, 0 < n → ((treeSource source []).line? n).any (endsWithHeader '|') =
      (lines source)[n - 1]?.any (endsWithHeader '|') := fun n hn => by rw [line?_treeSource hn]
  unfold TreeSource.headerLine
  extract_lets candidates
  generalize hp : (fun n => ((treeSource source []).line? n).any (endsWithHeader '|')) = p
  replace hends : ∀ n, 0 < n → p n = (lines source)[n - 1]?.any (endsWithHeader '|') :=
    fun n hn => hp ▸ hends n hn
  have hnearest : (candidates.find? p).getD content = header ↔
      candidates.find? p = some header := by
    cases candidates.find? p with
    | none => simpa using Nat.ne_of_gt hlt
    | some n => simp
  rw [hnearest, find?_candidates_iff hpos hlt fun k hk hk' =>
    (hends k (by omega)).trans (hblank k hk hk'), hends header hpos, hends content (by omega)]
  exact ⟨fun ⟨hnear, hheader, hcontent⟩ => ⟨hnear, hheader, hcontent⟩,
    fun h => ⟨h.near, h.header, h.content⟩⟩

end File

/-! ### Both readers -/

/-- The depth of a line, counted from one. -/
def depthAt (ls : List (List Char)) (n : Nat) : Nat := leadingSpaces (ls.getD (n - 1) [])

/-- A literal scalar as it is read: from its indicator, with its first mark, into an event. -/
structure LiteralAt (source value : List Char) (c : Cursor) (start : Mark) : Prop where
  reaches : ({ rest := source } : Cursor).Reaches c
  indicator : c.peek = '|'
  read : ∃ parent b, readBlock? false parent c = some b ∧ b.text = value ∧ b.start = start
  event : ∃ events, Event.read source = .ok events ∧
    ∃ e ∈ events, ∃ p, e.kind = .scalar .literal value p ∧ e.span.start = start

/-- The indicator stands on the line of its mark. -/
theorem LiteralAt.exists_line {source value : List Char} {c : Cursor} {start : Mark}
    (h : LiteralAt source value c start) (hreturn : ∀ l ∈ lines source, '\r' ∉ l) :
    0 < c.mark.line ∧ ∃ l, (lines source)[c.mark.line - 1]? = some l ∧ '|' ∈ l := by
  obtain ⟨before, piece, hplace⟩ := Cursor.Moves.exists_place h.reaches hreturn
  have hunbroken : Unbroken (piece ++ ['|']) := hplace.unbroken.append ⟨by decide, by decide⟩
  obtain ⟨l, ls, hlines⟩ := exists_first_line hunbroken (by simp) (c.rest.drop 1)
  have hdrop := hplace.drop_lines
  rw [Cursor.rest_eq_of_peek h.indicator (by decide), ← List.singleton_append,
    ← List.append_assoc, hlines] at hdrop
  refine ⟨by rw [hplace.line]; omega, piece ++ ['|'] ++ l, ?_, by simp⟩
  have hget := congrArg (·[0]?) hdrop
  simpa using hget

/-- Where the body of a literal scalar can be found again: the first line below the header that is
not blank is deeper than the header's, and it starts in the column of the content. -/
def Recoverable (ls : List (List Char)) (header column : Nat) : Prop :=
  depthAt ls header < column ∧ firstDepth? (ls.drop header) = some column

namespace File

theorem blockBody_treeSource (source : List Char) (span : Span) (indicator : Char) :
    let header := (treeSource source []).headerLine indicator (max span.start.line 1)
    (treeSource source []).blockBody span indicator =
      (header, bodyLines (depthAt (lines source) header) none ((lines source).drop header)) := by
  intro header
  have hpos : 0 < header := headerLine_pos indicator (Nat.le_max_right _ _)
  have hdepth : (((treeSource source []).line? header).map leadingSpaces).getD 0 =
      depthAt (lines source) header := by
    rw [line?_treeSource hpos, depthAt, List.getD_eq_getElem?_getD]
    cases (lines source)[header - 1]? <;> rfl
  rw [← hdepth]
  rfl

/-- Every literal scalar of a tree is read at an indicator. -/
theorem exists_literalAt {name : String} {source : List Char} {events : List Event} {f : File}
    (hread : Event.read source = .ok events) (h : ofEvents? name source events [] = some f)
    {id : NodeId} {n : Node} {value raw : String} (hn : f.node? id = some n)
    (hk : n.kind = .block false value raw) : ∃ c start, LiteralAt source value.toList c start ∧
      n.position = ⟨(treeSource source []).headerLine '|' (max start.line 1), start.column + 1⟩ ∧
      raw.toList = TreeSource.rawText (bodyLines (depthAt (lines source) n.position.line) none
        ((lines source).drop n.position.line)) := by
  obtain ⟨e, he, hmade⟩ := exists_event_of_block h hn hk
  obtain ⟨p, hkind⟩ := hmade.kind
  obtain ⟨t, ht, htkind, hspan⟩ :=
    (EventReader.runs_of_run hread).exists_token he (by rw [hkind]; rfl)
  have hwritten := written_of_mem_scan ht
  simp only [Token.Written, htkind, blockForm] at hwritten
  obtain ⟨c, parent, b, hreach, hpeek, hblock, hstart, htext⟩ := hwritten
  rw [hspan] at hstart
  have hposition := hmade.position
  have hraw := hmade.raw
  rw [blockBody_treeSource] at hposition hraw
  refine ⟨c, e.span.start, ⟨hreach, hpeek, ⟨parent, b, hblock, htext.symm, hstart.symm⟩,
    events, hread, e, he, p, hkind, rfl⟩, hposition, ?_⟩
  rw [hraw, hposition]

end File

/-- The lines of a body are those of its text. -/
theorem lines_of_toList_eq_rawText {source : List Char} (hreturn : ∀ l ∈ lines source, '\r' ∉ l)
    {header k : Nat} {raw : String}
    (hraw : raw.toList = TreeSource.rawText (bodyLines header none ((lines source).drop k))) :
    lines raw.toList = bodyLines header none ((lines source).drop k) := by
  rw [hraw]
  refine TreeSource.lines_rawText fun l hl => ?_
  obtain rfl | ⟨m, hm, d, rfl⟩ := mem_of_mem_bodyLines hl
  · exact .nil
  · have hm := List.mem_of_mem_drop hm
    have hunbroken : Unbroken m := ⟨newline_not_mem_of_mem_lines hm, hreturn m hm⟩
    exact hunbroken.of_subset fun _ => List.mem_of_mem_drop

/-- A value without content has the lines of the body if there is no body. -/
theorem bare_eq_bodyLines_iff_of_blank {header : Nat} {below : List (List Char)} {value : List Char}
    (hvalue : isAllBlank value = true) : bare (lines value) = bare (bodyLines header none below) ↔
      ∀ d ∈ firstDepth? below, d ≤ header := by
  rw [bare_eq_nil_iff.mpr ((isAllBlank_iff_lines value).mpr hvalue), eq_comm, bare_eq_nil_iff,
    ← bodyLines_eq_nil_iff]
  refine ⟨fun hblank => ?_, fun hnil => by simp [hnil]⟩
  by_contra hne
  simp only [bodyLines_eq_nil_iff, not_forall, not_le] at hne
  obtain ⟨d, hd, hdepth⟩ := hne
  obtain ⟨blanks, l, rest, rfl, hblanks, hl, rfl⟩ := firstDepth?_eq_some_iff.mp hd
  rw [bodyLines_append hblanks hl hdepth] at hblank
  have hfirst := hblank (l.drop (leadingSpaces l)) (by simp)
  rw [isAllBlank_drop_leadingSpaces hl le_rfl] at hfirst
  cases hfirst

namespace ReadsLines

variable {source : List Char} {c : Cursor} {b : BlockRead} {breaks : Nat}

/-- Content at the left margin is on the first line that is not blank. -/
theorem firstDepth?_of_flush (h : ReadsLines source c b breaks) (hzero : b.start.column = 0) :
    firstDepth? ((lines source).drop c.mark.line) = some 0 := by
  obtain ⟨l, hl, hblank, hdepth⟩ := h.flush hzero
  obtain ⟨hlt, rfl⟩ := List.getElem?_eq_some_iff.mp hl
  refine firstDepth?_eq_some_iff.mpr ⟨((lines source).drop c.mark.line).take breaks, _,
    ((lines source).drop c.mark.line).drop (breaks + 1), ?_, ?_, hblank, hdepth⟩
  · rw [← List.drop_eq_getElem_cons hlt, List.take_append_drop]
  · exact fun m hm => isAllBlank_of_isSpaces (h.spaces m hm)

/-- Where the header is found on the line of the indicator, the body has the lines of the value just
if it can be found again. -/
theorem lines_agree_iff (h : ReadsLines source c b breaks) (hsource : PlainText source)
    (htext : isAllBlank b.text = false) : bare (lines b.text) =
      bare (bodyLines (depthAt (lines source) c.mark.line) none
        ((lines source).drop c.mark.line)) ↔
      Recoverable (lines source) c.mark.line b.start.column := by
  have hbelow : ∀ l ∈ (lines source).drop c.mark.line, isAllBlank l = true → isSpaces l = true :=
    fun l hl => hsource.blank l (List.mem_of_mem_drop hl)
  rcases Nat.eq_zero_or_pos b.start.column with hzero | hpos
  · -- No line is less deep than content at the left margin.
    have hnil : bodyLines (depthAt (lines source) c.mark.line) none
        ((lines source).drop c.mark.line) = [] := by
      simp [bodyLines_eq_nil_iff, h.firstDepth?_of_flush hzero]
    rw [hnil, bare_nil, bare_eq_nil_iff, isAllBlank_iff_lines, htext, Recoverable, hzero]
    simp
  · rw [bare_eq_bodyLines_iff hbelow htext (h.body hpos), Recoverable]
    constructor
    · rintro ⟨d, hd, hdepth, rfl⟩
      exact ⟨hdepth, hd⟩
    · rintro ⟨hdepth, hd⟩
      exact ⟨_, hd, hdepth, rfl⟩

/-- Between the header and the content no line ends like a header. -/
theorem not_endsWithHeader (h : ReadsLines source c b breaks) (indicator : Char) {k : Nat}
    (hk : c.mark.line < k) (hk' : k < b.start.line) :
    (lines source)[k - 1]?.any (endsWithHeader indicator) = false := by
  cases hl : (lines source)[k - 1]? with
  | none => rfl
  | some l =>
    have hmem : l ∈ ((lines source).drop c.mark.line).take breaks := by
      refine List.mem_iff_getElem?.mpr ⟨k - 1 - c.mark.line, ?_⟩
      rw [List.getElem?_take_of_lt (by rw [h.line] at hk'; omega), List.getElem?_drop,
        Nat.add_sub_cancel' (by omega), hl]
    exact endsWithHeader_of_isAllBlank (isAllBlank_of_isSpaces (h.spaces l hmem))

end ReadsLines

/-- The body of a literal scalar that is not blank stands on the line of its indicator and has the
lines of its value, just if the header can be found from the content and the body from the header. A
blank one has no other lines just if no deeper line follows. -/
theorem literal_lines_agree_iff {name content : String} {f : File}
    (hparse : File.parse name content = .ok f) (htext : PlainText content.toList)
    {id : NodeId} {n : Node} {value raw : String} (hn : f.node? id = some n)
    (hk : n.kind = .block false value raw) :
    ∃ c start, LiteralAt content.toList value.toList c start ∧
      n.position.column = start.column + 1 ∧
      if isAllBlank value.toList then
        SameLines value raw ↔ ∀ d ∈ firstDepth? ((lines content.toList).drop n.position.line),
          d ≤ depthAt (lines content.toList) n.position.line
      else
        n.position.line = c.mark.line ∧ SameLines value raw ↔
          HeaderFound (lines content.toList) c.mark.line start.line ∧
            Recoverable (lines content.toList) c.mark.line start.column := by
  obtain ⟨events, hread, hevents⟩ := File.exists_events_of_parse hparse
  obtain ⟨c, start, hat, hposition, hraw⟩ := File.exists_literalAt hread hevents hn hk
  have hlines := lines_of_toList_eq_rawText htext.return_ hraw
  refine ⟨c, start, hat, by rw [hposition], ?_⟩
  split_ifs with hblank
  · rw [SameLines, hlines]
    exact bare_eq_bodyLines_iff_of_blank hblank
  · rw [Bool.not_eq_true] at hblank
    obtain ⟨parent, b, hblock, hvalue, rfl⟩ := hat.read
    rw [← hvalue] at hblank
    have hend : isLineEnd c.peek = false := by rw [hat.indicator]; decide
    obtain ⟨breaks, hreads⟩ := exists_readsLines htext hat.reaches hend hblock hblank
    have hpos := (hat.exists_line htext.return_).1
    have hlt : c.mark.line < b.start.line := by
      rw [hreads.line]
      omega
    have hfound : n.position.line = c.mark.line ↔
        HeaderFound (lines content.toList) c.mark.line b.start.line := by
      rw [hposition, Nat.max_eq_left (by omega)]
      exact File.headerLine_eq_iff hpos hlt fun k => hreads.not_endsWithHeader '|'
    rw [hfound]
    refine and_congr_right fun hheader => ?_
    rw [SameLines, hlines, hfound.mpr hheader, ← hvalue]
    exact hreads.lines_agree_iff htext hblank

/-- A script with a comment behind its header, a blank line in front and a deeper line. -/
def literalPipeline : String :=
  "build:\n  script: |- # all\n\n    make all\n      --jobs 4\n\n  image: alpine\n"

/-- The body of `literalPipeline` is found again, line for line. -/
theorem literalPipeline_lines : ∃ f n, File.parse "ci.yml" literalPipeline = .ok f ∧
    f.node? 2 = some n ∧
    n.kind = .block false "\nmake all\n  --jobs 4" "\nmake all\n  --jobs 4\n" ∧
    n.position = ⟨2, 5⟩ ∧ PlainText literalPipeline.toList ∧
    SameLines "\nmake all\n  --jobs 4" "\nmake all\n  --jobs 4\n" := by
  have hrun : ((File.parse "ci.yml" literalPipeline).toOption.bind fun f => f.node? 2) =
      some ⟨.block false "\nmake all\n  --jobs 4" "\nmake all\n  --jobs 4\n", ⟨2, 5⟩,
        "$.build.script", 0⟩ := by decide +kernel
  obtain ⟨f, hparse, hn⟩ := Option.bind_eq_some_iff.mp hrun
  have hf := toOption_eq_some.mp hparse
  have hlines : lines literalPipeline.toList = ["build:", "  script: |- # all", "",
      "    make all", "      --jobs 4", "", "  image: alpine"].map String.toList := by
    decide +kernel
  have htext : PlainText literalPipeline.toList := by
    refine ⟨⟨?_, by decide +kernel⟩, ?_⟩
    · rw [hlines]
      decide
    · rw [hlines]
      decide
  refine ⟨f, _, hf, hn, rfl, rfl, htext, ?_⟩
  obtain ⟨c, start, hat, hcolumn, hiff⟩ := literal_lines_agree_iff hf htext hn rfl
  have hstart : start.line = 4 := by
    obtain ⟨events, hread, e, he, p, hkind, rfl⟩ := hat.event
    have hall : ∀ e ∈ (Event.read literalPipeline.toList).toOption.getD [],
        e.kind.formed?.isSome → e.span.start.line = 4 := by decide +kernel
    rw [hread] at hall
    exact hall e he (by rw [hkind]; rfl)
  have hline : c.mark.line = 2 := by
    obtain ⟨hpos, l, hl, hmem⟩ := hat.exists_line htext.return_
    rw [hlines] at hl
    have hall : ∀ k < 7, '|' ∈ (["build:", "  script: |- # all", "", "    make all",
        "      --jobs 4", "", "  image: alpine"].map String.toList).getD k [] → k = 1 := by
      decide
    have hlt := (List.getElem?_eq_some_iff.mp hl).1
    have hone := hall _ hlt (by rwa [List.getD_eq_getElem?_getD, hl])
    omega
  have hfour : start.column = 4 := by simpa using hcolumn.symm
  rw [if_neg (by decide), hline, hstart, hfour, hlines] at hiff
  exact (hiff.mpr ⟨⟨by decide, by decide, by decide⟩, by decide, by decide⟩).2

/-- A script whose first line ends in a pipe, like a header. -/
def pipedPipeline : String := "a: |\n  cat x |\n  sort\n"

/-- The first line is taken for the header, and nothing of the body is found again. -/
theorem pipedPipeline_lines_lost : ∃ f n, File.parse "ci.yml" pipedPipeline = .ok f ∧
    f.node? 1 = some n ∧ n.kind = .block false "cat x |\nsort\n" "" ∧
    ¬ SameLines "cat x |\nsort\n" "" := by
  have hrun : ((File.parse "ci.yml" pipedPipeline).toOption.bind fun f => f.node? 1) =
      some ⟨.block false "cat x |\nsort\n" "", ⟨2, 3⟩, "$.a", 0⟩ := by decide +kernel
  obtain ⟨f, hparse, hn⟩ := Option.bind_eq_some_iff.mp hrun
  refine ⟨f, _, toOption_eq_some.mp hparse, hn, rfl, ?_⟩
  unfold SameLines
  decide

end PipelineScripts.Yaml
