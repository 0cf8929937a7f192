import PipelineScripts.Proofs.ScannerSteps

/-!
# Tokens are read where they are written

Every alias, every anchor and every plain or block scalar among the tokens of a text was read at a
place of that text. One step of the scanner keeps this of the tokens it has queued, and so does a
run.
-/
namespace PipelineScripts.Yaml

open Cursor

/-- What is written where a token starts: an alias and an anchor with their name, a plain scalar
with its words, a block scalar with its header and body. -/
def Token.Written (start : Cursor) (t : Token) : Prop :=
  match t.kind with
  | .aliasOf name => ∃ c : Cursor, start.Reaches c ∧ c.peek = '*' ∧ t.span.start = c.mark ∧
      name = (c.rest.drop 1).takeWhile isAnchorNameChar
  | .anchor name => ∃ c : Cursor, start.Reaches c ∧ c.peek = '&' ∧ t.span.start = c.mark ∧
      name = (c.rest.drop 1).takeWhile isAnchorNameChar ∧ name ≠ []
  | .scalar .plain text => ∃ (c : Cursor) (inFlow : Bool) (least : Int) (p : PlainRead),
      start.Reaches c ∧ readPlain? inFlow least c = some p ∧ t.span = ⟨c.mark, p.stop⟩ ∧
      text = p.text.reverse
  | .scalar .literal text => ∃ (c : Cursor) (parent : Int) (b : BlockRead), start.Reaches c ∧
      c.peek = '|' ∧ readBlock? false parent c = some b ∧ t.span.start = b.start ∧ text = b.text
  | .scalar .folded text => ∃ (c : Cursor) (parent : Int) (b : BlockRead), start.Reaches c ∧
      c.peek = '>' ∧ readBlock? true parent c = some b ∧ t.span.start = b.start ∧ text = b.text
  | _ => True

/-- What is written where a token of interest is read. -/
def Token.WrittenAt (c : Cursor) (t : Token) : Prop :=
  match t.kind with
  | .aliasOf name => c.peek = '*' ∧ t.span.start = c.mark ∧
      name = (c.rest.drop 1).takeWhile isAnchorNameChar
  | .anchor name => c.peek = '&' ∧ t.span.start = c.mark ∧
      name = (c.rest.drop 1).takeWhile isAnchorNameChar ∧ name ≠ []
  | .scalar .plain text => ∃ (inFlow : Bool) (least : Int) (p : PlainRead),
      readPlain? inFlow least c = some p ∧ t.span = ⟨c.mark, p.stop⟩ ∧ text = p.text.reverse
  | .scalar .literal text => c.peek = '|' ∧ ∃ (parent : Int) (b : BlockRead),
      readBlock? false parent c = some b ∧ t.span.start = b.start ∧ text = b.text
  | .scalar .folded text => c.peek = '>' ∧ ∃ (parent : Int) (b : BlockRead),
      readBlock? true parent c = some b ∧ t.span.start = b.start ∧ text = b.text
  | _ => True

/-- The tokens that are never put in front of others. -/
def tracked (ts : List Token) : List Token := ts.filter (!·.kind.isFree)

@[simp] theorem tracked_append (ts ts' : List Token) :
    tracked (ts ++ ts') = tracked ts ++ tracked ts' := List.filter_append ..

@[simp] theorem tracked_nil : tracked [] = [] := rfl

theorem tracked_cons_of_isFree {t : Token} (h : t.kind.isFree = true) (ts : List Token) :
    tracked (t :: ts) = tracked ts := List.filter_cons_of_neg (by simp [h])

theorem tracked_cons {t : Token} (h : t.kind.isFree = false) (ts : List Token) :
    tracked (t :: ts) = t :: tracked ts := List.filter_cons_of_pos (by simp [h])

theorem Token.written_of_isFree {start : Cursor} {t : Token} (h : t.kind.isFree = true) :
    t.Written start := by
  unfold Written
  split
  next hkind => simp [hkind, TokenKind.isFree] at h
  next hkind => simp [hkind, TokenKind.isFree] at h
  next hkind => simp [hkind, TokenKind.isFree] at h
  next hkind => simp [hkind, TokenKind.isFree] at h
  next hkind => simp [hkind, TokenKind.isFree] at h
  next => trivial

/-- A token is written at a place that is reached from where the text ends or from before it. -/
theorem Token.WrittenAt.written {start c : Cursor} {t : Token} (h : t.WrittenAt c)
    (hreach : isEnd c.peek = true ∨ start.Reaches c) : t.Written start := by
  have hstart : isEnd c.peek = false → start.Reaches c := fun hend =>
    hreach.resolve_left (by simp [hend])
  unfold WrittenAt at h
  unfold Written
  split at h
  next => exact ⟨c, hstart (by rw [h.1]; decide), h⟩
  next => exact ⟨c, hstart (by rw [h.1]; decide), h⟩
  next =>
    obtain ⟨inFlow, least, p, hread, hspan⟩ := h
    exact ⟨c, inFlow, least, p, hstart (isEnd_of_readPlain? hread), hread, hspan⟩
  next =>
    obtain ⟨hpeek, parent, b, hread⟩ := h
    exact ⟨c, parent, b, hstart (by rw [hpeek]; decide), hpeek, hread⟩
  next =>
    obtain ⟨hpeek, parent, b, hread⟩ := h
    exact ⟨c, parent, b, hstart (by rw [hpeek]; decide), hpeek, hread⟩
  next => trivial

/-- What is read behind a place is read behind any place before it. -/
theorem Token.Written.of_reaches {start c : Cursor} {t : Token} (h : t.Written c)
    (hreach : isEnd c.peek = true ∨ start.Reaches c) : t.Written start := by
  have hstart : ∀ {c' : Cursor}, c.Reaches c' → isEnd c'.peek = false → start.Reaches c' := by
    intro c' hc' hend
    refine (hreach.resolve_left fun hc => ?_).trans hc'
    rw [hc'.isEnd_of_isEnd hc] at hend
    cases hend
  unfold Written at h ⊢
  split at h
  next =>
    obtain ⟨c', hc', hpeek, hread⟩ := h
    exact ⟨c', hstart hc' (by rw [hpeek]; decide), hpeek, hread⟩
  next =>
    obtain ⟨c', hc', hpeek, hread⟩ := h
    exact ⟨c', hstart hc' (by rw [hpeek]; decide), hpeek, hread⟩
  next =>
    obtain ⟨c', inFlow, least, p, hc', hread, hspan⟩ := h
    exact ⟨c', inFlow, least, p, hstart hc' (isEnd_of_readPlain? hread), hread, hspan⟩
  next =>
    obtain ⟨c', parent, b, hc', hpeek, hread⟩ := h
    exact ⟨c', parent, b, hstart hc' (by rw [hpeek]; decide), hpeek, hread⟩
  next =>
    obtain ⟨c', parent, b, hc', hpeek, hread⟩ := h
    exact ⟨c', parent, b, hstart hc' (by rw [hpeek]; decide), hpeek, hread⟩
  next => trivial

namespace Scanner

variable {base s s' s'' : Scanner}

/-! ### Steps without reading -/

/-- The cursor stays, and only free tokens are queued. -/
structure Keeps (s s' : Scanner) : Prop where
  cursor : s'.cursor = s.cursor
  queue : tracked s'.queue = tracked s.queue

namespace Keeps

theorem of_eq (hcursor : s'.cursor = s.cursor) (hqueue : s'.queue = s.queue) : s.Keeps s' :=
  ⟨hcursor, congrArg tracked hqueue⟩

theorem refl (s : Scanner) : s.Keeps s := of_eq rfl rfl

theorem trans (h : s.Keeps s') (h' : s'.Keeps s'') : s.Keeps s'' :=
  ⟨h'.cursor.trans h.cursor, h'.queue.trans h.queue⟩

theorem after (h : s.Keeps s') (hcursor : s''.cursor = s'.cursor) (hqueue : s''.queue = s'.queue) :
    s.Keeps s'' := h.trans (.of_eq hcursor hqueue)

theorem push (h : s.Keeps s') {kind : TokenKind} {span : Span} (hkind : kind.isFree = true) :
    s.Keeps (s'.push kind span) := by
  refine ⟨h.cursor, ?_⟩
  rw [Scanner.push, tracked_append, tracked_cons_of_isFree hkind, tracked_nil, List.append_nil,
    h.queue]

theorem insertAt (h : s.Keeps s') {number : Nat} {kind : TokenKind} {mark : Mark}
    (hkind : kind.isFree = true) : s.Keeps (s'.insertAt number kind mark) := by
  refine ⟨h.cursor, ?_⟩
  rw [Scanner.insertAt, tracked_append, tracked_cons_of_isFree hkind, ← tracked_append,
    List.take_append_drop, h.queue]

end Keeps

/-- What a scanner does without moving its cursor. -/
theorem lasts_keeps (s : Scanner) : Lasts s.Keeps fun _ => True where
  mark := fun _ => trivial
  keys := fun _ _ _ => trivial
  start := trivial
  update := fun h hcursor hqueue _ => h.after hcursor hqueue
  push := fun h hkind _ => h.push hkind
  insertAt := fun h hkind _ => h.insertAt hkind

/-! ### Reading on -/

/-- The cursor moves on in the text or is at its end, and only free tokens are queued. -/
structure Passes (base s : Scanner) : Prop where
  cursor : isEnd s.cursor.peek = true ∨ base.cursor.Reaches s.cursor
  queue : tracked s.queue = tracked base.queue

namespace Passes

theorem refl (s : Scanner) : s.Passes s := ⟨.inr (.refl _), rfl⟩

theorem keeps (h : base.Passes s) (hs' : s.Keeps s') : base.Passes s' :=
  ⟨hs'.cursor ▸ h.cursor, hs'.queue.trans h.queue⟩

/-- The cursor moves, and free tokens may be queued. -/
theorem moves (h : base.Passes s) {c : Cursor} (hc : s.cursor.Reaches c)
    (hs' : ({ s with cursor := c } : Scanner).Keeps s') : base.Passes s' := by
  have hmove : base.Passes { s with cursor := c } :=
    ⟨h.cursor.imp hc.isEnd_of_isEnd fun hs => hs.trans hc, h.queue⟩
  exact hmove.keeps hs'

end Passes

/-- What a scanner does for a token without a text of interest. -/
theorem lastsOn_passes (base : Scanner) : LastsOn base.Passes fun _ => True where
  mark := fun _ => trivial
  keys := fun _ _ _ => trivial
  start := trivial
  update := fun h hcursor hqueue _ => h.keeps (.of_eq hcursor hqueue)
  push := fun h hkind _ => h.keeps (.push (.refl _) hkind)
  insertAt := fun h hkind _ => h.keeps (.insertAt (.refl _) hkind)
  move := fun h hc => h.moves hc (.refl _)

theorem tracked_push {kind : TokenKind} {span : Span} (hkind : kind.isFree = false) :
    tracked (s.push kind span).queue = tracked s.queue ++ [⟨kind, span⟩] := by
  rw [Scanner.push, tracked_append, tracked_cons hkind, tracked_nil]

/-- The cursor moves on, and one token of interest at most is queued, read where it was. -/
structure Reads (base s : Scanner) : Prop where
  cursor : isEnd s.cursor.peek = true ∨ base.cursor.Reaches s.cursor
  queue : ∃ new : Option Token, tracked s.queue = tracked base.queue ++ new.toList ∧
    ∀ t ∈ new, t.WrittenAt base.cursor

namespace Reads

theorem of_passes (h : base.Passes s) : base.Reads s :=
  ⟨h.cursor, none, by rw [h.queue, Option.toList_none, List.append_nil], by simp⟩

theorem push (h : base.Passes s) {kind : TokenKind} {span : Span} (hkind : kind.isFree = false)
    (ht : Token.WrittenAt base.cursor ⟨kind, span⟩) : base.Reads (s.push kind span) := by
  refine ⟨h.cursor, some ⟨kind, span⟩, ?_, ?_⟩
  · rw [tracked_push hkind, h.queue, Option.toList_some]
  · rintro t ⟨⟩
    exact ht

end Reads

/-! ### Tokens with text -/

theorem keeps_saved (s : Scanner) (allowed : Bool) :
    s.Keeps { s.saveKey with keyAllowed := allowed } := (lasts_keeps s).saved (.refl s) allowed

theorem keeps_staleKeys? (h : s.staleKeys? = some s') : s.Keeps s' :=
  (lasts_keeps s).staleKeys? (.refl s) h

theorem passes_prepare? (h : s.prepare? = some s') : s.Passes s' :=
  (lastsOn_passes s).prepare? (.refl s) h

/-- An alias or an anchor is read, with its name. -/
theorem queue_of_anchor? {isAlias : Bool} (h : s.anchor? isAlias = some s')
    (hpeek : isLineEnd s.cursor.peek = false) :
    s.cursor.Reaches s'.cursor ∧ s'.cursor.rest.length < s.cursor.rest.length ∧
      ∃ (name : List Char) (stop : Mark), name ≠ [] ∧
        name = (s.cursor.rest.drop 1).takeWhile isAnchorNameChar ∧
        tracked s'.queue = tracked s.queue ++
          [⟨if isAlias then .aliasOf name else .anchor name, ⟨s.cursor.mark, stop⟩⟩] := by
  have hkeeps := keeps_saved s false
  unfold anchor? at h
  extract_lets mark saved s₁ c name at h
  have hne : name ≠ [] := by
    intro hnil
    simp [hnil] at h
  rcases of_ite_eq h with ⟨-, h⟩ | h
  · cases h
  cases h
  have hcursor : s₁.cursor = s.cursor := hkeeps.cursor
  have hname : name = (s.cursor.rest.drop 1).takeWhile isAnchorNameChar := by
    unfold name c
    rw [hcursor]
    rfl
  have hc : c = s.cursor.pass 1 := congrArg (Cursor.pass · 1) hcursor
  have hreach : c.Reaches (c.pass name.length) :=
    reaches_pass_takeWhile fun _ => isLineEnd_of_isAnchorNameChar
  refine ⟨?_, ?_, name, (c.pass name.length).mark, hne, hname, ?_⟩
  · exact (hc ▸ reaches_pass_one hpeek).trans hreach
  · have hle : (c.pass name.length).rest.length ≤ (s.cursor.rest.drop 1).length := by
      rw [hc]
      exact (List.drop_suffix _ _).length_le
    have hdrop := congrArg List.length (drop_eq_of_peekAt (n := 0) hpeek)
    simp only [List.drop_zero, List.length_cons, List.length_drop] at hdrop hle ⊢
    exact hle.trans_lt (by omega)
  · rw [pushFrom, tracked_push (by cases isAlias <;> rfl)]
    exact congrArg (· ++ _) hkeeps.queue

/-- A plain scalar is read. -/
theorem queue_of_plainScalar? (h : s.plainScalar? = some s') :
    s.cursor.Reaches s'.cursor ∧ ∃ (inFlow : Bool) (least : Int) (p : PlainRead),
      readPlain? inFlow least s.cursor = some p ∧ tracked s'.queue = tracked s.queue ++
        [⟨.scalar .plain p.text.reverse, ⟨s.cursor.mark, p.stop⟩⟩] := by
  have hkeeps := (lasts_keeps s).unrollOnes (keeps_saved s false)
  obtain ⟨p, hread, h⟩ := Option.bind_eq_some_iff.mp h
  cases h
  rw [hkeeps.cursor] at hread
  refine ⟨reaches_readPlain? hread, _, _, p, hread, ?_⟩
  rw [tracked_push rfl]
  exact congrArg (· ++ _) hkeeps.queue

namespace Reads

theorem anchor? {isAlias : Bool} (hs' : s.anchor? isAlias = some s')
    (hpeek : s.cursor.peek = if isAlias then '*' else '&') : s.Reads s' := by
  obtain ⟨hreach, -, name, stop, hne, hname, hqueue⟩ := queue_of_anchor? hs' (by
    rw [hpeek]
    cases isAlias <;> decide)
  refine ⟨.inr hreach, some _, hqueue, ?_⟩
  rintro t ⟨⟩
  cases isAlias
  · exact ⟨hpeek, rfl, hname, hne⟩
  · exact ⟨hpeek, rfl, hname⟩

theorem blockScalar? {folded : Bool} (hs' : s.blockScalar? folded = some s')
    (hpeek : s.cursor.peek = if folded then '>' else '|') : s.Reads s' := by
  have hend : isLineEnd s.cursor.peek = false := by
    rw [hpeek]
    cases folded <;> decide
  have hkeeps := (lasts_keeps s).unrollOnes (keeps_saved s true)
  obtain ⟨b, hread, hs'⟩ := Option.bind_eq_some_iff.mp hs'
  cases hs'
  rw [hkeeps.cursor] at hread
  refine push ?_ ?_ ?_
  · refine ((Passes.refl s).keeps hkeeps).moves ?_ (.refl _)
    rw [hkeeps.cursor]
    exact reaches_readBlock? hend hread
  · cases folded <;> rfl
  · cases folded
    · exact ⟨hpeek, _, b, hread, rfl, rfl⟩
    · exact ⟨hpeek, _, b, hread, rfl, rfl⟩

theorem plainScalar? (hs' : s.plainScalar? = some s') : s.Reads s' := by
  obtain ⟨hreach, inFlow, least, p, hread, hqueue⟩ := queue_of_plainScalar? hs'
  refine ⟨.inr hreach, some _, hqueue, ?_⟩
  rintro t ⟨⟩
  exact ⟨inFlow, least, p, hread, rfl, rfl⟩

/-- The end of the text changes its line. -/
theorem streamEnd? (hend : isEnd s.cursor.peek = true) (hs' : s.streamEnd? = some s') :
    s.Reads s' := by
  unfold Scanner.streamEnd? at hs'
  dsimp only at hs'
  obtain ⟨-, hs'⟩ := of_guard_eq_some hs'
  obtain ⟨s₁, hremove, hs'⟩ := Option.bind_eq_some_iff.mp hs'
  cases hs'
  have hkeeps := (lasts_keeps _).unrolled (.refl _) hremove
  refine push ?_ rfl trivial
  refine Passes.keeps (Passes.keeps ?_ hkeeps) (.of_eq rfl rfl)
  exact ⟨.inl hend, rfl⟩

/-! ### Steps and runs -/

/-- The token that the cursor stands at is read. -/
theorem readToken? (hs' : s.readToken? = some s') : s.Reads s' := by
  rcases (lastsOn_passes s).readToken? (.refl s) hs' with hpasses | htext
  · exact .of_passes hpasses
  cases htext with
  | streamEnd hend hs' => exact streamEnd? hend hs'
  | anchor hpeek hs' => exact anchor? hs' hpeek
  | blockScalar hpeek hs' => exact blockScalar? hs' hpeek
  | plainScalar hs' => exact plainScalar? hs'

end Reads

/-! ### The list of tokens -/

/-- What may be listed by a scanner: the tokens of interest in its queue, or some of them, and
then tokens written further on. -/
def Lists (s : Scanner) (ts : List Token) : Prop :=
  tracked ts <+: tracked s.queue ∨
    ∃ new, tracked ts = tracked s.queue ++ new ∧ ∀ t ∈ new, t.Written s.cursor

namespace Lists

variable {ts : List Token}

theorem of_reads (h : s.Reads s') (hts : s'.Lists ts) : s.Lists ts := by
  obtain ⟨found, hqueue, hfound⟩ := h.queue
  have hwritten : ∀ t ∈ found.toList, t.Written s.cursor := fun t ht =>
    (hfound t (Option.mem_toList.mp ht)).written (.inr (.refl _))
  rcases hts with hprefix | ⟨new, hnew, hwritten'⟩
  · rw [hqueue] at hprefix
    rcases List.prefix_or_prefix_of_prefix hprefix (List.prefix_append _ _) with hshort | ⟨x, hx⟩
    · exact .inl hshort
    · rw [← hx, List.prefix_append_right_inj] at hprefix
      exact .inr ⟨x, hx.symm, fun t ht => hwritten t (List.IsPrefix.subset hprefix ht)⟩
  · refine .inr ⟨found.toList ++ new, ?_, fun t ht => ?_⟩
    · rw [hnew, hqueue, List.append_assoc]
    · rcases List.mem_append.mp ht with ht | ht
      · exact hwritten t ht
      · exact (hwritten' t ht).of_reaches h.cursor

theorem of_keeps (h : s.Keeps s') (hts : s'.Lists ts) : s.Lists ts :=
  of_reads (.of_passes ((Passes.refl s).keeps h)) hts

theorem of_step? (h : s.step? = some s') (hts : s'.Lists ts) : s.Lists ts := by
  by_cases hstarted : s.started = true
  · rw [step?_of_started hstarted] at h
    obtain ⟨s₁, hprepare, hread⟩ := Option.bind_eq_some_iff.mp h
    exact of_reads (.of_passes (passes_prepare? hprepare)) (of_reads (.readToken? hread) hts)
  · rw [step?_of_not_started (Bool.eq_false_iff.mpr hstarted)] at h
    cases h
    exact of_reads (.of_passes ((lastsOn_passes s).streamStart (.refl s))) hts

theorem of_settle? {fuel : Nat} (h : settle? fuel s = some s') (hts : s'.Lists ts) :
    s.Lists ts := by
  induction fuel generalizing s with
  | zero =>
    cases h
    exact hts
  | succ fuel ih =>
    rw [settle?] at h
    rcases of_ite_eq h with ⟨-, h⟩ | h
    · obtain ⟨s₁, hstep, h⟩ := Option.bind_eq_some_iff.mp h
      exact of_step? hstep (ih h)
    split at h
    next => cases h
    next s₁ hstale =>
      refine of_keeps (keeps_staleKeys? hstale) ?_
      rcases of_ite_eq h with ⟨-, h⟩ | h
      · obtain ⟨s₂, hstep, h⟩ := Option.bind_eq_some_iff.mp h
        exact of_step? hstep (ih h)
      · cases h
        exact hts

/-- The first token in the queue is listed first. -/
theorem cons {t : Token} {queue : List Token} (hqueue : s.queue = t :: queue)
    (h : ({ s with queue, emitted := s.emitted + 1 } : Scanner).Lists ts) : s.Lists (t :: ts) := by
  rw [Lists, hqueue]
  cases hfree : t.kind.isFree
  · rw [tracked_cons hfree, tracked_cons hfree]
    rcases h with hprefix | ⟨new, hnew, hwritten⟩
    · exact .inl (List.prefix_cons_inj t |>.mpr hprefix)
    · exact .inr ⟨new, congrArg (t :: ·) hnew, hwritten⟩
  · rw [tracked_cons_of_isFree hfree, tracked_cons_of_isFree hfree]
    exact h

end Lists

/-- Hands out the first token of the queue, and reads on. -/
def emit (fuel : Nat) (s : Scanner) : TokenStream :=
  match s.queue with
  | [] => ⟨[], false⟩
  | token :: queue =>
    if token.kind = .streamEnd then ⟨[token], true⟩
    else
      let stream := tokens fuel { s with queue, emitted := s.emitted + 1 }
      { stream with tokens := token :: stream.tokens }

theorem tokens_succ (fuel : Nat) (s : Scanner) : tokens (fuel + 1) s =
    match settle? (s.cursor.rest.length + 3) s with
    | none => ⟨[], false⟩
    | some s => s.emit fuel := rfl

theorem Lists.emit {fuel : Nat} (h : ∀ s : Scanner, s.Lists (tokens fuel s).tokens) (s : Scanner) :
    s.Lists (s.emit fuel).tokens := by
  unfold Scanner.emit
  split
  next => exact .inl List.nil_prefix
  next token queue hqueue =>
    split_ifs with hend
    · have hfree : token.kind.isFree = false := by
        rw [hend]
        rfl
      rw [Lists, hqueue, tracked_cons hfree, tracked_cons hfree]
      exact .inl (List.prefix_cons_inj token |>.mpr List.nil_prefix)
    · exact .cons hqueue (h _)

theorem lists_tokens (fuel : Nat) (s : Scanner) : s.Lists (tokens fuel s).tokens := by
  induction fuel generalizing s with
  | zero => exact .inl List.nil_prefix
  | succ fuel ih =>
    rw [tokens_succ]
    split
    next => exact .inl List.nil_prefix
    next s₁ hsettle => exact .of_settle? hsettle (.emit ih s₁)

end Scanner

/-- Every token of a text was read where it is written. -/
theorem written_of_mem_scan {source : List Char} {t : Token} (h : t ∈ (scan source).tokens) :
    t.Written { rest := source } := by
  cases hfree : t.kind.isFree
  · have hmem : t ∈ tracked (scan source).tokens := List.mem_filter.mpr ⟨h, by simp [hfree]⟩
    rcases Scanner.lists_tokens _ _ with hprefix | ⟨new, hnew, hwritten⟩
    · exact absurd (List.IsPrefix.subset hprefix hmem) List.not_mem_nil
    · have hlist : tracked (scan source).tokens = new := hnew
      exact hwritten t (hlist ▸ hmem)
  · exact t.written_of_isFree hfree

end PipelineScripts.Yaml
