import PipelineScripts.Proofs.MaskedScanner

/-!
# The tokens in front of a placeholder

A placeholder is written over the `*` of an alias. The text is read as before up to there, and then
a plain scalar is read where the alias was, unless reading ends.
-/
namespace PipelineScripts.Yaml

open Cursor

/-- Where a text goes on with `n + 1` characters at the start of a token. -/
def Token.Ahead (n : Nat) (t : Token) (c : Cursor) : Prop :=
  c.mark.index + c.rest.length = t.span.start.index + (n + 1)

/-- A plain scalar where a token starts. -/
def Token.IsPlainAt (start : Mark) (t : Token) : Prop :=
  ∃ (text : List Char) (stop : Mark), t = ⟨.scalar .plain text, ⟨start, stop⟩⟩

/-- Nothing but the tokens before a place is listed, or these and then a plain scalar there. -/
def KeptUpTo (pre : List Token) (start : Mark) (ts : List Token) : Prop :=
  tracked ts <+: pre ∨ ∃ p : Token, p.IsPlainAt start ∧ pre ++ [p] <+: tracked ts

variable {n : Nat} {t : Token} {name : List Char} {c c' : Cursor}

theorem Token.Ahead.of_reaches (h : t.Ahead n c) (hreach : c.Reaches c') : t.Ahead n c' :=
  hreach.index_add_length.trans h

/-- An alias that is written behind a place is read at its `*`. -/
theorem Token.Written.exists_star (h : t.Written c) (hkind : t.kind = .aliasOf name) :
    ∃ c', c.Reaches c' ∧ c'.peek = '*' ∧ t.span.start = c'.mark := by
  rw [Written, hkind] at h
  obtain ⟨c', hreach, hpeek, hstart, -⟩ := h
  exact ⟨c', hreach, hpeek, hstart⟩

theorem Token.Ahead.length_eq (h : t.Ahead n c) (hstart : t.span.start = c.mark) :
    c.rest.length = n + 1 := by
  rw [Ahead, hstart] at h
  omega

theorem Token.Ahead.lt_length (h : t.Ahead n c) (hwritten : t.Written c)
    (hkind : t.kind = .aliasOf name) : n < c.rest.length := by
  obtain ⟨c', hreach, -, hstart⟩ := hwritten.exists_star hkind
  have hlength := (h.of_reaches hreach).length_eq hstart
  have hle := hreach.length_le
  omega

/-- Nothing is written behind the end. -/
theorem Token.Written.reaches (h : t.Written c') (hkind : t.kind = .aliasOf name)
    (hreach : isEnd c'.peek = true ∨ c.Reaches c') : c.Reaches c' := by
  refine hreach.resolve_left fun hend => ?_
  obtain ⟨c₁, hreach, hpeek, -⟩ := h.exists_star hkind
  have hend₁ := hreach.isEnd_of_isEnd hend
  rw [hpeek] at hend₁
  cases hend₁

namespace Scanner

variable {s s' : Scanner} {pre rest ts : List Token}

/-! ### Places in the list -/

/-- What is listed behind the queue is written further on. -/
theorem Lists.written (h : s.Lists ts) (hts : tracked ts = pre ++ t :: rest)
    (hcount : (tracked s.queue).length ≤ pre.length) : t.Written s.cursor := by
  rcases h with hprefix | ⟨new, hnew, hwritten⟩
  · have hle := hprefix.length_le
    rw [hts, List.length_append, List.length_cons] at hle
    omega
  · refine hwritten t ?_
    have hdrop := congrArg (List.drop (tracked s.queue).length) (hnew.symm.trans hts)
    rw [List.drop_left, List.drop_append_of_le_length hcount] at hdrop
    rw [hdrop]
    simp

/-- As many tokens as are in the queue are those in the queue. -/
theorem Lists.eq_of_length (h : s.Lists ts) (hpre : pre <+: tracked ts)
    (hlength : pre.length = (tracked s.queue).length) : pre = tracked s.queue := by
  rcases h with hprefix | ⟨new, hnew, -⟩
  · exact (hpre.trans hprefix).eq_of_length hlength
  · rw [hnew] at hpre
    exact (List.prefix_of_prefix_length_le hpre (List.prefix_append _ _) hlength.le).eq_of_length
      hlength

/-! ### One step -/

/-- A scanner in front of an alias, which it will list behind what it has in its queue. -/
structure Before (n : Nat) (t : Token) (pre : List Token) (s : Scanner) : Prop where
  ahead : t.Ahead n s.cursor
  count : (tracked s.queue).length ≤ pre.length

/-- The alias is read, and a plain scalar with the placeholder. -/
theorem readToken?_star (h : s.readToken? = some s') (hpeek : s.cursor.peek = '*')
    (hmask : (s.cursor.mask n).peek = '_') :
    s.anchor? true = some s' ∧ (s.mask n).readToken? = (s.mask n).plainScalar? := by
  have hstart : ∀ c : Cursor, c.peek = '*' ∨ c.peek = '_' →
      c.atDocumentStart = false ∧ c.atDocumentEnd = false := by
    rintro c (hc | hc) <;> simp [atDocumentStart, atDocumentEnd, atTriple, hc]
  have hs := hstart _ (.inl hpeek)
  have ht := hstart _ (.inr hmask)
  have hcolumn : ¬ (s.column : Int) < s.indent := by
    intro hlt
    simp [readToken?, contentToken?, hpeek, hs, hlt, isEnd] at h
  refine ⟨?_, ?_⟩
  · simpa [readToken?, contentToken?, hpeek, hs, hcolumn, isEnd] using h
  · simp [readToken?, contentToken?, hmask, ht, hcolumn, isEnd]

/-- What is read at a placeholder is a plain scalar. -/
theorem exists_isPlainAt {r : Scanner} (h : (s.mask n).plainScalar? = some r) :
    ∃ p : Token, p.IsPlainAt s.cursor.mark ∧ tracked r.queue = tracked s.queue ++ [p] := by
  obtain ⟨-, inFlow, least, p, -, hqueue⟩ := queue_of_plainScalar? h
  rw [cursor_mask, mark_mask, queue_mask] at hqueue
  exact ⟨_, ⟨_, _, rfl⟩, hqueue⟩

/-- In front of the alias a token is read with the placeholder too, unless it is an error there;
and where the alias is read, the queue is what the list has before it. -/
theorem Before.readToken? (h : s.Before n t pre) (hread : s.readToken? = some s')
    (hlist : s'.Lists ts) (hts : tracked ts = pre ++ t :: rest) (hkind : t.kind = .aliasOf name) :
    s'.Before n t pre ∧ Follows n s' (s.mask n).readToken? ∨
      tracked s.queue = pre ∧ ∀ r, (s.mask n).readToken? = some r →
        ∃ p : Token, p.IsPlainAt t.span.start ∧ tracked r.queue = pre ++ [p] := by
  have hreads := Reads.readToken? hread
  obtain ⟨c, hreach, hstar, hstart⟩ :=
    ((Lists.of_reads hreads hlist).written hts h.count).exists_star hkind
  have hlength := (h.ahead.of_reaches hreach).length_eq hstart
  have hle := hreach.length_le
  -- The next token in the list is the alias.
  have hnext : ∀ {u : Token}, tracked s'.queue = tracked s.queue ++ [u] →
      (tracked s.queue).length = pre.length → pre = tracked s.queue ∧ t = u := by
    intro u hqueue hcount
    have hpre : pre ++ [t] <+: tracked ts := ⟨rest, by rw [hts, List.append_assoc]; rfl⟩
    have heq := hlist.eq_of_length hpre (by simp [hqueue, hcount])
    rw [hqueue] at heq
    obtain ⟨hpre, hu⟩ := List.append_inj heq hcount.symm
    exact ⟨hpre, List.singleton_inj.mp hu⟩
  by_cases hat : s.cursor.rest.length = n + 1
  · right
    obtain ⟨hrest, hmark⟩ := hreach.eq_of_length (by omega)
    have hpeek : s.cursor.peek = '*' := by rwa [peek, ← hrest]
    obtain ⟨hanchor, hplain⟩ := readToken?_star hread hpeek (peek_mask_of_star hpeek hat)
    obtain ⟨hanchored, hshorter, name', stop, -, -, hqueue⟩ := queue_of_anchor? hanchor (by
      rw [hpeek]
      decide)
    have hcount : (tracked s.queue).length = pre.length := by
      refine le_antisymm h.count (Nat.le_of_not_lt fun hlt => ?_)
      have hwritten := hlist.written hts (by
        rw [hqueue, List.length_append]
        exact hlt)
      have hlater := (h.ahead.of_reaches hanchored).lt_length hwritten hkind
      omega
    refine ⟨(hnext hqueue hcount).1.symm, fun r hr => ?_⟩
    rw [hstart, hmark, (hnext hqueue hcount).1]
    rw [hplain] at hr
    exact exists_isPlainAt hr
  · left
    have hpeek : (s.cursor.mask n).peek = s.cursor.peek := peek_mask_of_lt (by omega)
    have hcount : (tracked s'.queue).length ≤ pre.length := by
      obtain ⟨new, hqueue, hnew⟩ := hreads.queue
      cases new with
      | none => simpa [hqueue] using h.count
      | some u =>
        by_contra hmore
        rw [Option.toList_some] at hqueue
        rw [hqueue, List.length_append, List.length_singleton] at hmore
        have hcount := h.count
        obtain ⟨-, rfl⟩ := hnext hqueue (by omega)
        have hu := hnew t rfl
        rw [Token.WrittenAt, hkind] at hu
        exact hat (h.ahead.length_eq hu.2.1)
    have hwritten := hlist.written hts hcount
    have hahead := h.ahead.of_reaches (hwritten.reaches hkind hreads.cursor)
    exact ⟨⟨hahead, hcount⟩, readToken?_mask hread (hahead.lt_length hwritten hkind) hpeek⟩

theorem Before.keeps (h : s.Before n t pre) (hs' : s.Keeps s') : s'.Before n t pre :=
  ⟨hs'.cursor ▸ h.ahead, hs'.queue ▸ h.count⟩

/-- What a scanner does with the placeholder from where it reads the alias without. -/
def Strays (pre : List Token) (t : Token) (r : Option Scanner) : Prop :=
  ∀ s, r = some s → ∀ ts, s.Lists ts → KeptUpTo pre t.span.start ts

theorem Lists.keptUpTo (h : s.Lists ts) {p : Token} (hp : p.IsPlainAt t.span.start)
    (hqueue : tracked s.queue = pre ++ [p]) : KeptUpTo pre t.span.start ts := by
  rcases h with hprefix | ⟨new, hnew, -⟩
  · rw [hqueue] at hprefix
    rcases List.prefix_concat_iff.mp hprefix with hall | hprefix
    · exact .inr ⟨p, hp, hall ▸ List.prefix_rfl⟩
    · exact .inl hprefix
  · exact .inr ⟨p, hp, new, by rw [hnew, hqueue]⟩

theorem Strays.of_none : Strays pre t none := fun _ h => by cases h

/-- One step of the scanner. -/
theorem Before.step? (h : s.Before n t pre) (hstep : s.step? = some s') (hlist : s'.Lists ts)
    (hts : tracked ts = pre ++ t :: rest) (hkind : t.kind = .aliasOf name) :
    s'.Before n t pre ∧ (s.mask n).step? = some (s'.mask n) ∨ Strays pre t (s.mask n).step? := by
  by_cases hstarted : s.started = true
  · rw [step?_of_started hstarted] at hstep
    rw [step?_of_started (s := s.mask n) hstarted, prepare?_mask]
    obtain ⟨s₁, hprepare, hread⟩ := Option.bind_eq_some_iff.mp hstep
    rw [hprepare, Option.map_some, Option.bind_some]
    have hpasses := passes_prepare? hprepare
    have hs₁ : s₁.Before n t pre := by
      have hcount : (tracked s₁.queue).length ≤ pre.length := hpasses.queue ▸ h.count
      have hwritten := (Lists.of_reads (.readToken? hread) hlist).written hts hcount
      exact ⟨h.ahead.of_reaches (hwritten.reaches hkind hpasses.cursor), hcount⟩
    rcases hs₁.readToken? hread hlist hts hkind with ⟨hs', hmask | hmask⟩ | ⟨-, hplain⟩
    · exact .inl ⟨hs', hmask⟩
    · rw [hmask]
      exact .inr .of_none
    · refine .inr fun r hr ts' hts' => ?_
      obtain ⟨p, hp, hqueue⟩ := hplain r hr
      exact hts'.keptUpTo hp hqueue
  · have hstarted := Bool.eq_false_iff.mpr hstarted
    rw [step?_of_not_started hstarted] at hstep
    cases hstep
    refine .inl ⟨⟨h.ahead, ?_⟩, step?_of_not_started hstarted⟩
    rw [((lastsOn_passes s).streamStart (.refl s)).queue]
    exact h.count

/-! ### Runs -/

theorem Before.settle? {fuel : Nat} (h : s.Before n t pre)
    (hsettle : Scanner.settle? fuel s = some s') (hlist : s'.Lists ts)
    (hts : tracked ts = pre ++ t :: rest) (hkind : t.kind = .aliasOf name) :
    s'.Before n t pre ∧ Scanner.settle? fuel (s.mask n) = some (s'.mask n) ∨
      Strays pre t (Scanner.settle? fuel (s.mask n)) := by
  induction fuel generalizing s with
  | zero =>
    cases hsettle
    exact .inl ⟨h, rfl⟩
  | succ fuel ih =>
    -- A step, and the rest of the run.
    have hnext : ∀ {s : Scanner}, s.Before n t pre →
        s.step?.bind (Scanner.settle? fuel) = some s' →
          s'.Before n t pre ∧ (s.mask n).step?.bind (Scanner.settle? fuel) = some (s'.mask n) ∨
            Strays pre t ((s.mask n).step?.bind (Scanner.settle? fuel)) := by
      intro s h hsettle
      obtain ⟨s₁, hstep, hsettle⟩ := Option.bind_eq_some_iff.mp hsettle
      rcases h.step? hstep (.of_settle? hsettle hlist) hts hkind with ⟨hs₁, hmask⟩ | hstray
      · rw [hmask, Option.bind_some]
        exact ih hs₁ hsettle
      · refine .inr fun r hr ts' hts' => ?_
        obtain ⟨r₁, hr₁, hr⟩ := Option.bind_eq_some_iff.mp hr
        exact hstray r₁ hr₁ ts' (.of_settle? hr hts')
    rw [Scanner.settle?] at hsettle ⊢
    rw [queue_mask, staleKeys?_mask]
    by_cases hempty : s.queue.isEmpty = true
    · rw [if_pos hempty] at hsettle ⊢
      exact hnext h hsettle
    rw [if_neg hempty] at hsettle ⊢
    cases hstale : s.staleKeys? with
    | none =>
      rw [hstale] at hsettle
      cases hsettle
    | some s₁ =>
      rw [hstale] at hsettle
      have hs₁ := h.keeps (keeps_staleKeys? hstale)
      dsimp only [Option.map_some] at hsettle ⊢
      by_cases hkey : (s₁.keys.any fun k => k.possible && k.number == s₁.emitted) = true
      · rw [if_pos hkey] at hsettle
        rw [if_pos (by exact hkey)]
        exact hnext hs₁ hsettle
      · rw [if_neg hkey] at hsettle
        rw [if_neg (by exact hkey)]
        cases hsettle
        exact .inl ⟨hs₁, rfl⟩

/-- The token that is handed out is the same, and no alias. -/
theorem Before.emit {fuel : Nat} (h : s.Before n t pre)
    (hts : tracked (s.emit fuel).tokens = pre ++ t :: rest)
    (hnext : ∀ {s : Scanner} {pre : List Token}, s.Before n t pre →
      tracked (Scanner.tokens fuel s).tokens = pre ++ t :: rest →
        KeptUpTo pre t.span.start (Scanner.tokens fuel (s.mask n)).tokens) :
    KeptUpTo pre t.span.start ((s.mask n).emit fuel).tokens := by
  unfold Scanner.emit at hts ⊢
  rw [queue_mask]
  cases hqueue : s.queue with
  | nil => simp [hqueue] at hts
  | cons token queue =>
    have hcount := h.count
    rw [hqueue] at hts hcount
    dsimp only at hts ⊢
    split_ifs at hts ⊢ with hend
    · have hfree : token.kind.isFree = false := by
        rw [hend]
        rfl
      have hlength := congrArg List.length hts
      rw [tracked_cons hfree, List.length_cons] at hcount hlength
      simp only [tracked_nil, List.length_nil, List.length_append, List.length_cons] at hlength
      omega
    have hafter : ∀ {pre' : List Token}, (tracked queue).length ≤ pre'.length →
        tracked (Scanner.tokens fuel { s with queue, emitted := s.emitted + 1 }).tokens =
          pre' ++ t :: rest → KeptUpTo pre' t.span.start (Scanner.tokens fuel
            { s.mask n with queue, emitted := s.emitted + 1 }).tokens := fun hcount hts =>
      hnext (s := { s with queue, emitted := s.emitted + 1 }) ⟨h.ahead, hcount⟩ hts
    cases hfree : token.kind.isFree
    · rw [tracked_cons hfree, List.length_cons] at hcount
      rw [tracked_cons hfree] at hts
      cases pre with
      | nil => simp at hcount
      | cons u pre =>
        obtain ⟨rfl, hrest⟩ := List.cons.inj hts
        rw [KeptUpTo, tracked_cons hfree]
        rcases hafter (Nat.le_of_succ_le_succ hcount) hrest with hprefix | ⟨p, hp, hprefix⟩
        · exact .inl (List.prefix_cons_inj token |>.mpr hprefix)
        · exact .inr ⟨p, hp, List.prefix_cons_inj token |>.mpr hprefix⟩
    · rw [tracked_cons_of_isFree hfree] at hcount hts
      rw [KeptUpTo, tracked_cons_of_isFree hfree]
      exact hafter hcount hts

theorem Before.tokens {fuel : Nat} (h : s.Before n t pre)
    (hts : tracked (Scanner.tokens fuel s).tokens = pre ++ t :: rest)
    (hkind : t.kind = .aliasOf name) :
    KeptUpTo pre t.span.start (Scanner.tokens fuel (s.mask n)).tokens := by
  induction fuel generalizing s pre with
  | zero => simp [Scanner.tokens] at hts
  | succ fuel ih =>
    rw [tokens_succ] at hts ⊢
    rw [cursor_mask, length_mask]
    cases hsettle : Scanner.settle? (s.cursor.rest.length + 3) s with
    | none => simp [hsettle] at hts
    | some s₁ =>
      rw [hsettle] at hts
      dsimp only at hts
      rcases h.settle? hsettle (.emit (lists_tokens fuel) s₁) hts hkind with ⟨hs₁, hmask⟩ | hstray
      · rw [hmask]
        exact hs₁.emit hts ih
      · cases hmask : Scanner.settle? (s.cursor.rest.length + 3) (s.mask n) with
        | none => exact .inl List.nil_prefix
        | some r => exact hstray r hmask _ (.emit (lists_tokens fuel) r)

end Scanner

/-- With a placeholder over the `*` of an alias, the tokens before it are the same, and then there
is a plain scalar, unless the tokens end. -/
theorem keptUpTo_scan_set {source : List Char} {pre rest : List Token}
    (hts : tracked (scan source).tokens = pre ++ t :: rest) (hkind : t.kind = .aliasOf name) :
    source[t.span.start.index]? = some '*' ∧ KeptUpTo pre t.span.start
      (scan (source.set t.span.start.index aliasPlaceholder)).tokens := by
  have hmem : t ∈ (scan source).tokens := by
    have hmem : t ∈ tracked (scan source).tokens := by simp [hts]
    exact (List.mem_filter.mp hmem).1
  obtain ⟨c, hreach, hpeek, hstart⟩ := (written_of_mem_scan hmem).exists_star hkind
  have hstar : source[t.span.start.index]? = some '*' := by
    rw [hstart, ← List.head?_drop, hreach.drop_index, rest_eq_of_peek hpeek (by decide)]
    rfl
  refine ⟨hstar, ?_⟩
  have hlt := (List.getElem?_eq_some_iff.mp hstar).1
  rw [set_eq_maskStar hstar, scan, length_maskStar]
  refine Scanner.Before.tokens (s := { cursor := { rest := source } }) ⟨?_, ?_⟩ hts hkind
  · have hlength : 0 + source.length =
        t.span.start.index + (source.length - t.span.start.index - 1 + 1) := by omega
    exact hlength
  · simp

end PipelineScripts.Yaml
