import PipelineScripts.Proofs.MaskedTokens
import PipelineScripts.Proofs.Placeholders
import PipelineScripts.Proofs.TakenTokens

/-!
# Kept aliases

An alias whose anchor is not known stays in a fragment as an alias. A plain scalar stands in its
place while the fragment is read, and that may take in more of the source than the alias.
-/
namespace PipelineScripts.Yaml

/-! ### Reading again -/

section Passes

variable {keep : Bool} {fuel : Nat} {source : List Char} {aliases : List (Nat × String)}
  {read : EventSource} {known pre rest : List Token} {t : Token}

/-- Known tokens are listed before one that is not. -/
theorem prefix_of_taken (hlist : known <+: tracked (pre ++ t :: rest)) (hknown : Known [] known)
    (hfree : t.kind.isFree = false) (hstop : ¬ t.IsKnown (anchorsAfter [] pre)) :
    known <+: tracked pre := by
  have hall : ∀ x, ¬ Known [] (tracked pre ++ [t] ++ x) := by
    intro x hx
    have ht := (known_append.mp (known_append.mp hx).1).2.1
    rw [(known_tracked [] pre).2] at ht
    exact hstop ht
  have hnext : tracked pre ++ [t] <+: tracked (pre ++ t :: rest) :=
    ⟨tracked rest, by rw [tracked_append, tracked_cons hfree, List.append_assoc]; rfl⟩
  rcases List.prefix_or_prefix_of_prefix hlist hnext with hshort | ⟨x, rfl⟩
  · rcases List.prefix_concat_iff.mp hshort with rfl | hshort
    · exact absurd hknown (by simpa using hall [])
    · exact hshort
  · exact absurd hknown (hall x)

/-- The tokens of a source that is read up to its end. -/
theorem taken_of_read {events : List Event} (h : Event.read source = .ok events) :
    ∃ pre t rest, (scan source).tokens = pre ++ t :: rest ∧ t.kind.isFree = false ∧
      ¬ t.IsKnown (anchorsAfter [] pre) ∧ ∀ u ∈ pre, ∀ text, u.kind = .scalar .plain text →
        ∃ p, ⟨.scalar .plain text p, u.span⟩ ∈ events := by
  obtain ⟨pre, t, rest, htokens, hkind, -, hplain⟩ :=
    EventReader.taken_of_run (ready_of_scan source) h
  exact ⟨pre, t, rest, htokens, by rw [hkind]; rfl, by simp [Token.IsKnown, hkind], hplain⟩

/-- The tokens of a source that is read up to an unknown alias. -/
theorem missed_of_read {mark : Mark} (h : Event.read source = .error (.unknownAnchor mark)) :
    ∃ pre t rest name, (scan source).tokens = pre ++ t :: rest ∧ t.kind = .aliasOf name ∧
      t.span.start = mark ∧ Known [] pre ∧ t.kind.isFree = false ∧
        ¬ t.IsKnown (anchorsAfter [] pre) := by
  obtain ⟨pre, t, rest, name, htokens, hkind, hmark, hknown, hname⟩ :=
    EventReader.missed_of_run (ready_of_scan source) h
  exact ⟨pre, t, rest, name, htokens, hkind, hmark, hknown, by rw [hkind]; rfl,
    by simpa [Token.IsKnown, hkind] using hname⟩

/-- A source whose tokens end before anything stops the reader is not read. -/
theorem readEvents_ne_ok (hknown : Known [] (tracked (scan source).tokens)) :
    readEvents keep fuel source aliases ≠ .ok read := by
  intro h
  have hstop : ∀ {pre rest : List Token} {t : Token}, (scan source).tokens = pre ++ t :: rest →
      t.kind.isFree = false → ¬ t.IsKnown (anchorsAfter [] pre) → False := by
    intro pre rest t htokens hfree hstop
    rw [htokens] at hknown
    have hle := (prefix_of_taken List.prefix_rfl hknown hfree hstop).length_le
    rw [tracked_append, tracked_cons hfree, List.length_append, List.length_cons] at hle
    omega
  cases fuel with
  | zero => cases h
  | succ fuel =>
    rw [readEvents_succ] at h
    split at h
    next hread =>
      obtain ⟨pre, t, rest, htokens, hfree, hunknown, -⟩ := taken_of_read hread
      exact hstop htokens hfree hunknown
    next => cases h
    next hread =>
      obtain ⟨pre, t, rest, name, htokens, -, -, -, hfree, hunknown⟩ := missed_of_read hread
      exact hstop htokens hfree hunknown

/-- Placeholders that are read as plain scalars, before anything stops the reader. -/
structure Placed (source : List Char) (aliases : List (Nat × String)) (taken : List Token) :
    Prop where
  listed : taken <+: tracked (scan source).tokens
  known : Known [] taken
  placed : ∀ a ∈ aliases, ∃ p ∈ taken, ∃ text, p.kind = .scalar .plain text ∧
    p.span.start.index = a.1

/-- The alias that a reader stops at is found where it is. -/
theorem star_eq_of_aliasAt? {offset star : Nat} {name : List Char}
    (hstar : source[offset]? = some '*') (h : aliasAt? source offset = some (star, name)) :
    star = offset := by
  have hlt := (List.getElem?_eq_some_iff.mp hstar).1
  rw [← List.head?_drop] at hstar
  unfold aliasAt? at h
  extract_lets before after here find at h
  rw [if_pos hstar] at h
  rcases of_ite_eq h with ⟨-, h⟩ | h
  · cases h
  · exact (Prod.mk.inj (Option.some.inj h)).1.symm.trans (min_eq_left hlt.le)

/-- The next placeholder is read as a plain scalar behind the others. -/
theorem Placed.next (h : Placed source aliases known) {mark : Mark} {star : Nat} {name : List Char}
    (hread : Event.read source = .error (.unknownAnchor mark))
    (halias : aliasAt? source mark.index = some (star, name)) :
    (∃ known', Placed (source.set star aliasPlaceholder)
      ((star, String.ofList name) :: aliases) known') ∨
        Known [] (tracked (scan (source.set star aliasPlaceholder)).tokens) := by
  obtain ⟨pre, t, rest, name', htokens, hkind, rfl, hknown, hfree, hunknown⟩ := missed_of_read hread
  have hlist : tracked (scan source).tokens = tracked pre ++ t :: tracked rest := by
    rw [htokens, tracked_append, tracked_cons hfree]
  obtain ⟨hstar, hkept⟩ := keptUpTo_scan_set hlist hkind
  obtain rfl := star_eq_of_aliasAt? hstar halias
  have hbefore := prefix_of_taken (htokens ▸ h.listed) h.known hfree hunknown
  have hknown := (known_tracked [] pre).1.mpr hknown
  rcases hkept with hshort | ⟨p, ⟨text, stop, rfl⟩, hlong⟩
  · right
    obtain ⟨x, hx⟩ := hshort
    rw [← hx] at hknown
    exact (known_append.mp hknown).1
  · refine .inl ⟨_, hlong, known_append.mpr ⟨hknown, trivial, trivial⟩, fun a ha => ?_⟩
    rcases List.mem_cons.mp ha with rfl | ha
    · exact ⟨_, List.mem_append_right _ List.mem_cons_self, text, rfl, rfl⟩
    · obtain ⟨q, hq, hplain⟩ := h.placed a ha
      exact ⟨q, List.mem_append_left _ (hbefore.subset hq), hplain⟩

/-- Every placeholder of a source that is read in the end is read as a plain scalar. -/
theorem exists_plain_of_readEvents (hplaced : Placed source aliases known)
    (h : readEvents keep fuel source aliases = .ok read) :
    ∀ a ∈ read.aliases, ∃ t ∈ (scan read.source).tokens, ∃ text, t.kind = .scalar .plain text ∧
      t.span.start.index = a.1 ∧ ∃ p, ⟨.scalar .plain text p, t.span⟩ ∈ read.events := by
  induction fuel generalizing source aliases known with
  | zero => cases h
  | succ fuel ih =>
    rw [readEvents_succ] at h
    split at h
    next events hread =>
      cases h
      obtain ⟨pre, t, rest, htokens, hfree, hunknown, hplain⟩ := taken_of_read hread
      have hbefore := prefix_of_taken (htokens ▸ hplaced.listed) hplaced.known hfree hunknown
      intro a ha
      obtain ⟨u, hu, text, hkind, hstart⟩ := hplaced.placed a ha
      have hu : u ∈ pre := (List.mem_filter.mp (hbefore.subset hu)).1
      exact ⟨u, htokens ▸ List.mem_append_left _ hu, text, hkind, hstart, hplain u hu text hkind⟩
    next => cases h
    next mark hread =>
      split at h
      next => cases h
      next star name halias =>
        split_ifs at h
        rcases hplaced.next hread halias with ⟨known', hplaced'⟩ | hknown
        · exact ih hplaced' h
        · exact absurd h (readEvents_ne_ok hknown)

end Passes

/-- Every placeholder of a fragment that is read is read as a plain scalar, and this is the alias,
and covers no more of the source, exactly if its first word is the name of the alias and nothing
goes on with it. -/
theorem placeholder_reads_as_alias_iff {content : String} {read : EventSource}
    (h : readEvents true (content.toList.count '*' + 1) content.toList [] = .ok read)
    {star : Nat} {name : String} (halias : (star, name) ∈ read.aliases) :
    ∃ (c : Cursor) (inFlow : Bool) (least : Int) (scalar : PlainRead) (p : Properties),
      content.toList[star]? = some '*' ∧ c.rest = read.source.drop star ∧ c.mark.index = star ∧
      readPlain? inFlow least c = some scalar ∧
      ⟨.scalar .plain scalar.text.reverse p, ⟨c.mark, scalar.stop⟩⟩ ∈ read.events ∧
      (scalar.text.reverse = aliasPlaceholder :: name.toList ↔
        IsPlaceholder.Alone inFlow least c name.toList) ∧
      ((read.source.drop star).take (scalar.stop.index - star) =
        aliasPlaceholder :: name.toList ↔ IsPlaceholder.Alone inFlow least c name.toList) := by
  have hplaceholder := isPlaceholder_of_readEvents h (by simp) _ halias
  have hplaced : Placed content.toList [] [] := ⟨List.nil_prefix, trivial, by simp⟩
  obtain ⟨t, ht, text, hkind, hstart, p, hevent⟩ := exists_plain_of_readEvents hplaced h _ halias
  obtain ⟨c, inFlow, least, scalar, hrest, hread, hspan, rfl, htext, hsource⟩ :=
    hplaceholder.plainToken_iff ht hkind hstart
  have hstar : content.toList[star]? = some '*' :=
    (inPlace_of_readEvents h).star star (List.mem_map_of_mem halias)
  refine ⟨c, inFlow, least, scalar, p, hstar, hrest, ?_, hread, hspan ▸ hevent, htext, hsource⟩
  rw [hspan] at hstart
  exact hstart

/-- A list whose second item is an alias with text behind it. -/
def aliasWithText : String := "- *x\n- *x y\n"

/-- The text behind the second alias is dropped with it, though it is an error where the anchor is
defined. -/
theorem aliasWithText_dropped :
    (∃ read, readEvents true (aliasWithText.toList.count '*' + 1) aliasWithText.toList [] =
        .ok read ∧ read.aliases = [(7, "x"), (2, "x")] ∧
      read.events[3]? = some ⟨.scalar .plain "_x".toList {}, ⟨⟨2, 1, 2⟩, ⟨4, 1, 4⟩⟩⟩ ∧
      read.events[4]? = some ⟨.scalar .plain "_x y".toList {}, ⟨⟨7, 2, 2⟩, ⟨11, 2, 6⟩⟩⟩) ∧
    (∃ f, File.parseFragment "ci.yml" aliasWithText = .ok f ∧
      f.kind? 0 = some (.aliasOf "x") ∧ f.kind? 1 = some (.aliasOf "x")) ∧
    ¬ ∃ f, File.parseFragment "ci.yml" ("- &x 1\n" ++ aliasWithText) = .ok f := by
  have hread : (readEvents true (aliasWithText.toList.count '*' + 1) aliasWithText.toList
      []).toOption.map (fun read => (read.aliases, read.events[3]?, read.events[4]?)) =
      some ([(7, "x"), (2, "x")],
        some ⟨.scalar .plain "_x".toList {}, ⟨⟨2, 1, 2⟩, ⟨4, 1, 4⟩⟩⟩,
        some ⟨.scalar .plain "_x y".toList {}, ⟨⟨7, 2, 2⟩, ⟨11, 2, 6⟩⟩⟩) := by decide +kernel
  have hparse : (File.parseFragment "ci.yml" aliasWithText).toOption.map (fun f =>
      (f.kind? 0, f.kind? 1)) = some (some (.aliasOf "x"), some (.aliasOf "x")) := by
    decide +kernel
  have hdefined : (File.parseFragment "ci.yml" ("- &x 1\n" ++ aliasWithText)).toOption.isSome =
      false := by decide +kernel
  obtain ⟨read, hread, hevents⟩ := Option.map_eq_some_iff.mp hread
  obtain ⟨f, hf, hkinds⟩ := Option.map_eq_some_iff.mp hparse
  simp only [Prod.mk.injEq] at hevents hkinds
  refine ⟨⟨read, toOption_eq_some.mp hread, hevents⟩, ⟨f, toOption_eq_some.mp hf, hkinds⟩, ?_⟩
  rintro ⟨g, hg⟩
  simp [hg, Except.toOption] at hdefined

theorem aliasWithText_read : ∃ read,
    readEvents true (aliasWithText.toList.count '*' + 1) aliasWithText.toList [] = .ok read ∧
    (7, "x") ∈ read.aliases ∧ ∃ (c : Cursor) (inFlow : Bool) (least : Int) (scalar : PlainRead),
      readPlain? inFlow least c = some scalar ∧ c.mark.index = 7 := by
  have hread : (readEvents true (aliasWithText.toList.count '*' + 1) aliasWithText.toList
      []).toOption.map (fun read => decide ((7, "x") ∈ read.aliases)) = some true := by
    decide +kernel
  obtain ⟨read, hread, halias⟩ := Option.map_eq_some_iff.mp hread
  have hread := toOption_eq_some.mp hread
  have halias := of_decide_eq_true halias
  obtain ⟨c, inFlow, least, scalar, p, -, -, hmark, hplain, -⟩ :=
    placeholder_reads_as_alias_iff hread halias
  exact ⟨read, hread, halias, c, inFlow, least, scalar, hplain, hmark⟩

end PipelineScripts.Yaml
