import PipelineScripts.Proofs.BlockNodes
import PipelineScripts.Proofs.CoveredTexts

/-!
# Aliases are replaced in place

A fragment is read in turns: where reading fails at an unknown alias, the `*` of one is overwritten
and the text is read again. Whatever the reader of events says, and wherever it says the alias is,
a turn overwrites a `*`. So the turns come to an end, no two of them overwrite the same place, and
every offset keeps its line and its column.
-/
namespace PipelineScripts.Yaml

/-! ### The search for an alias -/

/-- What is found on the line that a text starts with is found there. -/
theorem star_of_findIdx? {l : List Char} {i : Nat}
    (h : (l.takeWhile (· != '\n')).findIdx? (· == '*') = some i) : l[i]? = some '*' := by
  obtain ⟨hlt, hstar, -⟩ := List.findIdx?_eq_some_iff_getElem.mp h
  have hprefix := List.takeWhile_prefix (l := l) (· != '\n')
  rw [List.getElem?_eq_getElem (hlt.trans_le hprefix.length_le), ← hprefix.getElem hlt,
    beq_iff_eq.mp hstar]

/-- Wherever the search starts, an alias is found at a `*`, with the characters of a name. -/
theorem of_aliasAt? {source name : List Char} {offset star : Nat}
    (h : aliasAt? source offset = some (star, name)) :
    source[star]? = some '*' ∧ ∀ d ∈ name, isAliasNameChar d = true := by
  have hfound : ∀ place : Nat, source[place]? = some '*' →
      (if ((source.drop (place + 1)).takeWhile isAliasNameChar).isEmpty
        then none else some (place, (source.drop (place + 1)).takeWhile isAliasNameChar)) =
          some (star, name) → source[star]? = some '*' ∧ ∀ d ∈ name, isAliasNameChar d = true := by
    intro place hstar heq
    split_ifs at heq
    cases heq
    exact ⟨hstar, fun d hd => List.mem_takeWhile_imp hd⟩
  unfold aliasAt? at h
  extract_lets before after here find at h
  split_ifs at h with hhere
  · -- At the offset.
    rw [List.head?_drop] at hhere
    have heq : here = offset := min_eq_left (List.getElem?_eq_some_iff.mp hhere).1.le
    exact hfound here (heq ▸ hhere) h
  · split at h
    next i hi =>
      -- Before the offset, where the search goes backwards.
      have hbefore := star_of_findIdx? hi
      have hlt := (List.getElem?_eq_some_iff.mp hbefore).1
      rw [List.length_reverse, List.length_take] at hlt
      rw [List.getElem?_reverse (by rwa [List.length_take]), List.length_take,
        List.getElem?_take_of_lt (by omega)] at hbefore
      exact hfound _ hbefore h
    next =>
      -- Behind the offset.
      obtain ⟨place, hplace, h⟩ := Option.bind_eq_some_iff.mp h
      obtain ⟨i, hi, rfl⟩ := Option.map_eq_some_iff.mp hplace
      have hafter := star_of_findIdx? hi
      rw [List.getElem?_drop] at hafter
      have hlt := (List.getElem?_eq_some_iff.mp hafter).1
      have heq : here = offset := min_eq_left (by omega)
      exact hfound _ (heq ▸ hafter) h

/-! ### Turns -/

/-- A text while it is read, with the aliases that are replaced in it so far, the last one first. -/
structure Reading where
  source : List Char
  aliases : List (Nat × String)
deriving DecidableEq, Repr

namespace Reading

/-- A text in which nothing is replaced yet. -/
def start (content : List Char) : Reading := ⟨content, []⟩

/-- Where aliases are replaced. -/
def offsets (r : Reading) : List Nat := r.aliases.map Prod.fst

/-- Overwrites the `*` of an alias. -/
def replace (r : Reading) (star : Nat) (name : List Char) : Reading :=
  ⟨r.source.set star aliasPlaceholder, (star, String.ofList name) :: r.aliases⟩

/-- One turn, with any reader of events: reading ends with an answer, or an alias is replaced. -/
def turn (read : List Char → Except Fault (List Event)) (keep : Bool) (r : Reading) :
    Except ReadError EventSource ⊕ Reading :=
  match read r.source with
  | .ok events => .inl (.ok ⟨r.source, events, r.aliases⟩)
  | .error .malformed => .inl (.error .malformed)
  | .error (.unknownAnchor mark) =>
    match aliasAt? r.source mark.index with
    | none => .inl (.error .malformed)
    | some (star, name) =>
      if keep then .inr (r.replace star name)
      else .inl (.error (.unknownAlias (String.ofList name) mark.line))

/-- Reads in turns, with a bound on their number. -/
def run (read : List Char → Except Fault (List Event)) (keep : Bool) :
    Nat → Reading → Except ReadError EventSource
  | 0, _ => .error .malformed
  | fuel + 1, r =>
    match r.turn read keep with
    | .inl answer => answer
    | .inr r => run read keep fuel r

/-- A number of turns that replace an alias each. -/
inductive Turns (read : List Char → Except Fault (List Event)) (keep : Bool) :
    Nat → Reading → Reading → Prop
  | none (r : Reading) : Turns read keep 0 r r
  | next {n : Nat} {r r₁ r' : Reading} (hturn : r.turn read keep = .inr r₁)
      (hrest : Turns read keep n r₁ r') : Turns read keep (n + 1) r r'

variable {read : List Char → Except Fault (List Event)} {keep : Bool} {content : List Char}
  {r r' : Reading} {n : Nat}

/-- Every turn overwrites one `*`. -/
theorem exists_star_of_turn (h : r.turn read keep = .inr r') :
    ∃ star name, r.source[star]? = some '*' ∧ r' = r.replace star name := by
  unfold turn at h
  split at h
  · cases h
  · cases h
  · split at h
    · cases h
    next star name halias =>
      split_ifs at h
      cases h
      exact ⟨star, name, (of_aliasAt? halias).1, rfl⟩

/-- Reading ends well where the reader of events does. -/
theorem read_of_turn {s : EventSource} (h : r.turn read keep = .inl (.ok s)) :
    read r.source = .ok s.events ∧ r = ⟨s.source, s.aliases⟩ := by
  unfold turn at h
  split at h
  next events hread =>
    cases h
    exact ⟨hread, rfl⟩
  · cases h
  · split at h
    · cases h
    · split_ifs at h
      cases h

theorem count_replace {star : Nat} (h : r.source[star]? = some '*') (name : List Char) :
    (r.replace star name).source.count '*' + 1 = r.source.count '*' := by
  obtain ⟨hlt, hstar⟩ := List.getElem?_eq_some_iff.mp h
  have hpos : 0 < r.source.count '*' := List.count_pos_iff.mpr (hstar ▸ List.getElem_mem hlt)
  rw [replace, List.count_set hlt, hstar, if_pos (beq_self_eq_true '*'), if_neg (by decide)]
  omega

/-- There are as many turns as stars get lost. -/
theorem Turns.count_add (h : Turns read keep n r r') :
    r'.source.count '*' + n = r.source.count '*' := by
  induction h with
  | none => rfl
  | next hturn _ ih =>
    obtain ⟨star, name, hstar, rfl⟩ := exists_star_of_turn hturn
    rw [← count_replace hstar name, ← ih]
    rfl

/-- The turns come to an end: with each there are fewer stars. -/
theorem exists_turns (read : List Char → Except Fault (List Event)) (keep : Bool) (r : Reading) :
    ∃ n r' answer, Turns read keep n r r' ∧ r'.turn read keep = .inl answer := by
  induction hcount : r.source.count '*' using Nat.strong_induction_on generalizing r with
  | h k ih =>
    cases hturn : r.turn read keep with
    | inl answer => exact ⟨0, r, answer, .none r, hturn⟩
    | inr r₁ =>
      obtain ⟨star, name, hstar, rfl⟩ := exists_star_of_turn hturn
      have hless := count_replace hstar name
      obtain ⟨n, r', answer, hturns, hlast⟩ := ih _ (by omega) (r.replace star name) rfl
      exact ⟨n + 1, r', answer, .next hturn hturns, hlast⟩

/-- Every turn records one alias. -/
theorem Turns.length_aliases (h : Turns read keep n r r') :
    r'.aliases.length = r.aliases.length + n := by
  induction h with
  | none => rfl
  | next hturn _ ih =>
    obtain ⟨star, name, -, rfl⟩ := exists_star_of_turn hturn
    rw [ih, replace, List.length_cons]
    omega

/-- A bound that is larger than the number of turns is not met. -/
theorem Turns.run_eq (h : Turns read keep n r r') {answer : Except ReadError EventSource}
    (hlast : r'.turn read keep = .inl answer) {fuel : Nat} (hfuel : n < fuel) :
    run read keep fuel r = answer := by
  induction h generalizing fuel with
  | none =>
    obtain ⟨fuel, rfl⟩ := Nat.exists_eq_add_of_lt hfuel
    simp only [run, hlast]
  | next hturn _ ih =>
    obtain ⟨fuel, rfl⟩ := Nat.exists_eq_add_of_lt hfuel
    rw [run, hturn]
    exact ih hlast (by omega)

/-- A text that is read in the end is that after some turns. -/
theorem exists_turns_of_run {fuel : Nat} {s : EventSource} (h : run read keep fuel r = .ok s) :
    ∃ n, Turns read keep n r ⟨s.source, s.aliases⟩ ∧ read s.source = .ok s.events := by
  induction fuel generalizing r with
  | zero => cases h
  | succ fuel ih =>
    rw [run] at h
    split at h
    next answer hturn =>
      subst h
      obtain ⟨hread, rfl⟩ := read_of_turn hturn
      exact ⟨0, .none _, hread⟩
    next r₁ hturn =>
      obtain ⟨n, hturns, hread⟩ := ih h
      exact ⟨n + 1, .next hturn hturns, hread⟩

/-- The text is as it was but for placeholders over stars of it, each at a place of its own. -/
structure InPlace (content : List Char) (r : Reading) : Prop where
  nodup : r.offsets.Nodup
  star : ∀ i ∈ r.offsets, content[i]? = some '*'
  char : ∀ i : Nat, r.source[i]? = if i ∈ r.offsets then some aliasPlaceholder else content[i]?

namespace InPlace

theorem start (content : List Char) : (start content).InPlace content :=
  ⟨List.nodup_nil, by simp [Reading.start, offsets], by simp [Reading.start, offsets]⟩

/-- A `*` that is left was there from the start, and nothing was replaced at it. -/
theorem of_star (h : r.InPlace content) {i : Nat} (hi : r.source[i]? = some '*') :
    i ∉ r.offsets ∧ content[i]? = some '*' := by
  have hchar := h.char i
  split_ifs at hchar with hmem
  · rw [hi] at hchar
    cases hchar
  · exact ⟨hmem, hchar ▸ hi⟩

theorem replace (h : r.InPlace content) {star : Nat} (hstar : r.source[star]? = some '*')
    (name : List Char) : (r.replace star name).InPlace content := by
  obtain ⟨hnew, hcontent⟩ := h.of_star hstar
  refine ⟨List.nodup_cons.mpr ⟨hnew, h.nodup⟩, fun i hi => ?_, fun i => ?_⟩
  · rcases List.mem_cons.mp hi with rfl | hi
    · exact hcontent
    · exact h.star i hi
  · have hoffsets : i ∈ (r.replace star name).offsets ↔ i = star ∨ i ∈ r.offsets := List.mem_cons
    rw [if_congr hoffsets rfl rfl, Reading.replace]
    by_cases hi : i = star
    · rw [if_pos (.inl hi), hi, List.getElem?_set_self (List.getElem?_eq_some_iff.mp hstar).1]
    · rw [List.getElem?_set_ne (Ne.symm hi), h.char i]
      exact if_congr (by simp [hi]) rfl rfl

/-- What one turn keeps, all turns keep. -/
theorem turns (h : r.InPlace content) (hturns : Turns read keep n r r') : r'.InPlace content := by
  induction hturns with
  | none => exact h
  | next hturn _ ih =>
    obtain ⟨star, name, hstar, rfl⟩ := exists_star_of_turn hturn
    exact ih (h.replace hstar name)

theorem covers (h : r.InPlace content) : Covers content r.source := by
  have hend : ∀ i, r.source.length ≤ i ↔ content.length ≤ i := by
    intro i
    rw [← List.getElem?_eq_none_iff, ← List.getElem?_eq_none_iff, h.char i]
    split_ifs with hmem
    · simp [h.star i hmem]
    · exact Iff.rfl
  have hlength : content.length = r.source.length :=
    le_antisymm ((hend _).mp le_rfl) ((hend _).mpr le_rfl)
  refine List.forall₂_iff_get.mpr ⟨hlength, fun i hi hi' => ?_⟩
  have hchar := h.char i
  rw [List.getElem?_eq_getElem hi'] at hchar
  split_ifs at hchar with hmem
  · have hstar := h.star i hmem
    rw [List.getElem?_eq_getElem hi] at hstar
    exact .inr ⟨Option.some.inj hstar, Option.some.inj hchar⟩
  · rw [List.getElem?_eq_getElem hi] at hchar
    exact .inl (Option.some.inj hchar)

end InPlace

end Reading

/-! ### Files -/

/-- A file is read in turns. -/
theorem readEvents_eq_run (keep : Bool) (fuel : Nat) (r : Reading) :
    readEvents keep fuel r.source r.aliases = r.run Event.read keep fuel := by
  induction fuel generalizing r with
  | zero => rfl
  | succ fuel ih =>
    rw [readEvents_succ, Reading.run, Reading.turn]
    cases Event.read r.source with
    | ok events => rfl
    | error fault =>
      cases fault with
      | malformed => rfl
      | unknownAnchor mark =>
        dsimp only
        cases aliasAt? r.source mark.index with
        | none => rfl
        | some found =>
          cases keep with
          | true => exact ih (r.replace found.1 found.2)
          | false => rfl

/-- A source that is read in the end is the text with its aliases replaced in place. -/
theorem exists_turns_of_readEvents {keep : Bool} {fuel : Nat} {content : List Char}
    {s : EventSource} (h : readEvents keep fuel content [] = .ok s) :
    ∃ n, Reading.Turns Event.read keep n (.start content) ⟨s.source, s.aliases⟩ ∧
      Event.read s.source = .ok s.events :=
  Reading.exists_turns_of_run ((readEvents_eq_run keep fuel (.start content)).symm.trans h)

theorem inPlace_of_readEvents {keep : Bool} {fuel : Nat} {content : List Char} {s : EventSource}
    (h : readEvents keep fuel content [] = .ok s) :
    (⟨s.source, s.aliases⟩ : Reading).InPlace content := by
  obtain ⟨n, hturns, -⟩ := exists_turns_of_readEvents h
  exact (Reading.InPlace.start content).turns hturns

end PipelineScripts.Yaml
