import PipelineScripts.Check.FindingReader
import PipelineScripts.Json.Printer
import Mathlib.Data.List.TakeWhile
import Mathlib.Tactic.SplitIfs

/-!
# Written JSON is read back

The reader undoes what the writer did: an escaped character is one character again, digits are the
number they were made of, and the blanks between the parts are passed over. So every value without
decimal numbers, whose text the writer takes as it is, is read back from its text.
-/
namespace PipelineScripts.Json

/-! ### Strings -/

theorem hexDigit?_hexChar {n : Nat} (h : n < 16) : hexDigit? (hexChar n) = some n := by
  revert n
  decide

/-- A character that is not escaped stands for itself. -/
theorem readCodes?_cons {c : Char} (hquote : c ≠ '"') (hslash : c ≠ '\\')
    (hcontrol : ¬ c.toNat < 0x20) (rest : List Char) : readCodes? (c :: rest) =
      (readCodes? rest).bind fun (codes, r) => some (c.toNat :: codes, r) := by
  rw [readCodes?.eq_def]
  split
  next heq => cases heq
  next heq => exact absurd (List.cons.inj heq).1 hquote
  next heq => exact absurd (List.cons.inj heq).1 hslash
  next heq => exact absurd (List.cons.inj heq).1 hslash
  next heq =>
    cases heq
    rw [if_neg (by simp [hslash, hcontrol])]
    rfl

/-- A character is read from what it was escaped to. -/
theorem readCodes?_escapeChar (c : Char) (rest : List Char) :
    readCodes? (escapeChar c ++ rest) =
      (readCodes? rest).bind fun (codes, r) => some (c.toNat :: codes, r) := by
  unfold escapeChar
  split_ifs with hquote hslash hback hfeed hline hreturn htab hcontrol
  · subst hquote; rfl
  · subst hslash; rfl
  · subst hback; rfl
  · subst hfeed; rfl
  · subst hline; rfl
  · subst hreturn; rfl
  · subst htab; rfl
  · have hhigh : hexDigit? (hexChar (c.toNat / 16)) = some (c.toNat / 16) :=
      hexDigit?_hexChar (by omega)
    have hlow : hexDigit? (hexChar (c.toNat % 16)) = some (c.toNat % 16) :=
      hexDigit?_hexChar (by omega)
    have hzero : hexDigit? '0' = some 0 := by decide
    have hcode : 4096 * 0 + 256 * 0 + 16 * (c.toNat / 16) + c.toNat % 16 = c.toNat := by omega
    simp only [List.cons_append, List.nil_append, readCodes?, hhigh, hlow, hzero,
      Option.bind_eq_bind, Option.bind_some, hcode]
    rfl
  · exact readCodes?_cons hquote hslash hcontrol rest

theorem readCodes?_flatMap (s rest : List Char) :
    readCodes? (s.flatMap escapeChar ++ '"' :: rest) = some (s.map Char.toNat, rest) := by
  induction s with
  | nil => rfl
  | cons c s ih =>
    rw [List.flatMap_cons, List.append_assoc, readCodes?_escapeChar, ih]
    rfl

/-- No character is half of a surrogate pair. -/
theorem not_surrogate (c : Char) : c.toNat < 0xD800 ∨ 0xE000 ≤ c.toNat := by
  rcases c.valid with h | h
  · exact .inl h
  · exact .inr h.1

theorem joinSurrogates?_toNat (s : List Char) : joinSurrogates? (s.map Char.toNat) = some s := by
  induction s with
  | nil => rfl
  | cons c s ih =>
    have hc := not_surrogate c
    cases s with
    | nil =>
      rw [List.map_cons, List.map_nil, joinSurrogates?, if_neg (by simp; omega), Char.ofNat_toNat]
    | cons d s =>
      rw [List.map_cons, List.map_cons, joinSurrogates?, if_neg (by simp; omega),
        if_neg (by simp; omega), ← List.map_cons, ih, Char.ofNat_toNat]
      rfl

theorem readString?_flatMap (text : String) (rest : List Char) :
    readString? (text.toList.flatMap escapeChar ++ '"' :: rest) = some (some text, rest) := by
  simp only [readString?, readCodes?_flatMap, Option.bind_eq_bind, Option.bind_some,
    joinSurrogates?_toNat, Option.map_some, String.ofList_toList]
  rfl

/-! ### Numbers -/

/-- Nothing in front goes on with a number. -/
def EndsNumber (rest : List Char) : Prop :=
  ∀ c ∈ rest.head?, c.isDigit = false ∧ c ≠ '.' ∧ c ≠ 'e' ∧ c ≠ 'E'

theorem digitsValue_toDigits (n : Nat) : digitsValue (Nat.toDigits 10 n) = n :=
  (Nat.ofDigitChars_eq_foldl ..).symm.trans Nat.ofDigitChars_ten_toDigits

/-- Only zero has a zero in front. -/
theorem head?_toDigits {n : Nat} (h : 10 ≤ n) : (Nat.toDigits 10 n).head? ≠ some '0' := by
  induction n using Nat.strongRecOn with
  | ind n ih =>
    rw [Nat.toDigits_of_base_le (by omega) h, List.head?_append]
    obtain ⟨d, r, hdigits⟩ :=
      List.exists_cons_of_ne_nil (Nat.toDigits_ne_nil (b := 10) (n := n / 10))
    rw [hdigits, List.head?_cons, Option.some_or, ← List.head?_cons (a := d) (l := r), ← hdigits]
    by_cases hsmall : n / 10 < 10
    · rw [Nat.toDigits_of_lt_base hsmall]
      have hpos : 0 < n / 10 := by omega
      generalize n / 10 = d at hsmall hpos
      revert d
      decide
    · exact ih (n / 10) (by omega) (by omega)

theorem length_toDigits_of_head? {n : Nat} (h : (Nat.toDigits 10 n).head? = some '0') :
    (Nat.toDigits 10 n).length = 1 := by
  rcases Nat.lt_or_ge n 10 with hn | hn
  · rw [Nat.toDigits_of_lt_base hn, List.length_singleton]
  · exact absurd h (head?_toDigits hn)

theorem takeWhile_isDigit {digits rest : List Char} (hdigits : ∀ c ∈ digits, c.isDigit = true)
    (hrest : EndsNumber rest) : (digits ++ rest).takeWhile Char.isDigit = digits ∧
      (digits ++ rest).dropWhile Char.isDigit = rest := by
  rw [List.takeWhile_append_of_pos hdigits, List.dropWhile_append_of_pos hdigits]
  cases rest with
  | nil => simp
  | cons c rest => simp [(hrest c rfl).1]

theorem readFraction?_eq {rest : List Char} (h : EndsNumber rest) :
    readFraction? rest = some ([], rest) := by
  unfold readFraction?
  split
  next r => exact absurd rfl (h '.' rfl).2.1
  next => rfl

theorem readExponent?_eq {rest : List Char} (h : EndsNumber rest) :
    readExponent? rest = some ([], rest) := by
  unfold readExponent?
  split
  next e r => rw [if_neg (by simp [(h e rfl).2.2])]
  next => rfl

/-- Digits are read as their number, up to what ends it. -/
theorem readNumber?_integerText (n : Int) {rest : List Char} (h : EndsNumber rest) :
    readNumber? (integerText n ++ rest) = some (.integer n, rest) := by
  obtain ⟨m, hm⟩ : ∃ m, n.natAbs = m := ⟨_, rfl⟩
  have hall : ∀ c ∈ Nat.toDigits 10 m, c.isDigit = true :=
    fun c hc => Nat.isDigit_of_mem_toDigits (by decide) (by decide) hc
  obtain ⟨htake, hdrop⟩ := takeWhile_isDigit hall h
  have hguard : ((Nat.toDigits 10 m).isEmpty || (1 < (Nat.toDigits 10 m).length &&
      (Nat.toDigits 10 m).head? = some '0')) = false := by
    have hzero := length_toDigits_of_head? (n := m)
    have hne : Nat.toDigits 10 m ≠ [] := Nat.toDigits_ne_nil
    grind
  unfold integerText readNumber?
  simp only [Text.decimal, String.toList_ofList, hm]
  by_cases hn : n < 0
  · simp only [if_pos hn, List.cons_append, htake, hdrop, hguard, digitsValue_toDigits]
    have hvalue : -(m : Int) = n := by omega
    have hne : m ≠ 0 := by omega
    simp [readFraction?_eq h, readExponent?_eq h, hvalue, hne]
  · rw [if_neg hn]
    split
    next r heq =>
      obtain ⟨d, digits, hdigits⟩ := List.exists_cons_of_ne_nil
        (Nat.toDigits_ne_nil (b := 10) (n := m))
      rw [hdigits, List.cons_append] at heq
      have hd := hall d (by simp [hdigits])
      rw [(List.cons.inj heq).1] at hd
      exact absurd hd (by decide)
    next =>
      have hvalue : (m : Int) = n := by omega
      simp only [htake, hdrop, hguard, digitsValue_toDigits]
      simp [readFraction?_eq h, readExponent?_eq h, hvalue]

/-! ### Values -/

/-- A value without decimal numbers and without ill-formed parts. -/
inductive Plain : Json → Prop
  | null : Plain .null
  | bool (b : Bool) : Plain (.bool b)
  | integer (n : Int) : Plain (.integer n)
  | string (text : String) : Plain (.string text)
  | array {items : List Json} (h : ∀ x ∈ items, Plain x) : Plain (.array items)
  | object {members : List (String × Json)} (h : ∀ m ∈ members, Plain m.2) :
      Plain (.object members)

attribute [simp] Plain.null Plain.bool Plain.integer Plain.string

@[simp] theorem plain_nat (n : Nat) : Plain (.nat n) := .integer n

@[simp] theorem plain_array {items : List Json} : Plain (.array items) ↔ ∀ x ∈ items, Plain x :=
  ⟨fun h => by cases h; assumption, .array⟩

@[simp] theorem plain_object {members : List (String × Json)} :
    Plain (.object members) ↔ ∀ m ∈ members, Plain m.2 :=
  ⟨fun h => by cases h; assumption, .object⟩

/-- A character that starts a number. -/
def StartsNumber (c : Char) : Prop := c.isDigit = true ∨ c = '-'

theorem exists_integerText (n : Int) : ∃ c s, integerText n = c :: s ∧ StartsNumber c := by
  unfold integerText
  split_ifs
  · exact ⟨'-', _, rfl, .inr rfl⟩
  · obtain ⟨d, digits, hdigits⟩ := List.exists_cons_of_ne_nil
      (Nat.toDigits_ne_nil (b := 10) (n := n.natAbs))
    refine ⟨d, digits, ?_, .inl ?_⟩
    · rw [Text.decimal, String.toList_ofList, hdigits]
    · have hd : d ∈ Nat.toDigits 10 n.natAbs := by simp [hdigits]
      exact Nat.isDigit_of_mem_toDigits (by decide) (by decide) hd

theorem StartsNumber.isGap_eq_false {c : Char} (h : StartsNumber c) : isGap c = false := by
  rcases h with h | rfl
  · by_contra hgap
    simp only [isGap, Bool.not_eq_false, Bool.or_eq_true, decide_eq_true_eq] at hgap
    rcases hgap with ((rfl | rfl) | rfl) | rfl <;> exact absurd h (by decide)
  · decide

theorem skipGaps_cons {c : Char} (h : isGap c = false) (s : List Char) :
    skipGaps (c :: s) = c :: s := by
  rw [skipGaps, List.dropWhile_cons_of_neg (by simp [h])]

theorem skipGaps_newline (level : Nat) (s : List Char) :
    skipGaps (newline level ++ s) = skipGaps s :=
  List.dropWhile_append_of_pos (by simp [newline, isGap])

theorem renderAt_array (level : Nat) (item : Json) (items : List Json) :
    renderAt level (.array (item :: items)) = '[' :: (newline (level + 1) ++
      (renderAt (level + 1) item ++
        (renderItems (level + 1) items ++ (newline level ++ [']'])))) := by
  change '[' :: newline (level + 1) ++ renderAt (level + 1) item ++
    renderItems (level + 1) items ++ newline level ++ [']'] = _
  simp only [List.cons_append, List.append_assoc]

theorem renderItems_cons (level : Nat) (item : Json) (items : List Json) :
    renderItems level (item :: items) =
      ',' :: (newline level ++ (renderAt level item ++ renderItems level items)) := by
  change ',' :: newline level ++ renderAt level item ++ renderItems level items = _
  simp only [List.cons_append, List.append_assoc]

/-- The text of a member, from its key to the end of its value. -/
def memberText (level : Nat) (m : String × Json) : List Char :=
  quote m.1 ++ ':' :: ' ' :: renderAt level m.2

theorem renderAt_object (level : Nat) (m : String × Json) (members : List (String × Json)) :
    renderAt level (.object (m :: members)) = '\x7b' :: (newline (level + 1) ++
      (memberText (level + 1) m ++ (renderMembers (level + 1) members ++
        (newline level ++ ['\x7d'])))) := by
  change '\x7b' :: newline (level + 1) ++ quote m.1 ++ [':', ' '] ++ renderAt (level + 1) m.2 ++
    renderMembers (level + 1) members ++ newline level ++ ['\x7d'] = _
  simp only [memberText, List.append_assoc, List.cons_append, List.nil_append]

theorem renderMembers_cons (level : Nat) (m : String × Json) (members : List (String × Json)) :
    renderMembers level (m :: members) =
      ',' :: (newline level ++ (memberText level m ++ renderMembers level members)) := by
  change ',' :: newline level ++ quote m.1 ++ [':', ' '] ++ renderAt level m.2 ++
    renderMembers level members = _
  simp only [memberText, List.append_assoc, List.cons_append, List.nil_append]

/-- A written value starts with a character that is neither a blank nor a closing bracket. -/
theorem Plain.exists_renderAt {v : Json} (h : Plain v) (level : Nat) :
    ∃ c s, renderAt level v = c :: s ∧ isGap c = false ∧ c ≠ ']' := by
  cases h with
  | null => exact ⟨_, _, rfl, by decide, by decide⟩
  | bool b => cases b <;> exact ⟨_, _, rfl, by decide, by decide⟩
  | integer n =>
    obtain ⟨c, s, heq, hc⟩ := exists_integerText n
    refine ⟨c, s, heq, hc.isGap_eq_false, ?_⟩
    rintro rfl
    exact absurd hc (by simp [StartsNumber])
  | string text => exact ⟨_, _, rfl, by decide, by decide⟩
  | @array items h => cases items <;> exact ⟨_, _, rfl, by decide, by decide⟩
  | @object members h => cases members <;> exact ⟨_, _, rfl, by decide, by decide⟩

/-- Blanks in front of a value do not count. -/
theorem readValue?_congr {s t : List Char} (h : skipGaps s = skipGaps t) (fuel : Nat) :
    readValue? fuel s = readValue? fuel t := by
  cases fuel with
  | zero => rfl
  | succ fuel => rw [readValue?, readValue?, h]

theorem readValue?_newline (fuel level : Nat) (s : List Char) :
    readValue? fuel (newline level ++ s) = readValue? fuel s :=
  readValue?_congr (skipGaps_newline level s) fuel

theorem readValue?_space (fuel : Nat) (s : List Char) :
    readValue? fuel (' ' :: s) = readValue? fuel s :=
  readValue?_congr (show skipGaps (' ' :: s) = skipGaps s from rfl) fuel

theorem readValue?_number {c : Char} (h : StartsNumber c) (fuel : Nat) (s : List Char) :
    readValue? (fuel + 1) (c :: s) = readNumber? (c :: s) := by
  rw [readValue?, skipGaps_cons h.isGap_eq_false]
  split
  all_goals first
    | rfl
    | next heq =>
      obtain ⟨rfl, -⟩ := List.cons.inj heq
      exact absurd h (by simp [StartsNumber])

theorem readValue?_string {s r : List Char} {text : String}
    (h : readString? s = some (some text, r)) (fuel : Nat) :
    readValue? (fuel + 1) ('"' :: s) = some (.string text, r) := by
  -- The first character decides, so the other branches of the reader are never opened.
  conv => lhs; whnf
  rw [h]

/-- What is written first tells an array with items from an empty one. -/
theorem readValue?_array {s r : List Char} {items : List Json} {fuel : Nat}
    (hs : (skipGaps s).head? ≠ some ']') (h : readItems? fuel s = some (items, r)) :
    readValue? (fuel + 1) ('[' :: s) = some (.array items, r) := by
  conv => lhs; whnf
  split
  next heq => exact absurd (congrArg List.head? heq) hs
  next =>
    rw [h]
    rfl

/-- What is written first tells an object with members from an empty one. -/
theorem readValue?_object {s r : List Char} {members : List (Option String × Json)} {fuel : Nat}
    (hs : (skipGaps s).head? ≠ some '\x7d') (h : readMembers? fuel s = some (members, r)) :
    readValue? (fuel + 1) ('\x7b' :: s) = some (objectOf members, r) := by
  conv => lhs; whnf
  split
  next heq => exact absurd (congrArg List.head? heq) hs
  next =>
    rw [h]
    rfl

/-- A value is read from its text, with fuel for each character of it. -/
def IsReadBack (v : Json) : Prop :=
  ∀ (level fuel : Nat) (rest : List Char), EndsNumber rest → (renderAt level v).length < fuel →
    readValue? fuel (renderAt level v ++ rest) = some (v, rest)

theorem endsNumber_newline (level : Nat) (s : List Char) : EndsNumber (newline level ++ s) := by
  rintro c ⟨⟩
  decide

theorem endsNumber_comma (s : List Char) : EndsNumber (',' :: s) := by
  rintro c ⟨⟩
  decide

/-- An item is read up to its end. Behind it stand a comma and more items, or the closing
bracket. -/
theorem readItems?_item {item : Json} {level fuel : Nat} {s : List Char}
    (hitem : readValue? fuel (renderAt level item ++ s) = some (item, s)) :
    (∀ r, skipGaps s = ',' :: r →
      readItems? (fuel + 1) (newline level ++ (renderAt level item ++ s)) =
        (readItems? fuel r).map fun (items, r) => (item :: items, r)) ∧
    ∀ r, skipGaps s = ']' :: r →
      readItems? (fuel + 1) (newline level ++ (renderAt level item ++ s)) = some ([item], r) := by
  rw [readItems?, readValue?_newline, hitem]
  constructor
  · intro r hs
    simp only [hs]
  · intro r hs
    simp only [hs]

/-- The items of an array are read up to its closing bracket. -/
theorem readItems?_render {items : List Json} (hitems : ∀ x ∈ items, IsReadBack x) {item : Json}
    (hitem : IsReadBack item) {level fuel : Nat} (outer : Nat) (rest : List Char)
    (hfuel : (renderAt level item).length + (renderItems level items).length + 1 < fuel) :
    readItems? fuel (newline level ++ (renderAt level item ++ (renderItems level items ++
      (newline outer ++ ']' :: rest)))) = some (item :: items, rest) := by
  induction items generalizing item fuel with
  | nil =>
    obtain _ | fuel := fuel
    · omega
    have hend : skipGaps (newline outer ++ ']' :: rest) = ']' :: rest := by
      rw [skipGaps_newline, skipGaps_cons (show isGap ']' = false by decide)]
    exact (readItems?_item (hitem level fuel _ (endsNumber_newline outer _) (by omega))).2 rest hend
  | cons next items ih =>
    obtain _ | fuel := fuel
    · omega
    rw [renderItems_cons] at hfuel ⊢
    simp only [List.length_append, List.length_cons] at hfuel
    simp only [List.cons_append, List.append_assoc]
    rw [(readItems?_item (hitem level fuel _ (endsNumber_comma _) (by omega))).1 _
      (skipGaps_cons (show isGap ',' = false by decide) _),
      ih (fun x hx => hitems x (List.mem_cons_of_mem next hx)) (hitems next List.mem_cons_self)
        (by omega)]
    rfl

/-- A member is read up to the end of its value. Behind it stand a comma and more members, or the
closing brace. -/
theorem readMembers?_memberText {m : String × Json} {level fuel : Nat} {s : List Char}
    (hm : readValue? fuel (renderAt level m.2 ++ s) = some (m.2, s)) :
    (∀ r, skipGaps s = ',' :: r →
      readMembers? (fuel + 1) (newline level ++ (memberText level m ++ s)) =
        (readMembers? fuel r).map fun (members, r) => ((some m.1, m.2) :: members, r)) ∧
    ∀ r, skipGaps s = '\x7d' :: r →
      readMembers? (fuel + 1) (newline level ++ (memberText level m ++ s)) =
        some ([(some m.1, m.2)], r) := by
  have hvalue : readValue? fuel (' ' :: (renderAt level m.2 ++ s)) = some (m.2, s) := by
    rw [readValue?_space, hm]
  rw [readMembers?, skipGaps_newline, memberText, quote]
  simp only [List.cons_append, List.append_assoc, List.nil_append]
  rw [skipGaps_cons (show isGap '"' = false by decide)]
  simp only [readString?_flatMap]
  rw [skipGaps_cons (show isGap ':' = false by decide)]
  constructor
  · intro r hs
    simp only [hvalue, hs]
  · intro r hs
    simp only [hvalue, hs]

/-- The members of an object are read up to its closing brace. -/
theorem readMembers?_render {members : List (String × Json)}
    (hmembers : ∀ m ∈ members, IsReadBack m.2) {m : String × Json} (hm : IsReadBack m.2)
    {level fuel : Nat} (outer : Nat) (rest : List Char)
    (hfuel : (memberText level m).length + (renderMembers level members).length + 1 < fuel) :
    readMembers? fuel (newline level ++ (memberText level m ++ (renderMembers level members ++
      (newline outer ++ '\x7d' :: rest)))) =
        some ((m :: members).map fun m => (some m.1, m.2), rest) := by
  induction members generalizing m fuel with
  | nil =>
    obtain _ | fuel := fuel
    · omega
    simp only [memberText, List.length_append, List.length_cons] at hfuel
    have hend : skipGaps (newline outer ++ '\x7d' :: rest) = '\x7d' :: rest := by
      rw [skipGaps_newline, skipGaps_cons (show isGap '\x7d' = false by decide)]
    exact (readMembers?_memberText
      (hm level fuel _ (endsNumber_newline outer _) (by omega))).2 rest hend
  | cons next members ih =>
    obtain _ | fuel := fuel
    · omega
    rw [renderMembers_cons] at hfuel ⊢
    simp only [List.length_append, List.length_cons] at hfuel
    have hlength : (renderAt level m.2).length ≤ (memberText level m).length := by
      simp only [memberText, List.length_append, List.length_cons]
      omega
    simp only [List.cons_append, List.append_assoc]
    rw [(readMembers?_memberText (hm level fuel _ (endsNumber_comma _) (by omega))).1 _
      (skipGaps_cons (show isGap ',' = false by decide) _),
      ih (fun x hx => hmembers x (List.mem_cons_of_mem next hx)) (hmembers next List.mem_cons_self)
        (by omega)]
    rfl

theorem objectOf_map (members : List (String × Json)) :
    objectOf (members.map fun m => (some m.1, m.2)) = .object members := by
  have hkeys : (members.map fun m => (some m.1, m.2)).mapM
      (fun (m : Option String × Json) => m.1.map fun key => (key, m.2)) = some members := by
    induction members with
    | nil => rfl
    | cons m members ih => simp [List.mapM_cons, ih]
  unfold objectOf
  rw [hkeys]

theorem isReadBack_of_succ {v : Json}
    (h : ∀ (level fuel : Nat) (rest : List Char), EndsNumber rest →
    (renderAt level v).length ≤ fuel →
    readValue? (fuel + 1) (renderAt level v ++ rest) = some (v, rest)) : IsReadBack v := by
  intro level fuel rest hrest hfuel
  obtain _ | fuel := fuel
  · omega
  · exact h level fuel rest hrest (by omega)

theorem isReadBack_integer (n : Int) : IsReadBack (.integer n) := by
  refine isReadBack_of_succ fun level fuel rest hrest hfuel => ?_
  obtain ⟨c, s, heq, hc⟩ := exists_integerText n
  have hrender : renderAt level (.integer n) = integerText n := rfl
  rw [hrender, ← readNumber?_integerText n hrest, heq, List.cons_append, readValue?_number hc]

theorem isReadBack_string (text : String) : IsReadBack (.string text) := by
  refine isReadBack_of_succ fun level fuel rest hrest hfuel => ?_
  have hrender : renderAt level (.string text) = '"' :: (text.toList.flatMap escapeChar ++ ['"']) :=
    rfl
  rw [hrender, List.cons_append, List.append_assoc, List.singleton_append]
  exact readValue?_string (readString?_flatMap text rest) fuel

theorem isReadBack_array {items : List Json} (hplain : ∀ x ∈ items, Plain x)
    (h : ∀ x ∈ items, IsReadBack x) : IsReadBack (.array items) := by
  refine isReadBack_of_succ fun level fuel rest hrest hfuel => ?_
  cases items with
  | nil => rfl
  | cons item items =>
    rw [renderAt_array] at hfuel ⊢
    simp only [List.cons_append, List.append_assoc, List.nil_append, List.length_append,
      List.length_cons] at hfuel ⊢
    refine readValue?_array ?_ (readItems?_render (fun x hx => h x (List.mem_cons_of_mem item hx))
      (h item List.mem_cons_self) level rest (by omega))
    obtain ⟨c, s, hc, hgap, hclose⟩ := (hplain item List.mem_cons_self).exists_renderAt (level + 1)
    rw [skipGaps_newline, hc, List.cons_append, skipGaps_cons hgap, List.head?_cons]
    simpa using hclose

theorem isReadBack_object {members : List (String × Json)} (h : ∀ m ∈ members, IsReadBack m.2) :
    IsReadBack (.object members) := by
  refine isReadBack_of_succ fun level fuel rest hrest hfuel => ?_
  cases members with
  | nil => rfl
  | cons m members =>
    rw [renderAt_object] at hfuel ⊢
    simp only [List.cons_append, List.append_assoc, List.nil_append, List.length_append,
      List.length_cons] at hfuel ⊢
    rw [← objectOf_map]
    refine readValue?_object ?_ (readMembers?_render
      (fun x hx => h x (List.mem_cons_of_mem m hx)) (h m List.mem_cons_self) level rest (by omega))
    have hquote : ∀ s, skipGaps (memberText (level + 1) m ++ s) = memberText (level + 1) m ++ s :=
      fun s => skipGaps_cons (by decide) _
    rw [skipGaps_newline, hquote]
    exact (by decide : some '"' ≠ some '\x7d')

/-- A value is read from its text, whatever follows that does not go on with a number. -/
theorem Plain.isReadBack {v : Json} (h : Plain v) : IsReadBack v := by
  induction h with
  | null => exact isReadBack_of_succ fun _ _ _ _ _ => rfl
  | bool b => cases b <;> exact isReadBack_of_succ fun _ _ _ _ _ => rfl
  | integer n => exact isReadBack_integer n
  | string text => exact isReadBack_string text
  | array hplain ih => exact isReadBack_array hplain ih
  | object _ ih => exact isReadBack_object ih

/-- A value without decimal numbers is read back from its text. -/
theorem Plain.parse?_render {v : Json} (h : Plain v) : parse? (render v) = some v := by
  have hread := h.isReadBack 0 ((renderAt 0 v).length + 1) [] (by rintro c ⟨⟩)
    (Nat.lt_succ_self _)
  rw [List.append_nil] at hread
  rw [render, parse?, hread]
  rfl

/-! ### Parts of a value -/

/-- The value of the only member with a key. -/
def member? (key : String) : Json → Option Json
  | .object members => Check.onlyMember? members key
  | _ => none

/-- The values of an object that has just these keys, in this order. -/
def fields? (keys : List String) : Json → Option (List Json)
  | .object members => if members.map (·.1) = keys then some (members.map (·.2)) else none
  | _ => none

def items? : Json → Option (List Json)
  | .array items => some items
  | _ => none

def text? : Json → Option String
  | .string text => some text
  | _ => none

def integer? : Json → Option Int
  | .integer n => some n
  | _ => none

def natural? : Json → Option Nat
  | .integer n => n.toNat?
  | _ => none

@[simp] theorem natural?_nat (n : Nat) : (nat n).natural? = some n := rfl

/-- If each item is read as what it was made of, so are all of them. -/
theorem mapM_map_of_eq_some {α β γ : Type} {f : α → β} {g : β → Option γ} {h : α → γ}
    (heq : ∀ x, g (f x) = some (h x)) (l : List α) : (l.map f).mapM g = some (l.map h) := by
  induction l with
  | nil => rfl
  | cons x l ih =>
    rw [List.map_cons, List.mapM_cons, heq, ih]
    rfl

end PipelineScripts.Json
