import PipelineScripts.Proofs.DistinctNames
import PipelineScripts.Rendering.CodeQuality

/-!
# What a fingerprint is made of

A fingerprint hashes the texts that identify a report, each with a zero byte behind it. The bytes of
a character other than NUL are not zero, so a text without NUL ends at the first zero byte, and the
bytes as a whole tell where one text ends and the next one starts.
-/
namespace PipelineScripts.Text

/-! ### Bytes of texts -/

theorem toList_loop_eq (b : ByteArray) (i : Nat) (r : List UInt8) :
    ByteArray.toList.loop b i r = r.reverse ++ b.data.toList.drop i := by
  fun_induction ByteArray.toList.loop b i r with
  | case1 i r hi ih =>
    have hlt : i < b.data.toList.length := by simpa using hi
    have hget : b.get! i = b.data.toList[i] := getElem!_pos b.data i hi
    rw [ih, List.drop_eq_getElem_cons hlt, hget, List.reverse_cons, List.append_assoc]
    rfl
  | case2 i r hi =>
    rw [List.drop_eq_nil_of_le (by simpa using hi), List.append_nil]

theorem toList_toUTF8 (s : String) : s.toUTF8.toList = s.toList.flatMap String.utf8EncodeChar := by
  conv_lhs => rw [← String.ofList_toList (s := s)]
  rw [ByteArray.toList, toList_loop_eq, String.toUTF8, String.toByteArray_ofList]
  exact List.toList_data_toByteArray

/-- A text is known by its bytes. -/
theorem toList_toUTF8_injective : Function.Injective fun s : String => s.toUTF8.toList := by
  intro s t h
  dsimp only at h
  rw [ByteArray.toList, ByteArray.toList, toList_loop_eq, toList_loop_eq] at h
  exact String.toByteArray_inj.mp (ByteArray.ext (Array.toList_inj.mp h))

/-- Only NUL has a zero among its bytes: the first byte of a longer form is 192 or more, and all
others are 128 or more. -/
theorem zero_mem_utf8EncodeChar {c : Char} : 0 ∈ String.utf8EncodeChar c ↔ c = '\x00' := by
  constructor
  · intro h
    have hzero : ∀ n : Nat, 0 = UInt8.ofNat n → n % 256 = 0 := by
      intro n hn
      simpa using (congrArg UInt8.toNat hn).symm
    unfold String.utf8EncodeChar at h
    extract_lets v at h
    have hv : v = 0 := by
      split_ifs at h
      all_goals simp only [List.mem_cons, List.not_mem_nil, or_false] at h
      · have hbyte := hzero _ h
        omega
      · rcases h with h | h <;> have hbyte := hzero _ h <;> omega
      · rcases h with h | h | h <;> have hbyte := hzero _ h <;> omega
      · rcases h with h | h | h | h <;> have hbyte := hzero _ h <;> omega
    exact Char.toNat_inj.mp hv
  · rintro rfl
    decide

theorem zero_mem_toUTF8 {s : String} : 0 ∈ s.toUTF8.toList ↔ '\x00' ∈ s.toList := by
  rw [toList_toUTF8, List.mem_flatMap]
  simp [zero_mem_utf8EncodeChar]

theorem nul_not_mem_decimal (n : Nat) : '\x00' ∉ (decimal n).toList := by
  intro h
  rw [decimal, String.toList_ofList] at h
  exact absurd (Nat.isDigit_of_mem_toDigits (by decide) (by decide) h) (by decide)

/-! ### Texts one behind the other -/

/-- The bytes of texts, each with a zero behind it. -/
def terminated (texts : List String) : List UInt8 :=
  texts.flatMap fun text => text.toUTF8.toList ++ [0]

theorem terminated_cons (text : String) (rest : List String) :
    terminated (text :: rest) = text.toUTF8.toList ++ 0 :: terminated rest := by
  simp [terminated]

/-- What stands in front of the first of two equal items is the same. -/
theorem front_inj {α : Type} {a : α} {front front' back back' : List α} (h : a ∉ front)
    (h' : a ∉ front') (heq : front ++ a :: back = front' ++ a :: back') :
    front = front' ∧ back = back' := by
  rcases List.append_eq_append_iff.mp heq with ⟨more, rfl, hback⟩ | ⟨more, rfl, hback⟩
  · cases more with
    | nil => simpa using hback
    | cons b more =>
      obtain ⟨rfl, -⟩ := List.cons.inj hback
      simp at h'
  · cases more with
    | nil => simpa using hback.symm
    | cons b more =>
      obtain ⟨rfl, -⟩ := List.cons.inj hback
      simp at h

/-- Texts without NUL are told by their bytes, however many there are. -/
theorem terminated_inj {texts texts' : List String} (h : ∀ text ∈ texts, '\x00' ∉ text.toList)
    (h' : ∀ text ∈ texts', '\x00' ∉ text.toList) :
    terminated texts = terminated texts' ↔ texts = texts' := by
  refine ⟨fun heq => ?_, fun heq => heq ▸ rfl⟩
  induction texts generalizing texts' with
  | nil =>
    cases texts' with
    | nil => rfl
    | cons text rest => simp [terminated] at heq
  | cons text rest ih =>
    cases texts' with
    | nil => simp [terminated] at heq
    | cons text' rest' =>
      obtain ⟨htext, hrest⟩ := List.forall_mem_cons.mp h
      obtain ⟨htext', hrest'⟩ := List.forall_mem_cons.mp h'
      -- The first zero byte ends the first text on both sides.
      rw [terminated_cons, terminated_cons] at heq
      obtain ⟨hfirst, hothers⟩ :=
        front_inj (mt zero_mem_toUTF8.mp htext) (mt zero_mem_toUTF8.mp htext') heq
      rw [toList_toUTF8_injective hfirst, ih hrest hrest' hothers]

end PipelineScripts.Text

namespace PipelineScripts.Blake3

/-- Two inputs that differ have one hash. -/
def Collision (a b : List UInt8) : Prop := a ≠ b ∧ hexHash a = hexHash b

instance (a b : List UInt8) : Decidable (Collision a b) :=
  inferInstanceAs (Decidable (a ≠ b ∧ hexHash a = hexHash b))

end PipelineScripts.Blake3

namespace PipelineScripts.Rendering

open Check

/-- Two reports tell of the same finding at the same place. -/
structure SameFinding (r r' : Report) : Prop where
  file : r.file = r'.file
  path : r.path = r'.path
  line : r.line = r'.line
  reason : r.reason = r'.reason
  message : r.message = r'.message

/-- No text that identifies a report has a NUL in it. -/
structure NulFree (r : Report) : Prop where
  file : '\x00' ∉ r.file.toList
  path : '\x00' ∉ r.path.toList
  reason : '\x00' ∉ r.reason.toList
  message : '\x00' ∉ r.message.toList

theorem identity_eq_iff {r r' : Report} : identity r = identity r' ↔ SameFinding r r' := by
  simp only [identity, List.cons.injEq, and_true, Text.decimal_injective.eq_iff]
  exact ⟨fun ⟨hfile, hpath, hline, hreason, hmessage⟩ => ⟨hfile, hpath, hline, hreason, hmessage⟩,
    fun ⟨hfile, hpath, hline, hreason, hmessage⟩ => ⟨hfile, hpath, hline, hreason, hmessage⟩⟩

theorem NulFree.identity {r : Report} (h : NulFree r) :
    ∀ text ∈ identity r, '\x00' ∉ text.toList := by
  simp only [Rendering.identity, List.forall_mem_cons]
  exact ⟨h.file, h.path, Text.nul_not_mem_decimal r.line, h.reason, h.message, by simp⟩

/-- The bytes that are hashed are the same just for the same finding, so two findings have one
fingerprint only where the hash function has a collision. -/
theorem identity_bytes_tell_findings {r r' : Report} (hr : NulFree r) (hr' : NulFree r') :
    (identityBytes r = identityBytes r' ↔ SameFinding r r') ∧
      (fingerprint r = fingerprint r' ↔
        SameFinding r r' ∨ Blake3.Collision (identityBytes r) (identityBytes r')) := by
  have hbytes : identityBytes r = identityBytes r' ↔ SameFinding r r' :=
    (Text.terminated_inj hr.identity hr'.identity).trans identity_eq_iff
  refine ⟨hbytes, ?_⟩
  rw [← hbytes, Blake3.Collision, fingerprint, fingerprint]
  constructor
  · intro hhash
    by_cases hsame : identityBytes r = identityBytes r'
    · exact .inl hsame
    · exact .inr ⟨hsame, hhash⟩
  · rintro (hsame | ⟨-, hhash⟩)
    · rw [hsame]
    · exact hhash

/-- A report whose line and reason read as those of `laterReport` where nothing stands between. -/
def earlyReport : Report where
  file := "ci.yml"
  path := "$.job.script"
  level := .info
  line := 1
  column := 1
  endColumn := 1
  reason := "2SC"
  message := "m"
  sourceLine := none

/-- The report of `earlyReport` on another line. -/
def laterReport : Report := { earlyReport with line := 12, reason := "SC" }

/-- A NUL in a text reads as the end of it, and the texts are no longer told apart. -/
example : identityBytes { earlyReport with file := "a\x00b", path := "c" } =
    identityBytes { earlyReport with file := "a", path := "b\x00c" } := by decide +kernel

/-- The zero between the line and the reason tells the two apart. -/
theorem earlyReport_told_from_laterReport :
    String.join (identity earlyReport) = String.join (identity laterReport) ∧
      NulFree earlyReport ∧ NulFree laterReport ∧
      identityBytes earlyReport ≠ identityBytes laterReport ∧
      fingerprint earlyReport ≠ fingerprint laterReport := by
  have hearly : NulFree earlyReport := ⟨by decide, by decide, by decide, by decide⟩
  have hlater : NulFree laterReport := ⟨by decide, by decide, by decide, by decide⟩
  have hother : ¬ SameFinding earlyReport laterReport := fun h => absurd h.line (by decide)
  have hcollision : ¬ Blake3.Collision (identityBytes earlyReport) (identityBytes laterReport) := by
    decide +kernel
  obtain ⟨hbytes, hhash⟩ := identity_bytes_tell_findings hearly hlater
  refine ⟨by decide, hearly, hlater, mt hbytes.mp hother, fun h => ?_⟩
  rcases hhash.mp h with hsame | hsame
  · exact hother hsame
  · exact hcollision hsame

end PipelineScripts.Rendering
