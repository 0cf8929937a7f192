import PipelineScripts.Text.Blank
import PipelineScripts.Text.Lines

/-!
# Comment directives

A comment that starts with `scriptcheck` sets options of the script it stands at:
`# scriptcheck shell=bash disable=SC2086,SC2046`. The options are a map from keys to values; a key
written without a value has the empty one.
-/
namespace PipelineScripts.Script

open Text

/-- Options of a script. The keys ascend, so equal maps are equal values. -/
structure Directive where
  entries : List (String × String) := []
  ascending : entries.Pairwise (·.1 < ·.1) := by exact List.Pairwise.nil
deriving DecidableEq, Repr

namespace Directive

/-- The word that starts a directive comment. -/
def marker : String := "scriptcheck"

/-- Sets a key in an ascending list of entries. -/
def setEntry (key value : String) : List (String × String) → List (String × String)
  | [] => [(key, value)]
  | e :: rest =>
    if key < e.1 then (key, value) :: e :: rest
    else if key = e.1 then (key, value) :: rest
    else e :: setEntry key value rest

theorem mem_setEntry_fst {key value : String} {entries : List (String × String)}
    {e : String × String} (h : e ∈ setEntry key value entries) :
    e.1 = key ∨ ∃ d ∈ entries, d.1 = e.1 := by
  induction entries with
  | nil => simp_all [setEntry]
  | cons d rest ih =>
    simp only [setEntry] at h
    split at h
    · rcases List.mem_cons.1 h with rfl | h
      · exact .inl rfl
      · exact .inr ⟨e, h, rfl⟩
    · split at h
      · rcases List.mem_cons.1 h with rfl | h
        · exact .inl rfl
        · exact .inr ⟨e, List.mem_cons_of_mem _ h, rfl⟩
      · rcases List.mem_cons.1 h with rfl | h
        · exact .inr ⟨e, List.mem_cons_self, rfl⟩
        · rcases ih h with h | ⟨x, hx, hxe⟩
          · exact .inl h
          · exact .inr ⟨x, List.mem_cons_of_mem _ hx, hxe⟩

theorem ascending_setEntry (key value : String) {entries : List (String × String)}
    (h : entries.Pairwise (·.1 < ·.1)) : (setEntry key value entries).Pairwise (·.1 < ·.1) := by
  induction entries with
  | nil => simp [setEntry]
  | cons d rest ih =>
    obtain ⟨hd, hrest⟩ := List.pairwise_cons.1 h
    simp only [setEntry]
    split
    · next hlt =>
      refine List.pairwise_cons.2 ⟨?_, h⟩
      intro e he
      rcases List.mem_cons.1 he with rfl | he
      · exact hlt
      · exact String.lt_trans hlt (hd e he)
    · next hnlt =>
      split
      · next heq => exact List.pairwise_cons.2 ⟨fun e he => heq ▸ hd e he, hrest⟩
      · next hne =>
        refine List.pairwise_cons.2 ⟨?_, ih hrest⟩
        intro e he
        rcases mem_setEntry_fst he with heq | ⟨x, hx, hxe⟩
        · exact heq ▸ Std.lt_of_le_of_ne (String.not_lt.1 hnlt) (Ne.symm hne)
        · exact hxe ▸ hd x hx

/-- No options. -/
def empty : Directive := {}

/-- Sets a key; the last write of a key wins. -/
def set (d : Directive) (key value : String) : Directive :=
  ⟨setEntry key value d.entries, ascending_setEntry key value d.ascending⟩

/-- The value of a key. -/
def get? (d : Directive) (key : String) : Option String := d.entries.lookup key

def isEmpty (d : Directive) : Bool := d.entries.isEmpty

/-- The key and value of one word; without `=` the whole word is the key. -/
def readEntry (word : List Char) : String × String :=
  match splitOnce? '=' word with
  | some (key, value) => (String.ofList key, String.ofList value)
  | none => (String.ofList word, "")

/-- Reads the words of a directive. The marker in front is optional. -/
def parse (text : String) : Directive :=
  let data := trim text.toList
  let data := (marker.toList.isPrefixOf? data).getD data
  let words := (split (· == ' ') data).filter (!·.isEmpty)
  (words.map readEntry).foldl (fun d (key, value) => d.set key value) empty

/-- The directive of the first comment text that starts with the marker. -/
def ofComments? (texts : List String) : Option Directive :=
  let trimmed := texts.map fun t => String.ofList (trim t.toList)
  (trimmed.find? fun t => marker.toList.isPrefixOf t.toList).map parse

/-- The shell, or the empty text if none is set. -/
def shell (d : Directive) : String := (d.get? "shell").getD ""

/-- The rule codes in a `disable` value, in the order written. -/
def readRules (value : String) : List String :=
  (((split (· == ',') value.toList).map trim).filter (!·.isEmpty)).map String.ofList

/-- The rules to ignore, in the order written. -/
def disabledRules (d : Directive) : List String :=
  match d.get? "disable" with
  | some value => readRules value
  | none => []

/-- The rules of the first list, then those of the second not yet listed. -/
def unionRules (rules more : List String) : List String :=
  more.foldl (fun acc r => if acc.contains r then acc else acc ++ [r]) rules

/-- Combines a directive with a more specific one. Specific values win, but an empty `shell` does
not count, and the disabled rules are united. -/
def merge (d specific : Directive) : Directive :=
  let values := specific.entries.filter fun (key, value) => !(key == "shell" && value == "")
  let merged := values.foldl (fun d (key, value) => d.set key value) d
  if (d.get? "disable").isSome || (specific.get? "disable").isSome then
    merged.set "disable" (joinStrings "," (unionRules d.disabledRules specific.disabledRules))
  else merged

/-- Combines an optional directive with an optional more specific one. -/
def combine : Option Directive → Option Directive → Option Directive
  | some d, some e => some (d.merge e)
  | some d, none => some d
  | none, e => e

end Directive

end PipelineScripts.Script
