/-!
# TOML values
-/
namespace PipelineScripts.Toml

/-- How a table came to be. -/
inductive Origin
  /-- By its own header, or as a value in braces. -/
  | explicit
  /-- As a part of the header of another table. -/
  | implied
  /-- By a dotted key. -/
  | dotted
deriving DecidableEq, Repr

/-- A TOML value. Of numbers and times only the kind is kept. -/
inductive Value
  | string (text : String)
  | bool (value : Bool)
  /-- A number. One that is too large or whose digits are not of its base has no value, which
  matters only where it is looked at. -/
  | number (hasValue : Bool)
  | moment
  | array (items : List Value)
  /-- A table in braces. It is complete and cannot be extended. -/
  | inlineTable (entries : List (String × Value))
  | table (origin : Origin) (entries : List (String × Value))
  /-- An array of tables, each with a header of its own, the last in front. -/
  | tables (items : List (List (String × Value)))
deriving Repr

/-- The entries of a table, in the order of their keys in the text. -/
abbrev Entries := List (String × Value)

namespace Entries

/-- Replaces the value of a key, or adds one at the end. -/
def set (entries : Entries) (key : String) (value : Value) : Entries :=
  match entries with
  | [] => [(key, value)]
  | (k, v) :: rest => if k = key then (key, value) :: rest else (k, v) :: set rest key value

end Entries

mutual

/-- Whether all numbers in a value have values. -/
def Value.isReadable : Value → Bool
  | .number hasValue => hasValue
  | .array items => itemsReadable items
  | .inlineTable entries | .table _ entries => entriesReadable entries
  | .tables items => tablesReadable items
  | _ => true

/-- Whether all numbers in some values have values. -/
def itemsReadable : List Value → Bool
  | [] => true
  | item :: items => item.isReadable && itemsReadable items

/-- Whether all numbers in the entries of a table have values. -/
def entriesReadable : List (String × Value) → Bool
  | [] => true
  | (_, value) :: entries => value.isReadable && entriesReadable entries

/-- Whether all numbers in some tables have values. -/
def tablesReadable : List (List (String × Value)) → Bool
  | [] => true
  | entries :: tables => entriesReadable entries && tablesReadable tables

end

end PipelineScripts.Toml
