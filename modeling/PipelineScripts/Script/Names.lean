import PipelineScripts.Text.Decimal

/-!
# Block names

Names that are unique within one file.
-/
namespace PipelineScripts.Script

open Text

/-- The names handed out so far, latest first. -/
structure BlockNames where
  taken : List String := []
deriving DecidableEq, Repr

namespace BlockNames

/-- A base name with a number behind it. -/
def suffixed (base : String) (n : Nat) : String := base ++ "_" ++ decimal n

/-- The first of the suffixed names from `index` on that is free. One of the first
`taken.length + 1` is. Numbers are words of 64 bits, and the largest is followed by zero. -/
def freeSuffixed (names : BlockNames) (base : String) (index : Nat) : String :=
  let candidates := (List.range (names.taken.length + 1)).map fun k =>
    suffixed base ((index + k) % wordSize)
  (candidates.find? fun c => !names.taken.contains c).getD base

/-- Hands out `base` if it is free, else the first free suffixed name from `index` on. -/
def reserve (names : BlockNames) (base : String) (index : Nat) : String × BlockNames :=
  let name := if names.taken.contains base then names.freeSuffixed base index else base
  (name, ⟨name :: names.taken⟩)

/-- Hands out names for a list of requests in order. -/
def reserveAll (names : BlockNames) : List (String × Nat) → List String × BlockNames
  | [] => ([], names)
  | (base, index) :: rest =>
    let (name, names) := names.reserve base index
    let (others, names) := names.reserveAll rest
    (name :: others, names)

end BlockNames

/-- The base name of the `i`-th fragment of a section. -/
def fragmentName (base : String) (i : Nat) : String :=
  if i = 0 then base else BlockNames.suffixed base i

end PipelineScripts.Script
