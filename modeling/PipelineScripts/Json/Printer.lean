import PipelineScripts.Json.Value
import PipelineScripts.Text.Decimal

/-!
# Writing JSON

Two spaces for each level, one item or member a line, `[]` for an empty array.
-/
namespace PipelineScripts.Json

/-- A digit of a hexadecimal number in small letters. -/
def hexChar (n : Nat) : Char := Char.ofNat (if n < 10 then 48 + n else 87 + n)

/-- A character inside a string. Quotes, backslashes and control characters are escaped. -/
def escapeChar (c : Char) : List Char :=
  if c = '"' then ['\\', '"']
  else if c = '\\' then ['\\', '\\']
  else if c = '\x08' then ['\\', 'b']
  else if c = '\x0c' then ['\\', 'f']
  else if c = '\n' then ['\\', 'n']
  else if c = '\r' then ['\\', 'r']
  else if c = '\t' then ['\\', 't']
  else if c.toNat < 0x20 then
    ['\\', 'u', '0', '0', hexChar (c.toNat / 16), hexChar (c.toNat % 16)]
  else [c]

/-- A string with its quotes. -/
def quote (text : String) : List Char := '"' :: text.toList.flatMap escapeChar ++ ['"']

/-- An integer in decimal digits. -/
def integerText (n : Int) : List Char :=
  if n < 0 then '-' :: (Text.decimal n.natAbs).toList else (Text.decimal n.natAbs).toList

/-- A line break and the blanks of a level. -/
def newline (level : Nat) : List Char := '\n' :: List.replicate (2 * level) ' '

mutual

/-- Writes a value at a level. -/
def renderAt (level : Nat) : Json → List Char
  | .null => "null".toList
  | .bool true => "true".toList
  | .bool false => "false".toList
  | .integer n => integerText n
  | .decimal text => text.toList
  | .string text => quote text
  | .array [] => "[]".toList
  | .array (item :: items) =>
    '[' :: newline (level + 1) ++ renderAt (level + 1) item ++ renderItems (level + 1) items
      ++ newline level ++ [']']
  | .object [] => ['\x7b', '\x7d']
  | .object ((key, value) :: members) =>
    '\x7b' :: newline (level + 1) ++ quote key ++ [':', ' '] ++ renderAt (level + 1) value
      ++ renderMembers (level + 1) members ++ newline level ++ ['\x7d']
  | .illFormed => "null".toList

/-- Writes the items after the first, each with a comma before it. -/
def renderItems (level : Nat) : List Json → List Char
  | [] => []
  | item :: items =>
    ',' :: newline level ++ renderAt level item ++ renderItems level items

/-- Writes the members after the first, each with a comma before it. -/
def renderMembers (level : Nat) : List (String × Json) → List Char
  | [] => []
  | (key, value) :: members =>
    ',' :: newline level ++ quote key ++ [':', ' '] ++ renderAt level value
      ++ renderMembers level members

end

/-- Writes a value. -/
def render (value : Json) : List Char := renderAt 0 value

end PipelineScripts.Json
