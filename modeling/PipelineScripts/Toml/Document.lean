import PipelineScripts.Toml.Scalar

/-!
# TOML documents

A document is a list of lines: headers, which open a table, and entries of the table opened last.
No table is defined twice and no key is set twice.
-/
namespace PipelineScripts.Toml

/-! ### Reading -/

/-- Drops a comment in front; `none` if it holds a control character. -/
def skipComment? (s : List Char) : Option (List Char) :=
  match s with
  | '#' :: r =>
    let text := r.takeWhile fun c => c ≠ '\n' && c ≠ '\r'
    if text.any isControl then none else some (r.drop text.length)
  | _ => some s

/-- Passes over blanks, comments and line breaks. -/
def skipGaps? : Nat → List Char → Option (List Char)
  | 0, s => some s
  | fuel + 1, s =>
    match skipComment? (skipBlanks s) with
    | none => none
    | some s =>
      match newline? s with
      | some r => skipGaps? fuel r
      | none => some s

def isBareKeyChar (c : Char) : Bool := c.isAlphanum || c = '_' || c = '-'

/-- Reads a key without dots. -/
def readSimpleKey? (s : List Char) : Option (String × List Char) :=
  match s with
  | '"' :: _ | '\'' :: _ => (readLineString? s).map fun (text, r) => (String.ofList text, r)
  | _ =>
    let text := s.takeWhile isBareKeyChar
    if text.isEmpty then none else some (String.ofList text, s.drop text.length)

/-- The largest depth of nested arrays and tables in braces, and the largest number of parts of a
key. -/
def maxDepth : Nat := 80

/-- Reads at most so many parts of a key, with dots between them, and the blanks after them. -/
def readKeyParts? : Nat → List Char → Option (List String × List Char)
  | 0, _ => none
  | limit + 1, s =>
    match readSimpleKey? (skipBlanks s) with
    | none => none
    | some (part, r) =>
      match skipBlanks r with
      | '.' :: r => (readKeyParts? limit r).map fun (parts, r) => (part :: parts, r)
      | r => some ([part], r)

/-- Reads a key with dots between its parts, and the blanks after it. -/
def readKey? (s : List Char) : Option (List String × List Char) := readKeyParts? maxDepth s

/-- Sets a dotted key in a table in braces. Tables made by dotted keys may be extended. -/
def setInline? : Entries → List String → Value → Option Entries
  | _, [], _ => none
  | entries, [key], value =>
    if (entries.lookup key).isSome then none else some (entries.set key value)
  | entries, key :: rest, value =>
    match entries.lookup key with
    | none => (setInline? [] rest value).map fun inner => entries.set key (.table .dotted inner)
    | some (.table .dotted inner) =>
      (setInline? inner rest value).map fun inner => entries.set key (.table .dotted inner)
    | some _ => none

/-- Reads a key of a table in braces and the `=` after it, up to the value. -/
def readKeyAndEquals? (s : List Char) : Option (List String × List Char) := do
  let (key, r) ← readKey? s
  match ← skipGaps? (r.length + 1) r with
  | '=' :: r => return (key, ← skipGaps? (r.length + 1) r)
  | _ => none

mutual

/-- Reads a value. -/
def readValue? : Nat → Nat → List Char → Option (Value × List Char)
  | 0, _, _ => none
  | fuel + 1, depth, s =>
    match s with
    | '"' :: _ | '\'' :: _ =>
      (readString? s).map fun (text, r) => (.string (String.ofList text), r)
    | '[' :: r =>
      if depth = maxDepth then none
      else (readItems? fuel (depth + 1) r).map fun (items, r) => (.array items, r)
    | '\x7b' :: r =>
      if depth = maxDepth then none
      else (readMembers? fuel (depth + 1) [] r).map fun (entries, r) => (.inlineTable entries, r)
    | _ =>
      let text := scalarText s
      (scalar? text).map fun value => (value, s.drop text.length)

/-- Reads the items of an array up to its end. -/
def readItems? : Nat → Nat → List Char → Option (List Value × List Char)
  | 0, _, _ => none
  | fuel + 1, depth, s =>
    match skipGaps? (s.length + 1) s with
    | none => none
    | some (']' :: r) => some ([], r)
    | some s =>
      match readValue? fuel depth s with
      | none => none
      | some (item, r) =>
        match skipGaps? (r.length + 1) r with
        | some (',' :: r) => (readItems? fuel depth r).map fun (items, r) => (item :: items, r)
        | some (']' :: r) => some ([item], r)
        | _ => none

/-- Reads the entries of a table in braces up to its end. Line breaks and comments may stand
anywhere but inside a key. -/
def readMembers? : Nat → Nat → Entries → List Char → Option (Entries × List Char)
  | 0, _, _, _ => none
  | fuel + 1, depth, entries, s =>
    match skipGaps? (s.length + 1) s with
    | none => none
    | some ('\x7d' :: r) => some (entries, r)
    | some s =>
      match readKeyAndEquals? s with
      | none => none
      | some (key, r) =>
        match readValue? fuel depth r with
        | none => none
        | some (value, r) =>
          match setInline? entries key value, skipGaps? (r.length + 1) r with
          | some entries, some (',' :: r) => readMembers? fuel depth entries r
          | some entries, some ('\x7d' :: r) => some (entries, r)
          | _, _ => none

end

/-- A line of a document. -/
inductive Line
  | header (key : List String)
  | arrayHeader (key : List String)
  | entry (key : List String) (value : Value)
deriving Repr

/-- Reads a header or an entry. -/
def readLine? (s : List Char) : Option (Line × List Char) := do
  match s with
  | '[' :: '[' :: r =>
    let (key, r) ← readKey? r
    match r with
    | ']' :: ']' :: r => some (.arrayHeader key, r)
    | _ => none
  | '[' :: r =>
    let (key, r) ← readKey? r
    match r with
    | ']' :: r => some (.header key, r)
    | _ => none
  | _ =>
    let (key, r) ← readKey? s
    match r with
    | '=' :: r =>
      let r := skipBlanks r
      let (value, r) ← readValue? (r.length + 1) 0 r
      some (.entry key value, r)
    | _ => none

/-- Reads the lines of a document. Each ends with a line break or with the text. -/
def readLines? : Nat → List Char → Option (List Line)
  | 0, _ => none
  | fuel + 1, s =>
    match skipGaps? (s.length + 1) s with
    | none => none
    | some [] => some []
    | some s =>
      match readLine? s with
      | none => none
      | some (line, r) =>
        match skipComment? (skipBlanks r) with
        | none => none
        | some [] => some [line]
        | some r =>
          match newline? r with
          | none => none
          | some r => (readLines? fuel r).map (line :: ·)

/-! ### Tables -/

/-- Changes the table at a path. Tables on the way that do not exist are made; of an array of
tables the last is meant. -/
def modifyAt? (change : Entries → Option Entries) : Entries → List String → Option Entries
  | entries, [] => change entries
  | entries, key :: rest =>
    match entries.lookup key with
    | none =>
      (modifyAt? change [] rest).map fun inner => entries.set key (.table .implied inner)
    | some (.table origin inner) =>
      (modifyAt? change inner rest).map fun inner => entries.set key (.table origin inner)
    | some (.tables (last :: others)) =>
      (modifyAt? change last rest).map fun last => entries.set key (.tables (last :: others))
    | some _ => none

/-- Opens a table. One that a longer header implied may still be opened. -/
def openTable? (key : String) (entries : Entries) : Option Entries :=
  match entries.lookup key with
  | none => some (entries.set key (.table .explicit []))
  | some (.table .implied inner) => some (entries.set key (.table .explicit inner))
  | some _ => none

/-- Adds a table to an array of tables. -/
def pushTable? (key : String) (entries : Entries) : Option Entries :=
  match entries.lookup key with
  | none => some (entries.set key (.tables [[]]))
  | some (.tables items) => some (entries.set key (.tables ([] :: items)))
  | some _ => none

/-- Sets a dotted key in a table that came to be in some way. The table the last part belongs to
is one that dotted keys made, if there are more parts; those before it have no header of their
own. -/
def setKeyIn? (origin : Origin) : Entries → List String → Value → Option Entries
  | _, [], _ => none
  | entries, [key], value =>
    if origin ≠ .dotted || (entries.lookup key).isSome then none else some (entries.set key value)
  | entries, key :: rest, value =>
    match entries.lookup key with
    | none =>
      (setKeyIn? .dotted [] rest value).map fun inner => entries.set key (.table .dotted inner)
    | some (.table .explicit _) => none
    | some (.table origin inner) =>
      (setKeyIn? origin inner rest value).map fun inner => entries.set key (.table origin inner)
    | some (.tables (last :: others)) =>
      (setKeyIn? .explicit last rest value).map fun last =>
        entries.set key (.tables (last :: others))
    | some _ => none

/-- Sets a key, with or without dots, in the table of a header. -/
def setKey? (entries : Entries) (key : List String) (value : Value) : Option Entries :=
  match key with
  | [only] => if (entries.lookup only).isSome then none else some (entries.set only value)
  | _ => setKeyIn? .explicit entries key value

/-- The document read so far, and the table its entries belong to. -/
structure Building where
  root : Entries := []
  current : List String := []

/-- Adds a line. -/
def Building.add? (b : Building) : Line → Option Building
  | .header key =>
    (modifyAt? (openTable? (key.getLastD "")) b.root key.dropLast).map fun root => ⟨root, key⟩
  | .arrayHeader key =>
    (modifyAt? (pushTable? (key.getLastD "")) b.root key.dropLast).map fun root => ⟨root, key⟩
  | .entry key value =>
    (modifyAt? (fun entries => setKey? entries key value) b.root b.current).map fun root =>
      { b with root }

/-- Reads a document. A byte order mark in front is dropped. -/
def parse? (source : List Char) : Option Entries := do
  let source := match source with
    | '\ufeff' :: r => r
    | s => s
  let lines ← readLines? (source.length + 1) source
  let b ← lines.foldlM Building.add? {}
  return b.root

end PipelineScripts.Toml
