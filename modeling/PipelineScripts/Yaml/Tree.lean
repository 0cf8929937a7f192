import PipelineScripts.Text.Alphanumeric
import PipelineScripts.Text.Decimal
import PipelineScripts.Yaml.Event
import PipelineScripts.Yaml.Node

/-!
# From events to trees

Events carry values and positions, but neither the names of anchors and tags nor the body of a
block scalar as written nor comments. Those are looked up in the source around each event.
-/
namespace PipelineScripts.Yaml

open Text

/-- A character of an alias name as the source is searched for it. -/
def isAliasNameChar (c : Char) : Bool := !isBlank c && !isFlowChar c

/-- The alias at or next to an offset, on the same line: the offset of its `*` and its name. -/
def aliasAt? (source : List Char) (offset : Nat) : Option (Nat × List Char) := do
  let before := (source.take offset).reverse
  let after := source.drop offset
  let here := min offset source.length
  let star ←
    if after.head? = some '*' then some here
    else
      match (before.takeWhile (· != '\n')).findIdx? (· == '*') with
      | some i => some (here - 1 - i)
      | none => ((after.takeWhile (· != '\n')).findIdx? (· == '*')).map (here + ·)
  let name := (source.drop (star + 1)).takeWhile isAliasNameChar
  if name.isEmpty then none else some (star, name)

/-- The path of the value of a key. A key of other characters than letters, digits, `_` and `-` is
quoted. -/
def childPath (parent key : String) : String :=
  let plain := key.toList.all fun c => isAlphanumeric c || c = '_' || c = '-'
  if key ≠ "" && plain then parent ++ "." ++ key else parent ++ ".'" ++ key ++ "'"

/-- The path of an item of a sequence. -/
def itemPath (parent : String) (index : Nat) : String := parent ++ "[" ++ decimal index ++ "]"

/-- The number of spaces in front. -/
def leadingSpaces (line : List Char) : Nat := (line.takeWhile (· == ' ')).length

/-- Whether a line ends with a block scalar header such as `|`, `>-` or `|2`. -/
def endsWithHeader (indicator : Char) (line : List Char) : Bool :=
  match splitLast? indicator (trimEnd (codePart line)) with
  | none => false
  | some (before, modifiers) =>
    modifiers.all (fun c => c.isDigit || c = '+' || c = '-') &&
      before.getLast?.all (fun c => isBlank c || c = ':' || c = '-')

/-- The anchor and the tag written in a piece of source; of several the last. -/
def findProperties (region : List Char) : Option String × Option String :=
  let words := (lines region).flatMap fun line =>
    split (fun c => isBlank c || c = ',' || c = '[' || c = '\x7b') (codePart line)
  let anchors := words.filterMap fun
    | '&' :: c :: name => some (String.ofList (c :: name))
    | _ => none
  let tags := words.filterMap fun
    | '!' :: tag => some (String.ofList ('!' :: tag))
    | _ => none
  (anchors.getLast?, tags.getLast?)

/-- The body of a block scalar in the lines below its header: the lines less deep than `header`
end it, and so does one less deep than its first. Blank lines at the end do not belong to it. -/
def bodyLines (header : Nat) (indent : Option Nat) : List (List Char) → List (List Char)
  | [] => []
  | line :: rest =>
    if isAllBlank line then
      match bodyLines header indent rest with
      | [] => []
      | body => [] :: body
    else
      let depth := leadingSpaces line
      let required := indent.getD depth
      if depth ≤ header || depth < required then []
      else line.drop required :: bodyLines header (some required) rest

/-- What a tree is built from. -/
structure TreeSource where
  text : List Char
  lines : Array (List Char)
  /-- Scalars that stand for aliases, by their offset. -/
  aliases : List (Nat × String)
deriving Repr

namespace TreeSource

/-- A line, counted from one. -/
def line? (s : TreeSource) (n : Nat) : Option (List Char) :=
  if n = 0 then none else s.lines[n - 1]?

/-- The line of a block scalar's header: the nearest of the content's line and the three above
that ends with one, or else the content's line. -/
def headerLine (s : TreeSource) (indicator : Char) (start : Nat) : Nat :=
  let candidates := ((List.range 4).filter (· < start)).map (start - ·)
  (candidates.find? fun n => (s.line? n).any (endsWithHeader indicator)).getD start

/-- A block scalar's header line and body lines. -/
def blockBody (s : TreeSource) (span : Span) (indicator : Char) : Nat × List (List Char) :=
  let header := s.headerLine indicator (max span.start.line 1)
  let depth := ((s.line? header).map leadingSpaces).getD 0
  (header, bodyLines depth none (s.lines.toList.drop header))

/-- The text of body lines. Each line is ended by a line break. -/
def rawText (body : List (List Char)) : List Char := body.flatMap (· ++ ['\n'])

end TreeSource

/-- A tree being built. -/
structure TreeBuilder where
  events : List Event
  /-- Where the events read so far end. -/
  stop : Nat := 0
  nodes : Array Node := #[]
  /-- The lines that hold text of scalars. -/
  content : List LineRange := []
deriving Repr

namespace TreeBuilder

/-- Passes over an event. -/
def next (b : TreeBuilder) (length : Nat) : TreeBuilder :=
  match b.events with
  | [] => b
  | e :: rest => { b with events := rest, stop := max b.stop (min e.span.stop.index length) }

/-- Adds a node. -/
def push (b : TreeBuilder) (kind : NodeKind) (position : Position) (path : String) :
    NodeId × TreeBuilder :=
  (b.nodes.size, { b with nodes := b.nodes.push { kind, position, path } })

def addContent (b : TreeBuilder) (first last : Nat) : TreeBuilder :=
  { b with content := ⟨first, last⟩ :: b.content }

/-- Adds a scalar. A block scalar stands on the line of its header. -/
def pushScalar (s : TreeSource) (b : TreeBuilder) (form : ScalarForm) (text : List Char)
    (span : Span) (path : String) : NodeId × TreeBuilder :=
  let value := String.ofList text
  let position := span.start.position
  let block := fun (folded : Bool) =>
    let (header, body) := s.blockBody span (if folded then '>' else '|')
    let raw := String.ofList (TreeSource.rawText body)
    (b.addContent (header + 1) (header + body.length)).push (.block folded value raw)
      { position with line := header } path
  let quoted := fun (style : ScalarStyle) =>
    (b.addContent (span.start.line + 1) span.stop.line).push (.scalar value style) position path
  match form with
  | .plain => b.push (.scalar value .plain) position path
  | .single => quoted .single
  | .double => quoted .double
  | .literal => block false
  | .folded => block true

/-- Wraps a node in the tag and the anchor written between two offsets. -/
def wrap (s : TreeSource) (b : TreeBuilder) (id : NodeId) (p : Properties) (from_ to_ : Nat)
    (position : Position) (path : String) : NodeId × TreeBuilder :=
  if p.anchor = 0 && !p.tagged then (id, b)
  else
    let (anchor, tag) := findProperties ((s.text.drop from_).take (to_ - from_))
    let (id, b) :=
      match tag with
      | some tag => if p.tagged then b.push (.tagged tag id) position path else (id, b)
      | none => (id, b)
    match anchor with
    | some name => if p.anchor ≠ 0 then b.push (.anchor name id) position path else (id, b)
    | none => (id, b)

/-- The text of a key, as it is used in paths. -/
def keyText (b : TreeBuilder) (id : NodeId) : String :=
  (File.scalarText? { name := "", sources := [], nodes := b.nodes } id).getD ""

def positionOf (b : TreeBuilder) (id : NodeId) : Position :=
  ((b.nodes[id]?).map (·.position)).getD ⟨0, 0⟩

mutual

/-- Builds the node at the front of the events. -/
def node? (s : TreeSource) : Nat → TreeBuilder → String → Option (NodeId × TreeBuilder)
  | 0, _, _ => none
  | fuel + 1, b, path =>
    match b.events with
    | [] => none
    | e :: _ =>
      let length := s.text.length
      let from_ := b.stop
      let start := min e.span.start.index length
      let position := e.span.start.position
      let b := b.next length
      match e.kind with
      | .aliasOf _ =>
        let name := ((aliasAt? s.text start).map (·.2)).getD []
        some (b.push (.aliasOf (String.ofList name)) position path)
      | .scalar form text p =>
        match s.aliases.lookup start with
        | some name => some (b.push (.aliasOf name) position path)
        | none =>
          let (id, b) := pushScalar s b form text e.span path
          some (wrap s b id p from_ start position path)
      | .sequenceStart p =>
        match items? s fuel b path 0 with
        | none => none
        | some (items, b) =>
          let (id, b) := b.push (.sequence items (items.map fun _ => [])) position path
          some (wrap s b id p from_ start position path)
      | .mappingStart p =>
        match entries? s fuel b path with
        | none => none
        | some (entries, b) =>
          let (id, b) := b.push (.mapping entries) position path
          some (wrap s b id p from_ start position path)
      | _ => none

/-- Builds the items of a sequence up to its end. -/
def items? (s : TreeSource) :
    Nat → TreeBuilder → String → Nat → Option (List NodeId × TreeBuilder)
  | 0, _, _, _ => none
  | fuel + 1, b, path, index =>
    match b.events with
    | [] => none
    | e :: _ =>
      if e.kind = .sequenceEnd then some ([], b.next s.text.length)
      else
        match node? s fuel b (itemPath path index) with
        | none => none
        | some (item, b) =>
          match items? s fuel b path (index + 1) with
          | none => none
          | some (items, b) => some (item :: items, b)

/-- Builds the entries of a mapping up to its end. -/
def entries? (s : TreeSource) : Nat → TreeBuilder → String → Option (List NodeId × TreeBuilder)
  | 0, _, _ => none
  | fuel + 1, b, path =>
    match b.events with
    | [] => none
    | e :: _ =>
      if e.kind = .mappingEnd then some ([], b.next s.text.length)
      else
        match node? s fuel b path with
        | none => none
        | some (key, b) =>
          let valuePath := childPath path (b.keyText key)
          match node? s fuel b valuePath with
          | none => none
          | some (value, b) =>
            let (entry, b) := b.push (.entry key value []) (b.positionOf key) valuePath
            match entries? s fuel b path with
            | none => none
            | some (entries, b) => some (entry :: entries, b)

end

/-- Builds the documents of a stream. -/
def documents? (s : TreeSource) : Nat → TreeBuilder → Option (List (Option NodeId) × TreeBuilder)
  | 0, _ => none
  | fuel + 1, b =>
    match b.events with
    | [] => some ([], b)
    | e :: _ =>
      let b := b.next s.text.length
      match e.kind with
      | .streamEnd => some ([], b)
      | .documentStart =>
        let root :=
          match b.events.head?.map (·.kind) with
          | none | some .documentEnd | some .streamEnd => some (none, b)
          | some _ => (node? s (2 * b.events.length + 2) b "$").map fun (id, b) => (some id, b)
        match root with
        | none => none
        | some (root, b) =>
          match documents? s fuel b with
          | none => none
          | some (documents, b) => some (root :: documents, b)
      | _ => documents? s fuel b

/-- Attaches the comments to mapping entries and sequence items, each by the line it starts on. -/
def attachComments (nodes : Array Node) (comments : SourceComments) : Array Node :=
  let lineOf := fun (id : NodeId) => ((nodes[id]?).map (·.position.line)).getD 0
  nodes.map fun node =>
    match node.kind with
    | .entry key value _ =>
      { node with kind := .entry key value (comments.groupFor node.position.line) }
    | .sequence items _ =>
      { node with kind := .sequence items (items.map fun i => comments.groupFor (lineOf i)) }
    | _ => node

end TreeBuilder

/-- Builds the trees of a source from its events. -/
def File.ofEvents? (name : String) (source : List Char) (events : List Event)
    (aliases : List (Nat × String)) : Option File := do
  let sourceLines := lines source
  let s : TreeSource := ⟨source, sourceLines.toArray, aliases⟩
  let (documents, b) ← TreeBuilder.documents? s (events.length + 1) { events }
  let nodes := TreeBuilder.attachComments b.nodes (SourceComments.find sourceLines b.content)
  return ⟨name, [name], documents, nodes⟩

end PipelineScripts.Yaml
