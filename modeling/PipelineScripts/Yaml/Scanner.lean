import PipelineScripts.Yaml.Token
import PipelineScripts.Yaml.Tag
import PipelineScripts.Yaml.Scalar.Plain
import PipelineScripts.Yaml.Scalar.Block

/-!
# From text to tokens

Block structure is made explicit: where the indentation grows a block starts, where it shrinks
blocks end. A mapping key without `?` is found only at its `:`, so a token that may start one is
held back until the question is settled, and the key token is put in front of it then.

`Scanner.step?` reads one token, with those it implies, and fails on an error. `scan` lists the
tokens in the order in which they are settled: an error ends the list, and the tokens settled before
it stay readable.
-/
namespace PipelineScripts.Yaml

/-- A place where a key without `?` may have started. -/
structure SimpleKey where
  mark : Mark := {}
  possible : Bool := false
  /-- The enclosing block requires a key here. -/
  required : Bool := false
  /-- The number of the token at this place. -/
  number : Nat := 0
deriving DecidableEq, Repr

/-- A level of indentation to return to. `block` tells whether a block collection ends with it. -/
structure IndentLevel where
  indent : Int
  block : Bool
deriving DecidableEq, Repr

/-- What a scanner knows. Stacks have their top in front. -/
structure Scanner where
  cursor : Cursor
  /-- Tokens not yet handed out. -/
  queue : List Token := []
  /-- The number of tokens handed out. -/
  emitted : Nat := 0
  started : Bool := false
  /-- The index at which a `:` needs no blank after it, since a quoted key or a collection ends
  there. -/
  adjacentValueAt : Nat := 0
  keyAllowed : Bool := false
  /-- Possible keys, one for each open flow collection and one for the block around them. -/
  keys : List SimpleKey := []
  /-- The column of the innermost block collection; -1 outside any. -/
  indent : Int := -1
  levels : List IndentLevel := []
  flowLevel : Nat := 0
  /-- A flow mapping was opened, or a `?` was read in a flow collection. -/
  flowMapping : Bool := false
  /-- For each open flow sequence, whether a single pair is open in it. -/
  pairs : List Bool := []
deriving DecidableEq, Repr

namespace Scanner

def inFlow (s : Scanner) : Bool := s.flowLevel != 0

def column (s : Scanner) : Nat := s.cursor.mark.column

def push (s : Scanner) (kind : TokenKind) (span : Span) : Scanner :=
  { s with queue := s.queue ++ [⟨kind, span⟩] }

/-- Puts a token in front of the one with the given number. -/
def insertAt (s : Scanner) (number : Nat) (kind : TokenKind) (mark : Mark) : Scanner :=
  let at_ := number - s.emitted
  { s with queue := s.queue.take at_ ++ ⟨kind, mark.span⟩ :: s.queue.drop at_ }

/-- Pushes a token from `start` to where the cursor stands. -/
def pushFrom (s : Scanner) (kind : TokenKind) (start : Mark) : Scanner :=
  s.push kind ⟨start, s.cursor.mark⟩

/-! ### Indentation -/

/-- Ends the blocks right of a column. -/
def unroll (s : Scanner) (column : Int) : Scanner :=
  if s.inFlow then s else go s s.levels
where
  go (s : Scanner) : List IndentLevel → Scanner
    | [] => s
    | level :: rest =>
      if s.indent ≤ column then s
      else
        let s := { s with indent := level.indent, levels := rest }
        go (if level.block then s.push .blockEnd s.cursor.mark.span else s) rest

/-- Starts a block collection at a column right of the innermost one. The token goes in front of
the one with the given number, or to the end. -/
def roll (s : Scanner) (column : Nat) (number : Option Nat) (kind : TokenKind) (mark : Mark) :
    Scanner :=
  if s.inFlow then s
  else
    let s :=
      match s.levels with
      | level :: rest =>
        if s.indent ≤ (column : Int) && !level.block then
          { s with indent := level.indent, levels := rest }
        else s
      | [] => s
    if s.indent < (column : Int) then
      let s := { s with levels := ⟨s.indent, true⟩ :: s.levels, indent := column }
      match number with
      | some n => s.insertAt n kind mark
      | none => s.push kind mark.span
    else s

/-- Raises the least column by one inside a block collection. -/
def rollOne (s : Scanner) : Scanner :=
  match s.levels with
  | level :: _ =>
    if !s.inFlow && level.block then
      { s with levels := ⟨s.indent, false⟩ :: s.levels, indent := s.indent + 1 }
    else s
  | [] => s

/-- Takes back what `rollOne` raised. -/
def unrollOnes (s : Scanner) : Scanner := go s s.levels
where
  go (s : Scanner) : List IndentLevel → Scanner
    | [] => s
    | level :: rest =>
      if level.block then s else go { s with indent := level.indent, levels := rest } rest

/-! ### Simple keys -/

/-- Notes that a key may start here. -/
def saveKey (s : Scanner) : Scanner :=
  if !s.keyAllowed then s
  else
    let required := !s.inFlow && s.indent == s.column &&
      (match s.levels with
        | level :: _ => level.block
        | [] => false)
    match s.keys with
    | _ :: rest =>
      let key := ⟨s.cursor.mark, true, required, s.emitted + s.queue.length⟩
      { s with keys := key :: rest }
    | [] => s

/-- Gives up the innermost possible key. -/
def removeKey? (s : Scanner) : Option Scanner :=
  match s.keys with
  | key :: rest =>
    if key.possible && key.required then none
    else some { s with keys := { key with possible := false } :: rest }
  | [] => some s

/-- Gives up a key that would span lines or more than 1024 characters. -/
def staleKey? (s : Scanner) (key : SimpleKey) : Option SimpleKey :=
  if key.possible && !s.inFlow &&
      (key.mark.line < s.cursor.mark.line || key.mark.index + 1024 < s.cursor.mark.index) then
    if key.required then none else some { key with possible := false }
  else some key

/-- Gives up the keys that can be none any more. -/
def staleKeys? (s : Scanner) : Option Scanner := do
  let keys ← s.keys.mapM s.staleKey?
  return { s with keys }

/-! ### Tokens -/

/-- Passes over blanks, line breaks and comments. -/
def skipToToken? : Nat → Scanner → Option Scanner
  | 0, s => some s
  | fuel + 1, s =>
    let c := s.cursor
    if c.peek = '\t' && !s.levels.isEmpty && c.leading && s.column < s.indent then
      match c.skipBlanks? with
      | some b =>
        if isLineEnd b.cursor.peek then skipToToken? fuel { s with cursor := b.cursor } else none
      | none => none
    else if isSpaceOrTab c.peek then skipToToken? fuel { s with cursor := c.skip 1 }
    else if isBreak c.peek then
      skipToToken? fuel { s with cursor := c.skipBreak, keyAllowed := s.keyAllowed || !s.inFlow }
    else if c.peek = '#' then skipToToken? fuel { s with cursor := c.skipLine }
    else some s

/-- Passes over blanks and a comment. -/
def skipBlanks? (s : Scanner) : Option Scanner :=
  s.cursor.skipBlanks?.map fun b => { s with cursor := b.cursor }

def streamStart (s : Scanner) : Scanner :=
  let s := s.push .streamStart s.cursor.mark.span
  { s with started := true, keyAllowed := true, keys := {} :: s.keys }

/-- The end of the text stands on a line of its own. -/
def streamEnd? (s : Scanner) : Option Scanner := do
  let mark := s.cursor.mark
  let mark := if mark.column = 0 then mark else { mark with line := mark.line + 1, column := 0 }
  let s := { s with cursor := { s.cursor with mark } }
  if s.keys.any fun k => k.required && k.possible then none
  let s := { s with keys := s.keys.map fun (k : SimpleKey) => { k with possible := false } }
  let s ← (s.unroll (-1)).removeKey?
  return { s with keyAllowed := false }.push .streamEnd s.cursor.mark.span

def documentIndicator? (s : Scanner) (kind : TokenKind) : Option Scanner := do
  let s ← (s.unroll (-1)).removeKey?
  let start := s.cursor.mark
  return { s with keyAllowed := false, cursor := s.cursor.pass 3 }.pushFrom kind start

def documentEnd? (s : Scanner) : Option Scanner := do
  let s ← s.documentIndicator? .documentEnd
  let s ← s.skipBlanks?
  if isLineEnd s.cursor.peek then some s else none

/-- Reads the name and the value of a directive. -/
def readDirective? (c : Cursor) : Option (TokenKind × Cursor) := do
  let name := c.rest.takeWhile isWordChar
  let c := c.skip name.length
  if name.isEmpty || !isGap c.peek then none
  if name = "YAML".toList then
    let c ← skipVersion? c
    return (.versionDirective, c)
  else if name = "TAG".toList then
    let (handle, c) ← readTagDirective? c
    return (.tagDirective handle, c)
  else return (.tagDirective [], c.skipLine)

def directive? (s : Scanner) : Option Scanner := do
  let s ← (s.unroll (-1)).removeKey?
  let start := s.cursor.mark
  let (kind, c) ← readDirective? (s.cursor.pass 1)
  let after ← c.skipBlanks?
  if !isLineEnd after.cursor.peek then none
  let s := s.push kind ⟨start, c.mark⟩
  return { s with keyAllowed := false, cursor := after.cursor.skipBreak }

/-- The largest depth of nested flow collections. -/
def maxFlowLevel : Nat := 255

def flowStart? (s : Scanner) (mapping : Bool) : Option Scanner := do
  let start := s.cursor.mark
  let s := s.saveKey.rollOne
  if s.flowLevel = maxFlowLevel then none
  let s :=
    { s with
      keys := {} :: s.keys, flowLevel := s.flowLevel + 1, keyAllowed := true
      cursor := s.cursor.pass 1 }
  let s := if mapping then { s with flowMapping := true } else { s with pairs := false :: s.pairs }
  let s ← s.skipBlanks?
  return s.pushFrom (if mapping then .flowMappingStart else .flowSequenceStart) start

/-- Ends the single pair that is open in the innermost flow sequence. Mappings inside the pair do
not count: a `,` in one of them ends the pair too. -/
def endPair (s : Scanner) : Scanner :=
  match s.pairs with
  | true :: rest =>
    { s with flowMapping := false, pairs := false :: rest }.push .flowMappingEnd s.cursor.mark.span
  | _ => s

/-- Leaves a flow collection, if one is open. -/
def leaveFlow (s : Scanner) : Scanner :=
  if s.inFlow then { s with keys := s.keys.drop 1, flowLevel := s.flowLevel - 1 } else s

/-- A closing bracket. One that closes nothing is a token too: whether it may stand there is not
decided here. -/
def flowEnd? (s : Scanner) (mapping : Bool) : Option Scanner := do
  let s ← s.removeKey?
  let s := { s.leaveFlow with keyAllowed := false }
  let s :=
    if mapping then s
    else
      let s := s.endPair
      { s with pairs := s.pairs.drop 1 }
  let start := s.cursor.mark
  let s := { s with cursor := s.cursor.pass 1 }
  let s ← s.skipBlanks?
  let s := if s.inFlow then { s with adjacentValueAt := s.cursor.mark.index } else s
  return s.pushFrom (if mapping then .flowMappingEnd else .flowSequenceEnd) start

def flowEntry? (s : Scanner) : Option Scanner := do
  let s ← s.removeKey?
  let s := { s with keyAllowed := true }.endPair
  let start := s.cursor.mark
  let s ← { s with cursor := s.cursor.pass 1 }.skipBlanks?
  return s.pushFrom .flowEntry start

/-- Whether the last token is an anchor or a tag in the first column. -/
def afterFirstColumnProperty (s : Scanner) : Bool :=
  match s.queue.getLast? with
  | some ⟨.anchor _, span⟩ | some ⟨.tag _, span⟩ => span.start.column = 0
  | _ => false

def blockEntry? (s : Scanner) : Option Scanner := do
  if s.inFlow || !s.keyAllowed then none
  if s.column = 0 && -1 < s.indent && s.afterFirstColumnProperty then none
  let start := s.cursor.mark
  let s := { s with cursor := s.cursor.pass 1 }.roll start.column none .blockSequenceStart start
  let blanks ← s.cursor.skipBlanks?
  let s := { s with cursor := blanks.cursor }
  let next := s.cursor.peek
  if blanks.tabs && next = '-' && isGap (s.cursor.peekAt 1) then none
  let s := if isBreak next || isFlowChar next then s.rollOne else s
  let s ← s.removeKey?
  return { s with keyAllowed := true }.push .blockEntry s.cursor.mark.span

/-- Passes over the blanks, line breaks and comments after a `?`. -/
def skipAfterKey : Nat → Scanner → Scanner
  | 0, s => s
  | fuel + 1, s =>
    let c := s.cursor
    if c.peek = ' ' then skipAfterKey fuel { s with cursor := c.skip 1 }
    else if isBreak c.peek then
      skipAfterKey fuel { s with cursor := c.skipBreak, keyAllowed := s.keyAllowed || !s.inFlow }
    else if c.peek = '#' then skipAfterKey fuel { s with cursor := c.skipLine }
    else s

def key? (s : Scanner) : Option Scanner := do
  let start := s.cursor.mark
  if !s.inFlow && !s.keyAllowed then none
  let s :=
    if s.inFlow then { s with flowMapping := true }
    else s.roll start.column none .blockMappingStart start
  let s ← s.removeKey?
  let s := { s with keyAllowed := !s.inFlow, cursor := s.cursor.pass 1 }
  if s.cursor.peek ≠ ' ' && !isBreak s.cursor.peek then none
  let s := s.skipAfterKey (s.cursor.rest.length + 1)
  if s.cursor.peek = '\t' then none
  return s.pushFrom .key start

/-- Whether tabs without a space stand between a `:` and what looks like its value. -/
def tabbedValue? (c : Cursor) : Option (Cursor × Bool) :=
  if c.peek = '\t' then
    c.skipBlanks?.map fun b =>
      (b.cursor, !b.spaces && (b.cursor.peek = '-' || isWordChar b.cursor.peek))
  else some (c, false)

/-- The value of a key noted earlier. -/
def valueOfKey? (s : Scanner) (key : SimpleKey) (pair : Bool) (start : Mark) : Option Scanner := do
  let s := s.insertAt key.number .key key.mark
  if pair && key.mark.line < start.line then none
  let s := if pair then s.insertAt key.number .flowMappingStart key.mark else s
  let s := s.roll key.mark.column (some key.number) .blockMappingStart key.mark
  let s := s.rollOne
  return { s with keys := { key with possible := false } :: s.keys.drop 1, keyAllowed := false }

/-- A value without a key, or with one after `?`. -/
def valueAlone? (s : Scanner) (pair : Bool) (start : Mark) : Option Scanner := do
  let s := if pair then s.push .flowMappingStart start.span else s
  if !s.inFlow && !s.keyAllowed then none
  let s := if s.inFlow then s else s.roll start.column none .blockMappingStart start
  let s := s.rollOne
  return { s with keyAllowed := !s.inFlow }

def value? (s : Scanner) : Option Scanner := do
  let start := s.cursor.mark
  let pair := !s.pairs.isEmpty && !s.flowMapping
  let s := if pair then { s with pairs := true :: s.pairs.drop 1 } else s
  let (c, tabbed) ← tabbedValue? (s.cursor.pass 1)
  if tabbed then none
  let s := { s with cursor := c }
  let key := s.keys.headD {}
  let s ← if key.possible then s.valueOfKey? key pair start else s.valueAlone? pair start
  return s.push .value start.span

/-- A `:` in a flow collection with no blank after it. -/
def flowValue? (s : Scanner) : Option Scanner :=
  let next := s.cursor.peekAt 1
  if s.cursor.mark.index ≠ s.adjacentValueAt && (next = '[' || next = '\x7b') then none
  else s.value?

def anchor? (s : Scanner) (isAlias : Bool) : Option Scanner :=
  let start := s.cursor.mark
  let s := { s.saveKey with keyAllowed := false }
  let c := s.cursor.pass 1
  let name := c.rest.takeWhile isAnchorNameChar
  if name.isEmpty then none
  else
    let s := { s with cursor := c.pass name.length }
    some (s.pushFrom (if isAlias then .aliasOf name else .anchor name) start)

def tag? (s : Scanner) : Option Scanner := do
  let start := s.cursor.mark
  let s := { s.saveKey with keyAllowed := false }
  let (handle, c) ← readTag? s.inFlow s.cursor
  return { s with cursor := c }.pushFrom (.tag handle) start

def blockScalar? (s : Scanner) (folded : Bool) : Option Scanner := do
  let s := { s.saveKey with keyAllowed := true }.unrollOnes
  let b ← readBlock? folded s.indent s.cursor
  let kind := .scalar (if folded then .folded else .literal) b.text
  return { s with cursor := b.cursor }.pushFrom kind b.start

def quotedScalar? (s : Scanner) (single : Bool) : Option Scanner := do
  let start := s.cursor.mark
  let s := { s.saveKey with keyAllowed := false }
  let q ← readQuoted? single s.inFlow s.indent s.cursor
  let token : Token :=
    ⟨.scalar (if single then .single else .double) q.text.reverse, ⟨start, q.cursor.mark⟩⟩
  let s ← skipToToken? (q.cursor.rest.length + 1) { s with cursor := q.cursor }
  return { s with adjacentValueAt := s.cursor.mark.index, queue := s.queue ++ [token] }

def plainScalar? (s : Scanner) : Option Scanner := do
  let start := s.cursor.mark
  let s := { s.saveKey with keyAllowed := false }.unrollOnes
  let p ← readPlain? s.inFlow (s.indent + 1) s.cursor
  let s := { s with cursor := p.cursor, keyAllowed := s.keyAllowed || p.cursor.leading }
  return s.push (.scalar .plain p.text.reverse) ⟨start, p.stop⟩

/-- Reads the token the cursor stands at, inside a document. -/
def contentToken? (s : Scanner) : Option Scanner :=
  let c := s.cursor.peek
  let next := s.cursor.peekAt 1
  if s.column < s.indent then none
  else if c = '[' then s.flowStart? false
  else if c = '\x7b' then s.flowStart? true
  else if c = ']' then s.flowEnd? false
  else if c = '\x7d' then s.flowEnd? true
  else if c = ',' then s.flowEntry?
  else if c = '-' && isGap next then s.blockEntry?
  else if c = '?' && isGap next then s.key?
  else if c = ':' && isGap next then s.value?
  else if c = ':' && s.inFlow &&
      (isFlowChar next || s.cursor.mark.index = s.adjacentValueAt) then s.flowValue?
  else if c = '*' then s.anchor? true
  else if c = '&' then s.anchor? false
  else if c = '!' then s.tag?
  else if c = '|' && !s.inFlow then s.blockScalar? false
  else if c = '>' && !s.inFlow then s.blockScalar? true
  else if c = '\'' then s.quotedScalar? true
  else if c = '"' then s.quotedScalar? false
  else if c = '%' || c = '@' || c = '\x60' then none
  else s.plainScalar?

/-- Reads one token, with those it implies. -/
def step? (s : Scanner) : Option Scanner := do
  if !s.started then return s.streamStart
  let s ← skipToToken? (s.cursor.rest.length + 1) s
  let s ← s.staleKeys?
  let s := s.unroll s.column
  if isEnd s.cursor.peek then s.streamEnd?
  else if s.column = 0 && s.cursor.peek = '%' then s.directive?
  else if s.column = 0 && s.cursor.atDocumentStart then s.documentIndicator? .documentStart
  else if s.column = 0 && s.cursor.atDocumentEnd then s.documentEnd?
  else s.contentToken?

/-- Reads on until the first token in the queue is settled. -/
def settle? : Nat → Scanner → Option Scanner
  | 0, s => some s
  | fuel + 1, s =>
    if s.queue.isEmpty then s.step?.bind (settle? fuel)
    else
      match s.staleKeys? with
      | none => none
      | some s =>
        if s.keys.any fun k => k.possible && k.number == s.emitted then
          s.step?.bind (settle? fuel)
        else some s

/-- Lists the tokens. -/
def tokens : Nat → Scanner → TokenStream
  | 0, _ => ⟨[], false⟩
  | fuel + 1, s =>
    match settle? (s.cursor.rest.length + 3) s with
    | none => ⟨[], false⟩
    | some s =>
      match s.queue with
      | [] => ⟨[], false⟩
      | token :: queue =>
        if token.kind = .streamEnd then ⟨[token], true⟩
        else
          let stream := tokens fuel { s with queue, emitted := s.emitted + 1 }
          { stream with tokens := token :: stream.tokens }

end Scanner

/-- The tokens of a text. No character makes more than six. -/
def scan (source : List Char) : TokenStream :=
  Scanner.tokens (6 * source.length + 8) { cursor := { rest := source } }

end PipelineScripts.Yaml
