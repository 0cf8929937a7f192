import PipelineScripts.Yaml.Scanner

/-!
# YAML events

The structure of a stream, as a sequence of starts, ends and leaves. `Event.read` reads a text; it
fails at a syntax error or at an alias whose anchor was not defined before it, whichever comes
first.
-/
namespace PipelineScripts.Yaml

/-- The properties of a node: the number of its anchor, zero for none, and whether it has a tag. -/
structure Properties where
  anchor : Nat := 0
  tagged : Bool := false
deriving DecidableEq, Repr

/-- What an event is. -/
inductive EventKind
  | streamStart
  | streamEnd
  | documentStart
  | documentEnd
  /-- An alias of the anchor with a number. -/
  | aliasOf (anchor : Nat)
  | scalar (form : ScalarForm) (text : List Char) (properties : Properties)
  | sequenceStart (properties : Properties)
  | sequenceEnd
  | mappingStart (properties : Properties)
  | mappingEnd
deriving DecidableEq, Repr

/-- An event and where it stands. -/
structure Event where
  kind : EventKind
  span : Span
deriving DecidableEq, Repr

/-- Why a text cannot be read. -/
inductive Fault
  | malformed
  /-- An alias at a mark names no anchor defined before it. -/
  | unknownAnchor (mark : Mark)
deriving DecidableEq, Repr

/-- A node that is not written. -/
def missing (span : Span) : Event := ⟨.scalar .plain ['~'] {}, span⟩

/-- What a reader of tokens expects next. -/
inductive Expectation
  | streamStart
  | implicitDocument
  | explicitDocument
  | documentContent
  | documentEnd
  | blockNode
  | blockSequence (first : Bool)
  | indentlessSequence
  | blockKey (first : Bool)
  | blockValue
  | flowSequence (first : Bool)
  | pairKey
  | pairValue
  | pairEnd (span : Span)
  | flowKey (first : Bool)
  | flowValue
  | flowValueMissing
  | done
deriving DecidableEq, Repr

/-- A reader of tokens. -/
structure EventReader where
  tokens : List Token
  state : Expectation := .streamStart
  /-- What to go on with after the current node. -/
  stack : List Expectation := []
  /-- The anchors defined so far, latest first; the `n`-th defined has number `n`. -/
  anchors : List (List Char) := []
  /-- The declared tag handle. -/
  handle : Option (List Char) := none
deriving DecidableEq, Repr

namespace EventReader

/-- One event, or why there is none. -/
abbrev Step := Except Fault (Event × EventReader)

/-- The next token. Where the tokens end early, the text cannot be read on. -/
def peek (r : EventReader) : Except Fault Token :=
  match r.tokens with
  | t :: _ => .ok t
  | [] => .error .malformed

def skip (r : EventReader) : EventReader := { r with tokens := r.tokens.drop 1 }

def emit (r : EventReader) (kind : EventKind) (span : Span) : Step := .ok (⟨kind, span⟩, r)

def emitMissing (r : EventReader) (span : Span) : Step := .ok (missing span, r)

def expect (r : EventReader) (state : Expectation) : EventReader := { r with state }

/-- Goes on with what was put aside last. -/
def resume (r : EventReader) : EventReader :=
  { r with state := r.stack.headD .done, stack := r.stack.drop 1 }

def putAside (r : EventReader) (state : Expectation) : EventReader :=
  { r with stack := state :: r.stack }

/-- Defines an anchor; the result is its number. -/
def define (r : EventReader) (name : List Char) : Nat × EventReader :=
  (r.anchors.length + 1, { r with anchors := name :: r.anchors })

/-- The number of the last anchor with a name. -/
def anchorNumber? (r : EventReader) (name : List Char) : Option Nat :=
  (r.anchors.findIdx? (· == name)).map (r.anchors.length - ·)

/-- Whether a tag's handle is known. -/
def knowsHandle (r : EventReader) (handle : List Char) : Bool :=
  handle = ['!', '!'] || !isClosedHandle handle || r.handle = some handle

/-- Reads the anchor and the tag of a node, in either order. -/
def properties (r : EventReader) : Except Fault (Properties × EventReader) := do
  match (← r.peek).kind with
  | .anchor name =>
    let (n, r) := r.skip.define name
    match (← r.peek).kind with
    | .tag handle => if r.knowsHandle handle then .ok (⟨n, true⟩, r.skip) else .error .malformed
    | _ => .ok (⟨n, false⟩, r)
  | .tag handle =>
    if !r.knowsHandle handle then .error .malformed
    else
      let r := r.skip
      match (← r.peek).kind with
      | .anchor name =>
        let (n, r) := r.skip.define name
        .ok (⟨n, true⟩, r)
      | _ => .ok (⟨0, true⟩, r)
  | _ => .ok ({}, r)

/-- Reads the start of a node. In a block context block collections may start, and as the value of
a key a sequence without indentation of its own. -/
def node (r : EventReader) (block indentless : Bool) : Step := do
  let t ← r.peek
  match t.kind with
  | .aliasOf name =>
    match r.anchorNumber? name with
    | some n => r.resume.skip.emit (.aliasOf n) t.span
    | none => .error (.unknownAnchor t.span.start)
  | _ =>
    let (p, r) ← r.properties
    let t ← r.peek
    match t.kind with
    | .scalar form text => r.resume.skip.emit (.scalar form text p) t.span
    | .flowSequenceStart => (r.expect (.flowSequence true)).emit (.sequenceStart p) t.span
    | .flowMappingStart => (r.expect (.flowKey true)).emit (.mappingStart p) t.span
    | kind =>
      if kind = .blockEntry && indentless then
        (r.expect .indentlessSequence).emit (.sequenceStart p) t.span
      else if kind = .blockSequenceStart && block then
        (r.expect (.blockSequence true)).emit (.sequenceStart p) t.span
      else if kind = .blockMappingStart && block then
        (r.expect (.blockKey true)).emit (.mappingStart p) t.span
      else if p.tagged || p.anchor ≠ 0 then
        r.resume.emit (.scalar .plain [] p) t.span
      else .error .malformed

/-- Reads the directives before a document; of the tag handles only the last is kept. -/
def directives : Nat → Bool → EventReader → Except Fault EventReader
  | 0, _, r => .ok r
  | fuel + 1, versionSeen, r => do
    match (← r.peek).kind with
    | .versionDirective =>
      if versionSeen then .error .malformed
      else directives fuel true { r.skip with handle := none }
    | .tagDirective handle => directives fuel versionSeen { r.skip with handle := some handle }
    | _ => .ok r

def explicitDocument (r : EventReader) : Step := do
  let r ← directives (r.tokens.length + 1) false r
  let t ← r.peek
  if t.kind = .documentStart then
    ((r.putAside .documentEnd).expect .documentContent).skip.emit .documentStart t.span
  else .error .malformed

/-- Reads the start of a document, or the end of the stream. -/
def document (r : EventReader) (implicit : Bool) : Step := do
  let r := { r with tokens := r.tokens.dropWhile (·.kind == TokenKind.documentEnd) }
  let t ← r.peek
  match t.kind with
  | .streamEnd => (r.expect .done).skip.emit .streamEnd t.span
  | .versionDirective | .tagDirective _ | .documentStart => r.explicitDocument
  | _ =>
    if implicit then ((r.putAside .documentEnd).expect .blockNode).emit .documentStart t.span
    else .error .malformed

def documentContent (r : EventReader) : Step := do
  let t ← r.peek
  match t.kind with
  | .versionDirective | .tagDirective _ | .documentStart | .documentEnd | .streamEnd =>
    r.resume.emitMissing t.span
  | _ => r.node true false

def documentEnd (r : EventReader) : Step := do
  let t ← r.peek
  let r := { r with handle := none }
  match t.kind with
  | .documentEnd => (r.expect .implicitDocument).skip.emit .documentEnd t.span
  | .versionDirective | .tagDirective _ => .error .malformed
  | _ => (r.expect .explicitDocument).emit .documentEnd t.span

def blockSequence (r : EventReader) (first : Bool) : Step := do
  let r := if first then r.skip else r
  let t ← r.peek
  match t.kind with
  | .blockEnd => r.resume.skip.emit .sequenceEnd t.span
  | .blockEntry =>
    let r := r.skip
    match (← r.peek).kind with
    | .blockEntry | .blockEnd => (r.expect (.blockSequence false)).emitMissing t.span
    | _ => (r.putAside (.blockSequence false)).node true false
  | _ => .error .malformed

def indentlessSequence (r : EventReader) : Step := do
  let t ← r.peek
  match t.kind with
  | .blockEntry =>
    let r := r.skip
    match (← r.peek).kind with
    | .blockEntry | .key | .value | .blockEnd =>
      (r.expect .indentlessSequence).emitMissing t.span
    | _ => (r.putAside .indentlessSequence).node true false
  | _ => r.resume.emit .sequenceEnd t.span

def blockKey (r : EventReader) (first : Bool) : Step := do
  let r := if first then r.skip else r
  let t ← r.peek
  match t.kind with
  | .key =>
    let r := r.skip
    let t ← r.peek
    match t.kind with
    | .key | .value | .blockEnd => (r.expect .blockValue).emitMissing t.span
    | _ => (r.putAside .blockValue).node true true
  | .value => (r.expect .blockValue).emitMissing t.span
  | .blockEnd => r.resume.skip.emit .mappingEnd t.span
  | _ => .error .malformed

def blockValue (r : EventReader) : Step := do
  let t ← r.peek
  match t.kind with
  | .value =>
    let r := r.skip
    match (← r.peek).kind with
    | .key | .value | .blockEnd => (r.expect (.blockKey false)).emitMissing t.span
    | _ => (r.putAside (.blockKey false)).node true true
  | _ => (r.expect (.blockKey false)).emitMissing t.span

def flowSequenceItem (r : EventReader) : Step := do
  let t ← r.peek
  match t.kind with
  | .flowSequenceEnd => r.resume.skip.emit .sequenceEnd t.span
  | .key => (r.expect .pairKey).skip.emit (.mappingStart {}) t.span
  | _ => (r.putAside (.flowSequence false)).node false false

def flowSequence (r : EventReader) (first : Bool) : Step := do
  if first then r.skip.flowSequenceItem
  else
    let t ← r.peek
    match t.kind with
    | .flowSequenceEnd => r.resume.skip.emit .sequenceEnd t.span
    | .flowEntry => r.skip.flowSequenceItem
    | _ => .error .malformed

def pairKey (r : EventReader) : Step := do
  let t ← r.peek
  match t.kind with
  | .value | .flowEntry | .flowSequenceEnd => (r.expect .pairValue).skip.emitMissing t.span
  | _ => (r.putAside .pairValue).node false false

def pairValue (r : EventReader) : Step := do
  let t ← r.peek
  match t.kind with
  | .value =>
    let r := r.skip
    let next ← r.peek
    match next.kind with
    | .flowEntry | .flowSequenceEnd => (r.expect (.pairEnd next.span)).emitMissing next.span
    | _ => (r.putAside (.pairEnd t.span)).node false false
  | _ => (r.expect (.pairEnd t.span)).emitMissing t.span

def flowKeyItem (r : EventReader) (span : Span) : Step := do
  let t ← r.peek
  match t.kind with
  | .key =>
    let r := r.skip
    let t ← r.peek
    match t.kind with
    | .value | .flowEntry | .flowMappingEnd => (r.expect .flowValue).emitMissing t.span
    | _ => (r.putAside .flowValue).node false false
  | .value => (r.expect .flowValue).emitMissing t.span
  | .flowMappingEnd => r.resume.skip.emit .mappingEnd span
  | _ => (r.putAside .flowValueMissing).node false false

def flowKey (r : EventReader) (first : Bool) : Step := do
  let r := if first then r.skip else r
  let t ← r.peek
  match t.kind with
  | .flowMappingEnd => r.resume.skip.emit .mappingEnd t.span
  | .flowEntry => if first then r.flowKeyItem t.span else r.skip.flowKeyItem t.span
  | _ => if first then r.flowKeyItem t.span else .error .malformed

def flowValue (r : EventReader) : Step := do
  let t ← r.peek
  match t.kind with
  | .value =>
    let r := r.skip
    match (← r.peek).kind with
    | .flowEntry | .flowMappingEnd => (r.expect (.flowKey false)).emitMissing t.span
    | _ => (r.putAside (.flowKey false)).node false false
  | _ => (r.expect (.flowKey false)).emitMissing t.span

/-- Reads the next event. -/
def step (r : EventReader) : Step :=
  match r.state with
  | .streamStart => do
    let t ← r.peek
    (r.expect .implicitDocument).skip.emit .streamStart t.span
  | .implicitDocument => r.document true
  | .explicitDocument => r.document false
  | .documentContent => r.documentContent
  | .documentEnd => r.documentEnd
  | .blockNode => r.node true false
  | .blockSequence first => r.blockSequence first
  | .indentlessSequence => r.indentlessSequence
  | .blockKey first => r.blockKey first
  | .blockValue => r.blockValue
  | .flowSequence first => r.flowSequence first
  | .pairKey => r.pairKey
  | .pairValue => r.pairValue
  | .pairEnd span => (r.expect (.flowSequence false)).emit .mappingEnd span
  | .flowKey first => r.flowKey first
  | .flowValue => r.flowValue
  | .flowValueMissing => do
    let t ← r.peek
    (r.expect (.flowKey false)).emitMissing t.span
  | .done => .error .malformed

/-- Reads the events up to the end of the stream. -/
def run : Nat → EventReader → Except Fault (List Event)
  | 0, _ => .error .malformed
  | fuel + 1, r =>
    match r.step with
    | .error e => .error e
    | .ok (event, r) =>
      if event.kind = .streamEnd then .ok [event]
      else
        match run fuel r with
        | .error e => .error e
        | .ok events => .ok (event :: events)

end EventReader

/-- The events of a text. No token makes more than four. -/
def Event.read (source : List Char) : Except Fault (List Event) :=
  let tokens := (scan source).tokens
  EventReader.run (4 * tokens.length + 8) { tokens }

end PipelineScripts.Yaml
