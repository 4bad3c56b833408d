import Typecase.Yaml.Token
import Typecase.Lexical
set_option autoImplicit false

/-!
# Nodes

The first document of a YAML text as a tree of scalars, sequences and mappings.  Scalars
keep their text; it is up to the reader of a node what they mean.
-/

namespace Typecase.Yaml

/-- How a scalar says what it stands for. -/
inductive Style where
  /-- Without quotes: the text decides. -/
  | plain
  /-- In quotes or as a block: the scalar is a text. -/
  | quoted
  | tagged (tag : String)
  deriving DecidableEq, Repr, Inhabited

/-- Nodes of a document, each with the position of its first character. -/
inductive Node where
  | scalar (pos : Pos) (text : String) (style : Style)
  | sequence (pos : Pos) (items : List Node)
  /-- A mapping; keys may be repeated. -/
  | mapping (pos : Pos) (entries : List (Node × Node))
  /-- A reference to the anchor with the given name and number.  The node that is anchored
  there is given unless it encloses the reference. -/
  | reference (pos : Pos) (name : String) (anchor : Nat) (target : Option Node)
  deriving Repr, Inhabited

namespace Node

/-- Where a node starts. -/
def pos : Node → Pos
  | .scalar p _ _ | .sequence p _ | .mapping p _ | .reference p _ _ _ => p

/-- The text of a node: that of a scalar, or the name of a reference. -/
def text : Node → String
  | .scalar _ text _ => text
  | .reference _ name _ _ => name
  | _ => ""

mutual

/-- Number of nodes on the longest branch. -/
def depth : Node → Nat
  | .scalar _ _ _ => 1
  | .sequence _ items => depthItems items + 1
  | .mapping _ entries => depthEntries entries + 1
  | .reference _ _ _ _ => 1

def depthItems : List Node → Nat
  | [] => 0
  | n :: ns => max (depth n) (depthItems ns)

/-- Greatest depth of the keys and values of a mapping. -/
def depthEntries : List (Node × Node) → Nat
  | [] => 0
  | (k, v) :: es => max (max (depth k) (depth v)) (depthEntries es)

end

end Node

/-- The position of a mark; lines and columns are counted from one. -/
def Mark.toPos (m : Mark) : Pos := ⟨m.line + 1, m.col + 1⟩

/-- A document: its root, and the nodes that are anchored in it, by number. -/
structure Document where
  root : Node
  anchored : List Node
  deriving Repr, Inhabited

/-- A bound for the nesting of mappings that are merged into each other, unless there is
one that is merged into itself: the nesting inside the root and inside each anchored
node. -/
def Document.mergeBound (doc : Document) : Nat :=
  doc.anchored.foldr (fun n bound => n.depth + bound) doc.root.depth + 1

def standardHandles : List (String × String) := [("!", "!"), ("!!", "tag:yaml.org,2002:")]

/-- The state of the parser. -/
structure Reader where
  scanner : Scanner
  /-- The numbers of the anchors so far, latest first. -/
  anchors : List (String × Nat) := []
  /-- The anchored nodes by number; a node is not known before its end. -/
  anchored : List (Option Node) := []
  /-- What the handles of tags stand for. -/
  handles : List (String × String) := standardHandles
  deriving Repr, Inhabited

/-- Parsing of nodes. -/
abbrev ReadM := StateT Reader (Except Fault)

namespace Reader

/-- A bound for the number of tokens: each of them takes up a character, or goes with the
colon behind a key, or starts or ends a block collection. -/
def bound (r : Reader) : Nat := 4 * r.scanner.length + 8

def peek : ReadM Token := do
  let (t, scanner) ← (← get).scanner.peek
  modify fun r => { r with scanner }
  return t

/-- Go past the next token. -/
def skip : ReadM Unit := modify fun r => { r with scanner := r.scanner.skip }

/-- A scalar without text. -/
def empty (m : Mark) : Node := .scalar m.toPos "" .plain

/-- Read a node unless one of the given tokens follows; then there is an empty scalar
at `m`. -/
def orEmpty (node : ReadM Node) (m : Mark) (stops : List TokenKind) : ReadM Node := do
  if stops.contains (← peek).kind then return empty m else node

/-- The items of a block sequence.  The first argument bounds their number. -/
def blockItems (node : ReadM Node) : Nat → List Node → ReadM (List Node)
  | 0, _ => throw .tooDeep
  | n + 1, items => do
    let t ← peek
    match t.kind with
    | .blockEntry =>
      skip
      let item ← orEmpty node t.stop [.blockEntry, .blockEnd]
      blockItems node n (items ++ [item])
    | .blockEnd =>
      skip
      return items
    | _ => throw .unclosedCollection

/-- The items of a block sequence that stands at the column of its key. -/
def indentlessItems (node : ReadM Node) : Nat → List Node → ReadM (List Node)
  | 0, _ => throw .tooDeep
  | n + 1, items => do
    let t ← peek
    match t.kind with
    | .blockEntry =>
      skip
      let item ← orEmpty node t.stop [.blockEntry, .key, .value, .blockEnd]
      indentlessItems node n (items ++ [item])
    | _ => return items

/-- The entries of a block mapping.  The first argument bounds their number. -/
def blockEntries (node : ReadM Node) : Nat → List (Node × Node) → ReadM (List (Node × Node))
  | 0, _ => throw .tooDeep
  | n + 1, entries => do
    let t ← peek
    match t.kind with
    | .key =>
      skip
      let key ← orEmpty node t.stop [.key, .value, .blockEnd]
      let colon ← peek
      let value ←
        if colon.kind = .value then do
          skip
          orEmpty node colon.stop [.key, .value, .blockEnd]
        else pure (empty colon.start)
      blockEntries node n (entries ++ [(key, value)])
    | .blockEnd =>
      skip
      return entries
    | _ => throw .unclosedCollection

/-- Read a node, or an empty scalar where the next token starts if that is one of the
given tokens. -/
def orEmptyHere (node : ReadM Node) (stops : List TokenKind) : ReadM Node := do
  let t ← peek
  if stops.contains t.kind then return empty t.start else node

/-- The value in a flow sequence of an entry with a key.  If it is absent, its place is
that of the colon. -/
def pairValue (node : ReadM Node) : ReadM Node := do
  let t ← peek
  if t.kind = .value then
    skip
    orEmpty node t.start [.flowEntry, .flowSequenceEnd]
  else return empty t.start

def entryValue (node : ReadM Node) : ReadM Node := do
  let t ← peek
  if t.kind = .value then
    skip
    orEmptyHere node [.flowEntry, .flowMappingEnd]
  else return empty t.start

/-- Go past the comma between the items of a flow collection. -/
def comma (first : Bool) (close : TokenKind) : ReadM Unit := do
  let t ← peek
  unless first || t.kind = close do
    if t.kind = .flowEntry then skip else throw .unclosedCollection

/-- The items of a flow sequence.  A key starts a mapping with a single entry. -/
def flowItems (node : ReadM Node) : Nat → List Node → ReadM (List Node)
  | 0, _ => throw .tooDeep
  | n + 1, items => do
    comma items.isEmpty .flowSequenceEnd
    let t ← peek
    match t.kind with
    | .flowSequenceEnd =>
      skip
      return items
    | .key =>
      skip
      let next ← peek
      let key ←
        if [TokenKind.value, .flowEntry, .flowSequenceEnd].contains next.kind then do
          skip
          pure (empty next.stop)
        else node
      let value ← pairValue node
      flowItems node n (items ++ [.mapping t.start.toPos [(key, value)]])
    | _ =>
      let item ← node
      flowItems node n (items ++ [item])

def flowEntries (node : ReadM Node) : Nat → List (Node × Node) → ReadM (List (Node × Node))
  | 0, _ => throw .tooDeep
  | n + 1, entries => do
    comma entries.isEmpty .flowMappingEnd
    let t ← peek
    match t.kind with
    | .flowMappingEnd =>
      skip
      return entries
    | .key =>
      skip
      let key ← orEmptyHere node [.value, .flowEntry, .flowMappingEnd]
      let value ← entryValue node
      flowEntries node n (entries ++ [(key, value)])
    | _ =>
      let key ← node
      let value := empty (← peek).start
      flowEntries node n (entries ++ [(key, value)])

/-- What stands in front of the content of a node. -/
structure Properties where
  start : Mark
  anchor : Option String := none
  tag : Option String := none
  deriving DecidableEq, Repr, Inhabited

def Properties.isSome (p : Properties) : Bool := p.anchor.isSome || p.tag.isSome

/-- The style of a scalar with these properties.  The tag `!` says nothing. -/
def Properties.style (p : Properties) (plain : Bool) : Style :=
  match p.tag with
  | none | some "!" => if plain then .plain else .quoted
  | some tag => .tagged tag

/-- Read an anchor, if one follows. -/
def anchor? : ReadM (Option String) := do
  match (← peek).kind with
  | .anchor name =>
    skip
    return some name
  | _ => return none

/-- Read a tag, if one follows. -/
def tag? : ReadM (Option (String × String)) := do
  match (← peek).kind with
  | .tag handle suffix =>
    skip
    return some (handle, suffix)
  | _ => return none

/-- The full form of a tag.  Its handle has to be declared. -/
def fullTag (handle suffix : String) : ReadM String := do
  if handle = "" then return suffix
  match (← get).handles.lookup handle with
  | some meaning => return meaning ++ suffix
  | none => throw .badTag

/-- Read the properties of a node: an anchor and a tag in either order. -/
def properties : ReadM Properties := do
  let start := (← peek).start
  let first ← anchor?
  let tag ← tag?
  let second ← if first.isNone && tag.isSome then anchor? else pure none
  let tag ← tag.mapM fun t => fullTag t.1 t.2
  return ⟨start, first <|> second, tag⟩

/-- Remember that a node with an anchor has started; its number. -/
def openAnchor (name : String) : ReadM Nat := do
  let number := (← get).anchored.length
  modify fun r => { r with
    anchors := (name, number) :: r.anchors
    anchored := r.anchored ++ [none] }
  return number

def closeAnchor (number : Nat) (n : Node) : ReadM Unit :=
  modify fun r => { r with anchored := r.anchored.set number (some n) }

/-- The content of a node with the given properties.  `block` and `indentless` tell which
block collections are allowed, `inner` reads nodes inside block and flow collections. -/
def content (inner : Bool → Bool → ReadM Node) (block indentless : Bool) (p : Properties) :
    ReadM Node := do
  let t ← peek
  let bound := (← get).bound
  let pos := p.start.toPos
  match t.kind with
  | .scalar text plain =>
    skip
    return .scalar pos text (p.style plain)
  | .flowSequenceStart =>
    skip
    return .sequence pos (← flowItems (inner false false) bound [])
  | .flowMappingStart =>
    skip
    return .mapping pos (← flowEntries (inner false false) bound [])
  | kind =>
    if indentless && kind = .blockEntry then
      return .sequence pos (← indentlessItems (inner true false) bound [])
    else if block && kind = .blockSequenceStart then
      skip
      return .sequence pos (← blockItems (inner true false) bound [])
    else if block && kind = .blockMappingStart then
      skip
      return .mapping pos (← blockEntries (inner true true) bound [])
    else if p.isSome then return .scalar pos "" (p.style true)
    else throw .missingNode

def reference (pos : Pos) (name : String) : ReadM Node := do
  let r ← get
  match r.anchors.lookup name with
  | some number => return .reference pos name number (r.anchored[number]?.join)
  | none => throw .unknownAnchor

/-- Read a node.  The first argument bounds the nesting. -/
def node : Nat → Bool → Bool → ReadM Node
  | 0, _, _ => throw .tooDeep
  | n + 1, block, indentless => do
    let t ← peek
    match t.kind with
    | .reference name =>
      skip
      reference t.start.toPos name
    | _ =>
      let p ← properties
      match p.anchor with
      | none => content (node n) block indentless p
      | some name =>
        let number ← openAnchor name
        let made ← content (node n) block indentless p
        closeAnchor number made
        return made

/-- Read the directives before a document.  The first argument bounds their number. -/
def directives : Nat → (version : Bool) → (handles : List (String × String)) → ReadM Unit
  | 0, _, _ => throw .tooDeep
  | n + 1, version, handles => do
    match (← peek).kind with
    | .directive (.version major minor) =>
      if version || (major, minor) != (1, 1) then throw .badDirective
      skip
      directives n true handles
    | .directive (.tag handle meaning) =>
      if (handles.lookup handle).isSome then throw .badDirective
      skip
      directives n version (handles ++ [(handle, meaning)])
    | _ => modify fun r => { r with handles := handles ++ standardHandles }

def endsDocument : TokenKind → Bool
  | .directive _ | .documentStart | .documentEnd | .streamEnd => true
  | _ => false

/-- Read the root of a document that starts with directives or a marker. -/
def markedRoot : ReadM Node := do
  let bound := (← get).bound
  directives bound false []
  if (← peek).kind != .documentStart then throw .badDirective
  skip
  let next ← peek
  if endsDocument next.kind then return empty next.start else node bound true false

/-- Read the first document, if there is any.  The token behind it is read as well. -/
def document : ReadM (Option Document) := do
  match (← peek).kind with
  | .streamEnd => return none
  | kind =>
    let root ←
      match kind with
      | .documentStart | .directive _ => markedRoot
      | _ => node (← get).bound true false
    let _ ← peek
    return some ⟨root, (← get).anchored.filterMap id⟩

end Reader

/-! ## Texts -/

/-- Texts are checked in pieces of this many bytes. -/
def pieceSize : Nat := 512

/-- Whether all characters are allowed up to the end of the piece in which character
number `needed` stands.  `room` is the number of bytes left in the present piece. -/
def allowedUpTo : (needed room : Nat) → List Char → Bool
  | _, _, [] => true
  | needed, room, c :: cs =>
    if c.utf8Size ≤ room then isAllowed c && allowedUpTo (needed - 1) (room - c.utf8Size) cs
    else needed = 0 || (isAllowed c && allowedUpTo (needed - 1) (pieceSize - c.utf8Size) cs)

/-- The first document of a text, if the text has a document.  What follows behind the
document is read only as far as it takes to find its end. -/
def parseDocument (text : String) : Except Fault (Option Document) := do
  let (chars, room) := match text.toList with
    | '\uFEFF' :: chars => (chars, pieceSize - 3)
    | chars => (chars, pieceSize)
  let (document, r) ← Reader.document.run { scanner := .start (unifyBreaks chars) }
  if !allowedUpTo (r.scanner.mark.index + 2) room chars then throw .forbiddenCharacter
  return document

/-- The tree of the first document in a text. -/
def parse (text : String) : Except Fault (Option Node) := do
  return (← parseDocument text).map (·.root)

end Typecase.Yaml
