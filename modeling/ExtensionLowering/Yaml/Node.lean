import ExtensionLowering.Yaml.Resolve
import ExtensionLowering.Yaml.Token
/-!
# The nodes of a document

The first document of a stream as a tree of scalars, sequences and mappings. An alias refers to a
node by the number of its anchor, since a node may hold aliases to itself. What a search for a comment
came across is reported as soon as the scalar, alias, start or end of a collection at hand is read.
-/
namespace ExtensionLowering.Yaml

inductive Node where
  | scalar (line : Nat) (tag text : String)
  /-- An alias, told from others by its place in the text. -/
  | reference (line place : Nat) (name : String) (anchor : Nat)
  | sequence (line : Nat) (tag : String) (items : List Node)
  | mapping (line : Nat) (tag : String) (entries : List (Node × Node))
  deriving Repr, Inhabited

namespace Node

def line : Node → Nat
  | .scalar n _ _ => n
  | .reference n _ _ _ => n
  | .sequence n _ _ => n
  | .mapping n _ _ => n

def tag : Node → String
  | .scalar _ t _ => t
  | .reference _ _ _ _ => ""
  | .sequence _ t _ => t
  | .mapping _ t _ => t

def text : Node → String
  | .scalar _ _ t => t
  | .reference _ _ n _ => n
  | .sequence _ _ _ => ""
  | .mapping _ _ _ => ""

def isScalar : Node → Bool
  | .scalar _ _ _ => true
  | _ => false

def isMapping : Node → Bool
  | .mapping _ _ _ => true
  | _ => false

def sameKind : Node → Node → Bool
  | .scalar _ _ _, .scalar _ _ _ => true
  | .reference _ _ _ _, .reference _ _ _ _ => true
  | .sequence _ _ _, .sequence _ _ _ => true
  | .mapping _ _ _, .mapping _ _ _ => true
  | _, _ => false

end Node

structure Document where
  root : Node
  anchored : List (Nat × Node)

def Document.target? (d : Document) (anchor : Nat) : Option Node :=
  d.anchored.lookup anchor

structure Properties where
  mark : Mark
  anchor : Option String := none
  tag : Option (String × String × Mark) := none

structure ReadState where
  stream : TokenStream
  handles : List (String × String) := []
  anchors : List (String × Nat) := []
  anchored : List (Nat × Node) := []
  nextAnchor : Nat := 0

abbrev Read := StateT ReadState (Except Fault)

namespace Read

def scan {α : Type} (x : Scan α) : Read α := do
  let s ← get
  match x.run s.stream with
  | .error f => throw f
  | .ok (a, stream) =>
    set { s with stream }
    return a

def peek : Read Token := scan Scan.peek

def drop : Read Unit := scan Scan.drop

def fail {α : Type} (context here : Mark) (problem : Problem) : Read α :=
  throw (Fault.inStructure context here problem)

/-- Reports what a search for a comment came across while a piece of the document was read. -/
def finish {α : Type} (a : α) : Read α := do
  match (← get).stream.cursor.missed with
  | none => return a
  | some problem => throw (Fault.ofProblem problem)

def bindHandle (handle replacement : String) (mark : Mark) (again : Bool) : Read Unit := do
  let s ← get
  if (s.handles.lookup handle).isSome then
    if ! again then fail {} mark .duplicateTagHandle
  else set { s with handles := s.handles ++ [(handle, replacement)] }

/-- Reads directives, of which only one may give a version, and adds the handles known everywhere. -/
def directives : Nat → Bool → Read Unit
  | 0, _ => return
  | n + 1, versioned => do
    let t ← peek
    match t.kind with
    | .directive (.version major minor) =>
      if versioned then fail {} t.mark .duplicateVersion
      else if major ≠ 1 ∨ minor ≠ 1 then fail {} t.mark .incompatibleVersion
      else
        drop
        directives n true
    | .directive (.tag handle replacement) =>
      bindHandle (String.ofList handle) (String.ofList replacement) t.mark false
      drop
      directives n versioned
    | _ =>
      bindHandle "!" "!" t.mark true
      bindHandle "!!" Tag.stem t.mark true

def properties : Read Properties := do
  let t ← peek
  match t.kind with
  | .anchor name =>
    drop
    let u ← peek
    match u.kind with
    | .tag handle suffix =>
      drop
      return { mark := t.mark, anchor := some name, tag := some (handle, suffix, u.mark) }
    | _ => return { mark := t.mark, anchor := some name }
  | .tag handle suffix =>
    drop
    let u ← peek
    match u.kind with
    | .anchor name =>
      drop
      return { mark := t.mark, anchor := some name, tag := some (handle, suffix, t.mark) }
    | _ => return { mark := t.mark, tag := some (handle, suffix, t.mark) }
  | _ => return { mark := t.mark }

/-- The tag written before a node, in full; empty when there is none. -/
def writtenTag (p : Properties) : Read String := do
  match p.tag with
  | none => return ""
  | some (handle, suffix, mark) =>
    if handle = "" then return suffix
    else
      match (← get).handles.lookup handle with
      | some replacement =>
        if replacement ++ suffix = "" then fail p.mark mark .undefinedTagHandle
        else return replacement ++ suffix
      | none => fail p.mark mark .undefinedTagHandle

/-- Numbers an anchor, so that aliases inside the node it marks can refer to it. -/
def openAnchor (p : Properties) : Read (Option Nat) := do
  match p.anchor with
  | none => return none
  | some name =>
    let s ← get
    set { s with anchors := (name, s.nextAnchor) :: s.anchors, nextAnchor := s.nextAnchor + 1 }
    return some s.nextAnchor

def closeAnchor (anchor : Option Nat) (n : Node) : Read Node := do
  match anchor with
  | none => return n
  | some k =>
    modify fun s => { s with anchored := (k, n) :: s.anchored }
    return n

/-- The tag of a node: the written one unless it says nothing, else the one it has by itself. -/
def chosenTag (written own : String) : String :=
  if written = "" || written = "!" then own else Tag.short written

def scalarNode (p : Properties) (written text : String) (plain : Bool) : Read Node := do
  let own :=
    if plain then plainTag true text else Tag.str
  let anchor ← openAnchor p
  closeAnchor anchor (.scalar (p.mark.line + 1) (chosenTag written own) text) >>= finish

def emptyNode (mark : Mark) : Node :=
  .scalar (mark.line + 1) Tag.null ""

def dropEnd : Read Unit := do
  drop
  finish ()

def isOneOf (t : Token) (kinds : List TokenKind) : Bool :=
  kinds.contains t.kind

/-- A node with an anchor or a tag may be empty. -/
def emptyContent (p : Properties) (written : String) (t : Token) : Read Node := do
  if p.anchor.isSome || written ≠ "" then scalarNode p written "" true
  else fail p.mark t.mark .noNodeContent

mutual

/-- Reads a node. Block collections may only stand where `block`; a sequence without indentation of
its own only where `indentless`. -/
def node (block indentless : Bool) : Nat → Read Node
  | 0 => return emptyNode {}
  | n + 1 => do
    let t ← peek
    match t.kind with
    | .reference name =>
      dropEnd
      match (← get).anchors.lookup name with
      | none => throw (Fault.ofProblem (.unknownAnchor name))
      | some anchor => return .reference (t.mark.line + 1) t.mark.index name anchor
    | _ =>
      let p ← properties
      let written ← writtenTag p
      nodeContent block indentless p written n

def nodeContent (block indentless : Bool) (p : Properties) (written : String) : Nat → Read Node
  | 0 => return emptyNode p.mark
  | n + 1 => do
    let t ← peek
    let line := p.mark.line + 1
    match t.kind with
    | .blockEntry =>
      if indentless then
        let anchor ← openAnchor p >>= finish
        let items ← indentlessItems n
        closeAnchor anchor (.sequence line (chosenTag written Tag.seq) items)
      else emptyContent p written t
    | .scalar text plain =>
      drop
      scalarNode p written text plain
    | .flowSequenceStart =>
      let anchor ← openAnchor p >>= finish
      drop
      let items ← flowItems t.mark true n
      closeAnchor anchor (.sequence line (chosenTag written Tag.seq) items)
    | .flowMappingStart =>
      let anchor ← openAnchor p >>= finish
      drop
      let entries ← flowEntries t.mark true n
      closeAnchor anchor (.mapping line (chosenTag written Tag.map) entries)
    | .blockSequenceStart =>
      if block then
        let anchor ← openAnchor p >>= finish
        drop
        let items ← blockItems t.mark n
        closeAnchor anchor (.sequence line (chosenTag written Tag.seq) items)
      else emptyContent p written t
    | .blockMappingStart =>
      if block then
        let anchor ← openAnchor p >>= finish
        drop
        let entries ← blockEntries t.mark n
        closeAnchor anchor (.mapping line (chosenTag written Tag.map) entries)
      else emptyContent p written t
    | _ => emptyContent p written t

def blockItems (start : Mark) : Nat → Read (List Node)
  | 0 => return []
  | n + 1 => do
    let t ← peek
    match t.kind with
    | .blockEntry =>
      drop
      let u ← peek
      let item ← if isOneOf u [.blockEntry, .blockEnd] then finish (emptyNode t.mark)
        else node true false n
      return item :: (← blockItems start n)
    | .blockEnd =>
      dropEnd
      return []
    | _ => fail start t.mark .noEntryDash

/-- Reads the items of a sequence that stands at the column of the key before it. -/
def indentlessItems : Nat → Read (List Node)
  | 0 => return []
  | n + 1 => do
    let t ← peek
    match t.kind with
    | .blockEntry =>
      drop
      let u ← peek
      let item ← if isOneOf u [.blockEntry, .key, .value, .blockEnd] then finish (emptyNode t.mark)
        else node true false n
      return item :: (← indentlessItems n)
    | _ => finish []

def blockPart (sign : Mark) : Nat → Read Node
  | 0 => return emptyNode sign
  | n + 1 => do
    let u ← peek
    if isOneOf u [.key, .value, .blockEnd] then finish (emptyNode sign) else node true true n

def blockEntries (start : Mark) : Nat → Read (List (Node × Node))
  | 0 => return []
  | n + 1 => do
    let t ← peek
    match t.kind with
    | .key =>
      drop
      let k ← blockPart t.mark n
      let u ← peek
      let v ← if u.kind = .value then
          drop
          blockPart u.mark n
        else finish (emptyNode u.mark)
      return (k, v) :: (← blockEntries start n)
    | .blockEnd =>
      dropEnd
      return []
    | _ => fail start t.mark .noKey

def flowItems (start : Mark) (first : Bool) : Nat → Read (List Node)
  | 0 => return []
  | n + 1 => do
    let t ← peek
    if t.kind = .flowSequenceEnd then
      dropEnd
      return []
    else if ! first && t.kind ≠ .flowEntry then fail start t.mark .noSequenceComma
    else
      if ! first then drop
      let t ← peek
      match t.kind with
      | .flowSequenceEnd =>
        dropEnd
        return []
      | .key =>
        dropEnd
        let item ← singleEntry t.mark n
        return item :: (← flowItems start false n)
      | _ =>
        let item ← node false false n
        return item :: (← flowItems start false n)

def singleEntry (start : Mark) : Nat → Read Node
  | 0 => return emptyNode start
  | n + 1 => do
    let t ← peek
    let k ← if isOneOf t [.value, .flowEntry, .flowSequenceEnd] then
        dropEnd
        pure (emptyNode t.mark)
      else node false false n
    let v ← flowValue .flowSequenceEnd n
    let _ ← peek
    finish (.mapping (start.line + 1) Tag.map [(k, v)])

def flowValue (closing : TokenKind) : Nat → Read Node
  | 0 => return emptyNode {}
  | n + 1 => do
    let t ← peek
    if t.kind = .value then
      drop
      let u ← peek
      if isOneOf u [.flowEntry, closing] then finish (emptyNode u.mark) else node false false n
    else finish (emptyNode t.mark)

def flowEntries (start : Mark) (first : Bool) : Nat → Read (List (Node × Node))
  | 0 => return []
  | n + 1 => do
    let t ← peek
    if t.kind = .flowMappingEnd then
      dropEnd
      return []
    else if ! first && t.kind ≠ .flowEntry then fail start t.mark .noMappingComma
    else
      if ! first then drop
      let t ← peek
      match t.kind with
      | .flowMappingEnd =>
        dropEnd
        return []
      | .key =>
        drop
        let u ← peek
        let k ← if isOneOf u [.value, .flowEntry, .flowMappingEnd] then finish (emptyNode u.mark)
          else node false false n
        let v ← flowValue .flowMappingEnd n
        return (k, v) :: (← flowEntries start false n)
      | _ =>
        let k ← node false false n
        let u ← peek
        let v ← finish (emptyNode u.mark)
        return (k, v) :: (← flowEntries start false n)

end

def document (fuel : Nat) : Read (Option Node) := do
  let start ← peek
  if start.kind = .streamStart then dropEnd
  let t ← peek
  if t.kind = .streamEnd then finish none
  else
    directives fuel false
    let explicit := match t.kind with
      | .directive _ | .documentStart => true
      | _ => false
    if explicit then
      let u ← peek
      if u.kind ≠ .documentStart then fail {} u.mark .noDocumentStart
      drop
    finish ()
    let v ← peek
    let root ←
      match explicit, v.kind with
      | true, .directive _ | true, .documentStart | true, .documentEnd | true, .streamEnd =>
        finish (emptyNode v.mark)
      | _, _ => node true false fuel
    let _ ← peek
    finish (some root)

end Read

/-- Reads the first document of a text; a text without any content has none. -/
def Document.ofPortions? (ps : List Portion) : Except Fault (Option Document) := do
  let stream := TokenStream.ofPortions ps
  let fuel := 8 * (stream.cursor.rest.length + 8)
  let (root, s) ← (Read.document fuel).run { stream }
  return root.map fun root => { root, anchored := s.anchored }

end ExtensionLowering.Yaml
