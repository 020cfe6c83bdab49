import ExtensionLowering.Yaml.Node
import ExtensionLowering.Yaml.Value
/-!
# Decoding nodes

Nodes are decoded into what their place wants: text, any value, or a record of fields. A node that does
not fit is noted and decoding goes on; other faults end it. A decoder gives nothing for a node that
has no value for its place. The nodes reached through aliases may only be so great a share of all.

Into a record, as into a mapping of any value, entries of other mappings can be merged; entries that
are there already win. The names of these are kept while the others are decoded.
-/
namespace ExtensionLowering.Yaml

inductive Mismatch where
  | repeatedKey (line : Nat) (key : String) (firstLine : Nat)
  | repeatedField (line : Nat) (name typeName : String)
  | wrongKind (node : Node) (typeName : String)

namespace Mismatch

/-- The text of a scalar in a report; a long one is cut. -/
def excerpt (s : String) : String :=
  let bytes := s.toUTF8.toList.map UInt8.toNat
  if bytes.length > 10 then " `" ++ Text.ofBytes (bytes.take 7) ++ "...`" else " `" ++ s ++ "`"

def message : Mismatch → String
  | .repeatedKey line key firstLine =>
    "line " ++ toString line ++ ": mapping key " ++ Text.quoteDebug key ++
      " already defined at line " ++ toString firstLine
  | .repeatedField line name typeName =>
    "line " ++ toString line ++ ": field " ++ name ++ " already set in type " ++ typeName
  | .wrongKind node typeName =>
    let tag := node.tag
    let shown := if tag = Tag.seq || tag = Tag.map then node.text else excerpt node.text
    "line " ++ toString node.line ++ ": cannot unmarshal " ++ tag ++ shown ++ " into " ++ typeName

end Mismatch

inductive Failure (ε : Type) where
  | fault (fault : Fault)
  | refused (error : ε)
  /-- A collection stands where a scalar must be looked up. -/
  | broken

structure DecodeState where
  mismatches : List Mismatch := []
  /-- The number of nodes decoded, and of those among them that were reached through an alias. -/
  decoded : Nat := 0
  aliased : Nat := 0
  following : List Nat := []
  /-- Inside a merge, the keys that are set already. -/
  merged : Option (List Scalar) := none

abbrev Decode (ε : Type) := StateT DecodeState (Except (Failure ε))

namespace Decode

variable {ε α : Type}

def fail (problem : Problem) : Decode ε α :=
  throw (.fault (Fault.ofProblem problem))

def mismatch (m : Mismatch) : Decode ε Unit :=
  modify fun s => { s with mismatches := s.mismatches ++ [m] }

def setMerged (keys : Option (List Scalar)) : Decode ε Unit :=
  modify fun s => { s with merged := keys }

/-- Are too many of the nodes reached through aliases? Up to 400000 nodes ninety-nine in a hundred may
be, from 4000000 on one in ten, and in between the share goes down evenly. -/
def tooManyAliased (aliased decoded : Nat) : Bool :=
  100 < aliased && 1000 < decoded &&
    if decoded ≤ 400000 then 99 * decoded < 100 * aliased
    else if 4000000 ≤ decoded then decoded < 10 * aliased
    else (99 * 3600000 - 89 * (decoded - 400000)) * decoded < 100 * 3600000 * aliased

def count : Decode ε Unit := do
  let s ← get
  let decoded := s.decoded + 1
  let aliased := s.aliased + if s.following.isEmpty then 0 else 1
  if tooManyAliased aliased decoded then fail .excessiveAliases
  else set { s with decoded, aliased }

/-- Decodes a node, or the node that an alias stands for. An alias must not be met again while it is
being followed. -/
def through (d : Document) (decode : Node → Decode ε (Option α)) (n : Node) : Decode ε (Option α) := do
  count
  match n with
  | .reference _ place name anchor =>
    let following := (← get).following
    if following.contains place then fail (.selfContained name)
    else
      match d.target? anchor with
      | none => return none
      | some target =>
        modify fun s => { s with following := place :: following }
        count
        let a ← decode target
        modify fun s => { s with following }
        return a
  | n => decode n

def scalar (tag text : String) : Decode ε Scalar :=
  match resolve tag text with
  | .ok s => return s
  | .error problem => fail problem

def repeatedKeys : List Node → List Mismatch
  | [] => []
  | k :: ks =>
    (ks.filter fun m => k.sameKind m && k.text = m.text).map
        (fun m => .repeatedKey m.line m.text k.line) ++
      repeatedKeys ks

def keysDiffer (entries : List (Node × Node)) : Decode ε Bool := do
  let found := repeatedKeys (entries.map (·.1))
  found.forM mismatch
  return found.isEmpty

/-- Notes that a node does not fit its place. In a mapping the keys are looked at first. -/
def misfit (n : Node) (typeName : String) : Decode ε (Option α) := do
  match n with
  | .mapping _ _ entries => if ← keysDiffer entries then mismatch (.wrongKind n typeName)
  | n => mismatch (.wrongKind n typeName)
  return none

/-- Decodes a node where text is wanted. Numbers and the like are taken as they are spelled. -/
def text (d : Document) : Node → Decode ε (Option Scalar) :=
  through d fun n => do
    match n with
    | .scalar _ tag spelled =>
      match ← scalar tag spelled with
      | .null => return none
      | .binary octets => return some (.binary octets)
      | _ => return some (.text spelled)
    | n => misfit n "string"

def isMergeKey : Node → Bool
  | .scalar _ tag text => text = "<<" && tag = Tag.merge
  | _ => false

def mergeNode? (entries : List (Node × Node)) : Option Node :=
  (entries.filter (isMergeKey ·.1)).getLast?.map (·.2)

def mergeParts : Node → List Node
  | .sequence _ _ items => items
  | n => [n]

def checkMerged (d : Document) (n : Node) : Decode ε Unit :=
  let isMapping := match n with
    | .reference _ _ _ anchor => (d.target? anchor).all Node.isMapping
    | n => n.isMapping
  if isMapping then return else fail .mergeOfNoMapping

def keepKey (key : Option Value) : Decode ε Unit := do
  match key with
  | none => return
  | some (.scalar s) => modify fun st => { st with merged := st.merged.map (s :: ·) }
  | some _ => throw .broken

/-- Merges nodes into something, with the keys of what they are merged into given by a decoder. -/
def merging (d : Document) (keys : Decode ε Unit) (into : Node → α → Decode ε α) (m : Node) (a : α) :
    Decode ε α := do
  let outermost := (← get).merged.isNone
  if outermost then
    setMerged (some [])
    keys
  let a ← (mergeParts m).foldlM (fun a part => do
    checkMerged d part
    into part a) a
  if outermost then setMerged none
  return a

def setEntry (key : Scalar) (v : Value) (entries : List (Value × Value)) : List (Value × Value) :=
  entries.filter (·.1.scalar? ≠ some key) ++ [(.scalar key, v)]

def tagOf (d : Document) : Node → String
  | .reference _ _ _ anchor => ((d.target? anchor).map Node.tag).getD ""
  | n => n.tag

def keysAreText (d : Document) (entries : List (Node × Node)) : Bool :=
  entries.all fun e => [Tag.str, Tag.merge].contains (tagOf d e.1)

mutual

def value (d : Document) : Nat → Node → Decode ε (Option Value)
  | 0, _ => return none
  | n + 1, node =>
    through d (fun node => do
      match node with
      | .scalar _ tag spelled => return some (.scalar (← scalar tag spelled).asText)
      | .sequence _ _ items => return some (.sequence (← items.filterMapM (value d n ·)))
      | .mapping _ _ entries =>
        if ← keysDiffer entries then
          let named := keysAreText d entries
          return some (.mapping named (← valueEntries d n named entries []))
        else return none
      | .reference .. => return none) node

def valueEntries (d : Document) :
    Nat → Bool → List (Node × Node) → List (Value × Value) → Decode ε (List (Value × Value))
  | 0, _, _, done => return done
  | n + 1, named, entries, done => do
    let outer := (← get).merged
    setMerged none
    let (done, outer) ← entries.foldlM (fun (done, outer) (k, v) => do
      if isMergeKey k then return (done, outer)
      else
        let key ←
          if named then (·.map fun s => Value.scalar s.asText) <$> text d k else value d n k
        match key, outer with
        | none, _ => return (done, outer)
        | some (.scalar s), some keys =>
          if keys.contains s then return (done, some keys)
          else return (← valueEntry d n s v done, some (s :: keys))
        | some (.scalar s), none => return (← valueEntry d n s v done, none)
        | some _, some _ => throw .broken
        | some key, none => fail (.badKey key.shown)) (done, outer)
    setMerged outer
    match mergeNode? entries with
    | none => return done
    | some m =>
      merging d (entries.forM fun e => do keepKey (← value d n e.1))
        (fun part done => do
          let merged ← through d (fun node => do
            match node with
            | .mapping _ _ es =>
              if ← keysDiffer es then some <$> valueEntries d n named es done else return none
            | _ => return none) part
          return merged.getD done) m done

def valueEntry (d : Document) :
    Nat → Scalar → Node → List (Value × Value) → Decode ε (List (Value × Value))
  | 0, _, _, done => return done
  | n + 1, key, v, done => do
    match ← value d n v with
    | none => return done
    | some v => return setEntry key v done

end

end Decode

structure Record (ε α : Type) where
  typeName : String
  fields : List String
  assign : String → Node → α → Decode ε α

namespace Record

open Decode

variable {ε α : Type}

/-- Decodes an entry, behind the fields that are `done` and with the keys that are set in a merge. -/
def entry (r : Record ε α) (d : Document) (done : List String) (merged : Option (List Scalar))
    (k v : Node) (a : α) : Decode ε (List String × Option (List Scalar) × α) := do
  match (← text d k).bind Scalar.text? with
  | none => return (done, merged, a)
  | some name =>
    if merged.any (·.contains (.text name)) then return (done, merged, a)
    else
      let merged := merged.map (Scalar.text name :: ·)
      if ! r.fields.contains name then return (done, merged, a)
      else if done.contains name then
        mismatch (.repeatedField k.line name r.typeName)
        return (done, merged, a)
      else return (name :: done, merged, ← r.assign name v a)

def entries (r : Record ε α) (d : Document) :
    List (Node × Node) → List String → Option (List Scalar) → α →
      Decode ε (Option (List Scalar) × α)
  | [], _, merged, a => return (merged, a)
  | (k, v) :: rest, done, merged, a => do
    if isMergeKey k then r.entries d rest done merged a
    else
      let (done, merged, a) ← r.entry d done merged k v a
      r.entries d rest done merged a

def mapping (r : Record ε α) (d : Document) : Nat → List (Node × Node) → α → Decode ε (Option α)
  | 0, _, _ => return none
  | n + 1, es, a => do
    if ← keysDiffer es then
      let outer := (← get).merged
      setMerged none
      let (outer, a) ← r.entries d es [] outer a
      setMerged outer
      match mergeNode? es with
      | none => return some a
      | some m =>
        some <$> merging d (es.forM fun e => do keepKey (← value d n e.1))
          (fun part a => do
            let merged ← through d (fun node => do
              match node with
              | .mapping _ _ es => r.mapping d n es a
              | _ => return none) part
            return merged.getD a) m a
    else return none

def decode (r : Record ε α) (d : Document) (fuel : Nat) (a : α) : Node → Decode ε (Option α) :=
  through d fun n => do
    match n with
    | .mapping _ _ es => r.mapping d fuel es a
    | .scalar _ tag spelled =>
      if (← scalar tag spelled) = .null then return none else misfit n r.typeName
    | n => misfit n r.typeName

end Record

end ExtensionLowering.Yaml
