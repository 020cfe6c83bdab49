import ExtensionLowering.Name.Supply
import ExtensionLowering.Diagnostic
/-!
# The import ledger

The namespace imports a file needs. Every `get` is one reference from the lowered tree, `remove`
takes one back, and an import without references is not written. Imports that the file has itself
are reused, never counted and never written. `retract` takes back the references inside a dropped
subtree, told by the marks of the aliases.
-/
namespace ExtensionLowering

/-- How often an import is referred to. A count has no limit: it is not taken for permanent when it
reaches the number that stands for that. -/
inductive Balance where
  | counted (n : Nat)
  | permanent
  deriving Repr, DecidableEq

/-- The number that stands for a permanent balance. -/
def Balance.unlimited : Nat := 2147483647

def Balance.toNat : Balance → Nat
  | .counted n => n
  | .permanent => unlimited

structure ImportEntry where
  path : String
  ident : Ident
  balance : Balance
  deriving Repr, DecidableEq

/-- Whether the import has to be written. -/
def ImportEntry.isCounted (e : ImportEntry) : Bool :=
  e.balance != .permanent

structure Ledger where
  entries : List ImportEntry := []
  retired : List (Ident × String) := []
  deriving Repr

namespace Ledger

def at? (l : Ledger) (path : String) : Option ImportEntry :=
  l.entries.find? (·.path == path)

def setBalance (l : Ledger) (path : String) (balance : Balance) : Ledger :=
  { l with entries := l.entries.map fun e => if e.path == path then { e with balance } else e }

def get (l : Ledger) (supply : NameSupply) (path : String) : Ident × Ledger × NameSupply :=
  match l.at? path with
  | some e =>
    match e.balance with
    | .counted n => (e.ident, l.setBalance path (.counted (n + 1)), supply)
    | .permanent => (e.ident, l, supply)
  | none =>
    let (ident, supply) := supply.next "tsplus_module"
    (ident, { l with entries := l.entries ++ [{ path, ident, balance := .counted 1 }] }, supply)

/-- Registers an import that the file has itself. Of two for one path the first is used. -/
def add (l : Ledger) (ident : Ident) (path : String) : Ledger :=
  match l.at? path with
  | none => { l with entries := l.entries ++ [{ path, ident, balance := .permanent }] }
  | some e =>
    if e.isCounted then
      { l with entries := l.entries.map fun e =>
          if e.path == path then { path, ident, balance := .permanent } else e }
    else l

def drop (l : Ledger) (e : ImportEntry) : Ledger :=
  { entries := l.entries.filter (·.path != e.path)
    retired := (e.ident, e.path) :: l.retired }

def remove (l : Ledger) (path : String) : Ledger :=
  match l.at? path with
  | none => l
  | some e =>
    match e.balance with
    | .permanent => l
    | .counted n => if n ≤ 1 then l.drop e else l.setBalance path (.counted (n - 1))

/-- The live path of an alias, told by its mark. -/
def livePath? (l : Ledger) (id : Ident) : Option String :=
  id.mark.bind fun m => (l.entries.find? (·.ident.mark == some m)).map (·.path)

def retiredPath? (l : Ledger) (id : Ident) : Option String :=
  id.mark.bind fun m => (l.retired.find? (·.1.mark == some m)).map (·.2)

/-- Takes back one occurrence of an identifier. The path of a retired alias is reported. -/
def retractOne (l : Ledger) (id : Ident) : Ledger × Option String :=
  match l.livePath? id with
  | some path => (l.remove path, none)
  | none => (l, l.retiredPath? id)

/-- Takes back the references in a list of occurrences, and reports the path of the first one too
many. -/
def retractAll (l : Ledger) : List Ident → Ledger × Option String
  | [] => (l, none)
  | id :: ids =>
    let (l, first) := l.retractOne id
    let (l, later) := l.retractAll ids
    (l, first.or later)

def retract (l : Ledger) (dead : Node) : Ledger × Option String :=
  l.retractAll dead.idents

/-- The report on a retraction of `path` below zero. -/
def excess (path : String) : Diagnostic :=
  .invariant .ledgerBroken {} [.text ("import " ++ path ++ " retracted below zero")]

/-- Takes back every reference inside a dropped subtree, with a diagnostic on the first one too
many. -/
def retractReporting (l : Ledger) (dead : Node) : Ledger × Option Diagnostic :=
  let (l, path) := l.retract dead
  (l, path.map excess)

def refCount (l : Ledger) (path : String) : Nat :=
  (l.at? path).elim 0 (·.balance.toNat)

def counted (l : Ledger) : List ImportEntry :=
  l.entries.filter (·.isCounted)

def paths (l : Ledger) : List String :=
  l.counted.map (·.path)

def statements (l : Ledger) : List Stmt :=
  l.counted.map fun e => .namespaceImport e.ident e.path

end Ledger

end ExtensionLowering
