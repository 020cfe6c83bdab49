import ExtensionLowering.Name.Supply
/-!
# The name table of a file

The names synthesized for one file: an identifier for each derivation that refers to itself, and a
private alias for each file-level name. Beginning a file drops both; finishing its lowering drops
the aliases only.
-/
namespace ExtensionLowering

/-- The private binding by which a file-level declaration is referred to. -/
structure Alias where
  ident : Ident
  exported : Bool
  deriving Repr, DecidableEq

structure NameTable where
  supply : NameSupply
  derivations : List (Option DerivId × Ident) := []
  aliases : List (String × Alias) := []

namespace NameTable

/-- The table at the beginning of a file whose own names are reserved in `supply`. -/
def begin (supply : NameSupply) : NameTable :=
  { supply }

/-- Begins the next file: names of derivations and aliases belong to the last one. -/
def beginFile (_ : NameTable) (supply : NameSupply) : NameTable :=
  begin supply

def fresh (t : NameTable) (base : String) : Ident × NameTable :=
  let (id, supply) := t.supply.next base
  (id, { t with supply })

def derivation? (t : NameTable) (d : Option DerivId) : Option Ident :=
  t.derivations.lookup d

def derivationName (t : NameTable) (d : Option DerivId) : Ident × NameTable :=
  match t.derivation? d with
  | some id => (id, t)
  | none =>
    let (id, supply) := t.supply.next "derived"
    (id, { t with supply, derivations := (d, id) :: t.derivations })

def alias? (t : NameTable) (name : String) : Option Alias :=
  t.aliases.lookup name

/-- The alias of a file-level name. The first call for a name decides whether it is exported. -/
def exportAlias (t : NameTable) (name : String) (exported : Bool) : Alias × NameTable :=
  match t.alias? name with
  | some a => (a, t)
  | none =>
    let (ident, supply) := t.supply.next name
    let a : Alias := { ident, exported }
    (a, { t with supply, aliases := (name, a) :: t.aliases })

def sortedAliases (t : NameTable) : List (String × Alias) :=
  t.aliases.mergeSort fun a b => a.1 ≤ b.1

/-- Forgets the aliases; derivation names stay until the next file begins. -/
def reset (t : NameTable) : NameTable :=
  { t with aliases := [] }

end NameTable

end ExtensionLowering
