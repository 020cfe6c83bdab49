import ExtensionLowering.Config.Rule
import ExtensionLowering.Yaml.Decode
/-!
# The rules a configuration file lists

A configuration is a mapping; of its entries `moduleMap` and `traceMap` count, each a mapping from
patterns to replacements whose order is kept. Entries can be merged in from other mappings. A sequence
with the tag of null lists the rules one by one.
-/
namespace ExtensionLowering

open Yaml

structure ConfigSource where
  moduleMap : List RuleText := []
  traceMap : List RuleText := []
  deriving Repr, DecidableEq

inductive RulesError where
  | notRules (line : Nat)
  | notText (line : Nat) (pattern : String)
  deriving Repr, DecidableEq

def RulesError.message : RulesError → String
  | .notRules line => "line " ++ toString line ++ ": expected a mapping of pattern to replacement"
  | .notText line pattern =>
    "line " ++ toString line ++ ": replacement for " ++ Text.quoteDebug pattern ++ " must be a string"

inductive SourceError where
  | unreadable (fault : Fault)
  | refused (error : RulesError)
  | mismatched (all : List Mismatch)

def SourceError.message : SourceError → String
  | .unreadable fault => fault.message
  | .refused error => error.message
  | .mismatched all =>
    "yaml: unmarshal errors:\n  " ++ "\n  ".intercalate (all.map Mismatch.message)

inductive ConfigField where
  | moduleMap | traceMap
  deriving Repr, DecidableEq

def ConfigField.name : ConfigField → String
  | .moduleMap => "moduleMap"
  | .traceMap => "traceMap"

def ConfigSource.set (s : ConfigSource) (rules : List RuleText) : ConfigField → ConfigSource
  | .moduleMap => { s with moduleMap := rules }
  | .traceMap => { s with traceMap := rules }

def ruleTexts : List (Yaml.Node × Yaml.Node) → Except RulesError (List RuleText)
  | [] => .ok []
  | (k, v) :: rest =>
    if v.isScalar then (ruleTexts rest).map ({ pattern := k.text, replacement := v.text } :: ·)
    else .error (.notText v.line k.text)

def ruleRecord (d : Document) : Record RulesError RuleText where
  typeName := "config.Rule"
  fields := ["pattern", "replacement"]
  assign name node rule := do
    let scalar ← Decode.text d node
    match scalar.bind Scalar.text? with
    | none => return rule
    | some text =>
      if name = "pattern" then
        return { rule with pattern := text, octets := scalar.bind Scalar.octets? }
      else return { rule with replacement := text }

def decodeRules (d : Document) (fuel : Nat) :
    Yaml.Node → Decode RulesError (Option (List RuleText)) :=
  Decode.through d fun n => do
    if n.tag = Tag.null then
      match n with
      | .scalar _ tag text =>
        let _ ← Decode.scalar tag text
        return some []
      | .sequence _ _ items => some <$> items.filterMapM ((ruleRecord d).decode d fuel {})
      | n => Decode.misfit n "config.Rules"
    else
      match n with
      | .mapping _ _ entries =>
        match ruleTexts entries with
        | .ok rules => return some rules
        | .error e => throw (.refused e)
      | n => throw (.refused (.notRules n.line))

def configRecord (d : Document) (fuel : Nat) : Record RulesError ConfigSource where
  typeName := "config.Config"
  fields := [ConfigField.moduleMap.name, ConfigField.traceMap.name]
  assign name node source := do
    let field := if name = ConfigField.moduleMap.name then ConfigField.moduleMap else .traceMap
    return ((← decodeRules d fuel node).map (source.set · field)).getD source

def decodeConfig (d : Document) (fuel : Nat) : Decode RulesError ConfigSource := do
  Decode.count
  return ((← (configRecord d fuel).decode d fuel {} d.root).getD {})

/-- Reads the rules of a configuration file. Nothing is returned when decoding breaks down. -/
def ConfigSource.read? (bytes : List Nat) : Option (Except SourceError ConfigSource) :=
  match Document.ofPortions? (portions bytes) with
  | .error fault => some (.error (.unreadable fault))
  | .ok none => some (.ok {})
  | .ok (some d) =>
    match (decodeConfig d ((bytes.length + 2) * (bytes.length + 2))).run {} with
    | .error (.fault fault) => some (.error (.unreadable fault))
    | .error (.refused error) => some (.error (.refused error))
    | .error .broken => none
    | .ok (source, s) =>
      some (if s.mismatches.isEmpty then .ok source else .error (.mismatched s.mismatches))

end ExtensionLowering
