import ExtensionLowering.Proofs.Name.Freshness
import Mathlib.Data.List.Induction
/-!
# The caches of names over a session

A name table answers calls one after the other. Derivations keep their names until the next file
begins, aliases only until the next reset, and both take their names from the supply of the file.
What the calls since the beginning of the file are answered is said here from the calls alone: each
use of a name has one identifier, and the names of different uses differ.

## Main definitions

* `TableCall`, `answerAfter`: the calls on a name table, and the answer of a call that follows some
  others.
* `NameUse`: what a name is made for.
* `HandedOut`: a call since the beginning of the file was answered with an identifier.
* `firstFlag`: whether the first call for a name since the last reset said that it is exported.
-/
namespace ExtensionLowering

open List

/-- A call on the name table of a file. -/
inductive NameCall where
  | derivationName (d : Option DerivId)
  | lookupDerivation (d : Option DerivId)
  | exportAlias (name : String) (exported : Bool)
  | hasAlias (name : String)
  | aliases
  | resetFile
  deriving Repr, DecidableEq

/-- A call on a name table. `beginFile` gets the supply in which the names of the file are
reserved. -/
inductive TableCall where
  | beginFile (supply : NameSupply)
  | within (c : NameCall)

inductive NameAnswer where
  | done
  /-- There is nothing to take a name from. -/
  | broken
  | ident (id : Ident)
  | found (id : Option Ident)
  | binding (a : Alias)
  | has (answer : Bool)
  | listed (as : List (String × Alias))
  deriving Repr, DecidableEq

/-- The identifier that an answer hands out. -/
def NameAnswer.given? : NameAnswer → Option Ident
  | .ident id => some id
  | .binding a => some a.ident
  | _ => none

/-- What a name is made for: a derivation, or a file-level name between two resets, of which the
file has had `period` before. -/
inductive NameUse where
  | derivation (d : Option DerivId)
  | fileLevel (period : Nat) (name : String)
  deriving Repr, DecidableEq

namespace NameCall

/-- What a call on the table of a file answers, and the table it leaves. -/
def perform (t : NameTable) : NameCall → NameAnswer × NameTable
  | .derivationName d => ((t.derivationName d).map .ident id)
  | .lookupDerivation d => (.found (t.derivation? d), t)
  | .exportAlias name exported => ((t.exportAlias name exported).map .binding id)
  | .hasAlias name => (.has (t.alias? name).isSome, t)
  | .aliases => (.listed t.sortedAliases, t)
  | .resetFile => (.done, t.reset)

/-- What a call answers before the first file: nothing is named, and there is no supply yet. -/
def early : NameCall → NameAnswer
  | .derivationName _ | .exportAlias .. => .broken
  | .lookupDerivation _ => .found none
  | .hasAlias _ => .has false
  | .aliases => .listed []
  | .resetFile => .done

/-- What a call asks a name for, after `period` resets. -/
def use? (period : Nat) : NameCall → Option NameUse
  | .derivationName d => some (.derivation d)
  | .exportAlias name _ => some (.fileLevel period name)
  | _ => none

/-- What a call says about the export of a name. -/
def flag? (name : String) : NameCall → Option Bool
  | .exportAlias n exported => if n = name then some exported else none
  | _ => none

end NameCall

def TableCall.perform : TableCall → Option NameTable → NameAnswer × Option NameTable
  | .beginFile supply, some t => (.done, some (t.beginFile supply))
  | .beginFile supply, none => (.done, some (.begin supply))
  | .within c, some t => (c.perform t).map id some
  | .within c, none => (c.early, none)

/-- The table that calls leave. Before the first file there is none. -/
def tableAfter (calls : List TableCall) : Option NameTable :=
  calls.foldl (fun t c => (c.perform t).2) none

/-- The answer of a call that follows some others. -/
def answerAfter (calls : List TableCall) (c : NameCall) : NameAnswer :=
  ((TableCall.within c).perform (tableAfter calls)).1

/-- Calls of which the last ones follow the beginning of a file. -/
def inFile (before : List TableCall) (supply : NameSupply) (calls : List NameCall) :
    List TableCall :=
  before ++ .beginFile supply :: calls.map .within

section History

variable {name : String} {calls : List NameCall}

/-- How often the aliases have been reset. -/
def resets (calls : List NameCall) : Nat :=
  calls.count .resetFile

def sinceReset (calls : List NameCall) : List NameCall :=
  (calls.reverse.takeWhile (· ≠ .resetFile)).reverse

/-- Did the first call for an alias since the last reset say that it is exported? -/
def firstFlag (name : String) (calls : List NameCall) : Option Bool :=
  (sinceReset calls).findSome? (·.flag? name)

theorem resets_snoc (calls : List NameCall) (c : NameCall) :
    resets (calls ++ [c]) = resets calls + if c = .resetFile then 1 else 0 := by
  simp [resets, count_append, count_singleton]

theorem firstFlag_reset (name : String) (calls : List NameCall) :
    firstFlag name (calls ++ [.resetFile]) = none := by
  simp [firstFlag, sinceReset]

theorem firstFlag_snoc {c : NameCall} (hc : c ≠ .resetFile) (name : String) :
    firstFlag name (calls ++ [c]) = (firstFlag name calls).or (c.flag? name) := by
  simp [firstFlag, sinceReset, hc, findSome?_append]

end History

/-- A call since the beginning of the file asked for a name for `use`, and was answered with the
identifier `id`. -/
def HandedOut (before : List TableCall) (supply : NameSupply) (calls : List NameCall)
    (use : NameUse) (id : Ident) : Prop :=
  ∃ earlier c later, calls = earlier ++ c :: later ∧ c.use? (resets earlier) = some use ∧
    (answerAfter (inFile before supply earlier) c).given? = some id

theorem handedOut_snoc {before : List TableCall} {supply : NameSupply} {calls : List NameCall}
    {c : NameCall} {use : NameUse} {id : Ident} :
    HandedOut before supply (calls ++ [c]) use id ↔ HandedOut before supply calls use id ∨
      c.use? (resets calls) = some use ∧
        (answerAfter (inFile before supply calls) c).given? = some id := by
  constructor
  · rintro ⟨earlier, c', later, heq, huse, hid⟩
    obtain rfl | ⟨later, last, rfl⟩ := later.eq_nil_or_concat
    · obtain ⟨rfl, hc⟩ := append_inj' heq rfl
      obtain rfl := singleton_inj.1 hc
      exact .inr ⟨huse, hid⟩
    · have hsplit : calls ++ [c] = (earlier ++ c' :: later) ++ [last] := by simp [heq]
      exact .inl ⟨earlier, c', later, (append_inj' hsplit rfl).1, huse, hid⟩
  · rintro (⟨earlier, c', later, rfl, huse, hid⟩ | ⟨huse, hid⟩)
    · exact ⟨earlier, c', later ++ [c], by simp, huse, hid⟩
    · exact ⟨calls, c, [], rfl, huse, hid⟩

/-! ## One call -/

/-- Is a use still in the caches after so many resets? -/
def NameUse.IsLive (period : Nat) : NameUse → Prop
  | .derivation _ => True
  | .fileLevel q _ => q = period

theorem NameCall.use?_isLive {c : NameCall} {period : Nat} {use : NameUse}
    (h : c.use? period = some use) : use.IsLive period := by
  cases c <;> cases h <;> trivial

namespace NameTable

variable {t : NameTable} {period : Nat}

/-- The identifier that the caches hold for a use. -/
def held (t : NameTable) (period : Nat) : NameUse → Option Ident
  | .derivation d => t.derivation? d
  | .fileLevel q name => if q = period then (t.alias? name).map (·.ident) else none

/-- The ways in which a call is answered. -/
inductive Turn (t : NameTable) (period : Nat) : NameCall → Option Ident → NameTable → Prop
  | kept {c : NameCall} {u : NameUse} {id : Ident} (asked : c.use? period = some u)
      (held : t.held period u = some id) : Turn t period c (some id) t
  | named {c : NameCall} {u : NameUse} {id : Ident} {t' : NameTable}
      (asked : c.use? period = some u) (unheld : t.held period u = none)
      (issues : t.supply.Issues id t'.supply)
      (held : t'.held period = Function.update (t.held period) u (some id)) :
      Turn t period c (some id) t'
  | idle {c : NameCall} (asked : c.use? period = none) (within : c ≠ .resetFile) :
      Turn t period c none t
  | reset : Turn t period .resetFile none t.reset

theorem derivationName_turn (t : NameTable) (period : Nat) (d : Option DerivId) :
    Turn t period (.derivationName d) (some (t.derivationName d).1) (t.derivationName d).2 := by
  cases h : t.derivation? d with
  | some id =>
    simp only [derivationName, h]
    exact .kept rfl h
  | none =>
    simp only [derivationName, h]
    refine .named (u := .derivation d) rfl h (t.supply.next_issues "derived") ?_
    funext use
    cases use with
    | derivation d' =>
      by_cases hd : d' = d
      · simp [held, derivation?, hd]
      · simp [held, derivation?, lookup_cons, hd, beq_false_of_ne hd]
    | fileLevel q name => simp [held, alias?]

theorem exportAlias_turn (t : NameTable) (period : Nat) (name : String) (exported : Bool) :
    Turn t period (.exportAlias name exported) (some (t.exportAlias name exported).1.ident)
      (t.exportAlias name exported).2 := by
  cases h : t.alias? name with
  | some a =>
    simp only [exportAlias, h]
    exact .kept rfl (by simp [held, h])
  | none =>
    simp only [exportAlias, h]
    refine .named (u := .fileLevel period name) rfl (by simp [held, h])
      (t.supply.next_issues name) ?_
    funext use
    cases use with
    | derivation d => simp [held, derivation?]
    | fileLevel q name' =>
      by_cases hq : q = period
      · by_cases hname : name' = name
        · simp [held, alias?, hq, hname]
        · simp [held, alias?, lookup_cons, hq, hname, beq_false_of_ne hname]
      · simp [held, hq]

theorem perform_turn (t : NameTable) (period : Nat) (c : NameCall) :
    Turn t period c (c.perform t).1.given? (c.perform t).2 := by
  cases c with
  | derivationName d => exact t.derivationName_turn period d
  | exportAlias name exported => exact t.exportAlias_turn period name exported
  | lookupDerivation | hasAlias | aliases => exact .idle rfl nofun
  | resetFile => exact .reset

/-- How the identifiers `handed` out so far stand to the table, after so many resets. -/
structure Recorded (supply : NameSupply) (period : Nat) (handed : NameUse → Ident → Prop)
    (t : NameTable) : Prop where
  /-- The caches hold what was handed out for the uses that are still live. -/
  held : ∀ use id, t.held period use = some id ↔ use.IsLive period ∧ handed use id
  period : ∀ q name id, handed (.fileLevel q name) id → q ≤ period
  reserved : supply.taken ⊆ t.supply.taken
  taken : ∀ use id, handed use id → id.name ∈ t.supply.taken
  fresh : ∀ use id, handed use id → id.name ∉ supply.taken
  unique : ∀ use id id', handed use id → handed use id' → id = id'
  apart : ∀ use use' id id', handed use id → handed use' id' → use ≠ use' → id.name ≠ id'.name

namespace Recorded

variable {supply : NameSupply} {handed : NameUse → Ident → Prop}

theorem begin (supply : NameSupply) : Recorded supply 0 (fun _ _ => False) (.begin supply) where
  held use id := by
    have hnone : NameTable.held (.begin supply) 0 use = none := by
      cases use <;> simp [NameTable.held, NameTable.begin, derivation?, alias?]
    simp [hnone]
  period _ _ _ h := h.elim
  reserved := List.Subset.refl _
  taken _ _ h := h.elim
  fresh _ _ h := h.elim
  unique _ _ _ h := h.elim
  apart _ _ _ _ h := h.elim

/-- A live use that the caches do not hold gets a new identifier. -/
theorem named (h : Recorded supply period handed t) {use : NameUse} {id : Ident} {t' : NameTable}
    (hlive : use.IsLive period) (hunheld : t.held period use = none)
    (hissues : t.supply.Issues id t'.supply)
    (hheld : t'.held period = Function.update (t.held period) use (some id)) :
    Recorded supply period (fun u i => handed u i ∨ u = use ∧ i = id) t' := by
  have hnew : ∀ i, ¬ handed use i := fun i hi => by
    have := (h.held use i).2 ⟨hlive, hi⟩
    rw [hunheld] at this
    cases this
  have hold : ∀ u i, handed u i → i.name ≠ id.name := fun u i hi heq =>
    hissues.fresh (heq ▸ h.taken u i hi)
  refine ⟨fun u i => ?_, ?_, ?_, ?_, ?_, ?_, ?_⟩
  · rw [hheld, Function.update_apply]
    by_cases hu : u = use
    · subst hu
      simp [hlive, hnew, eq_comm]
    · simp [hu, h.held]
  · rintro q name i (hi | ⟨rfl, -⟩)
    · exact h.period q name i hi
    · exact Nat.le_of_eq hlive
  · rw [hissues.taken]
    exact subset_cons_of_subset _ h.reserved
  · rw [hissues.taken]
    rintro u i (hi | ⟨-, rfl⟩)
    · exact mem_cons_of_mem _ (h.taken u i hi)
    · exact mem_cons_self
  · rintro u i (hi | ⟨-, rfl⟩)
    · exact h.fresh u i hi
    · exact fun hmem => hissues.fresh (h.reserved hmem)
  · rintro u i i' (hi | ⟨rfl, rfl⟩) (hi' | ⟨hu, rfl⟩)
    · exact h.unique u i i' hi hi'
    · exact absurd (hu ▸ hi) (hnew i)
    · exact absurd hi' (hnew i')
    · rfl
  · rintro u u' i i' (hi | ⟨rfl, rfl⟩) (hi' | ⟨rfl, rfl⟩) hne
    · exact h.apart u u' i i' hi hi' hne
    · exact hold u i hi
    · exact (hold u' i' hi').symm
    · exact absurd rfl hne

/-- After a reset the aliases made before are out of the caches, but their names stay taken. -/
theorem reset (h : Recorded supply period handed t) :
    Recorded supply (period + 1) handed t.reset where
  held use id := by
    cases use with
    | derivation d => exact h.held (.derivation d) id
    | fileLevel q name =>
      have hold : ¬ (q = period + 1 ∧ handed (.fileLevel q name) id) := by
        rintro ⟨rfl, hid⟩
        have := h.period _ _ _ hid
        omega
      simpa [NameTable.held, NameTable.reset, alias?, NameUse.IsLive] using hold
  period q name id hid := Nat.le_succ_of_le (h.period q name id hid)
  reserved := h.reserved
  taken := h.taken
  fresh := h.fresh
  unique := h.unique
  apart := h.apart

/-- What one call adds to the identifiers handed out. -/
theorem turn (h : Recorded supply period handed t) {c : NameCall} {given : Option Ident}
    {t' : NameTable} (hturn : Turn t period c given t') :
    Recorded supply (period + if c = .resetFile then 1 else 0)
      (fun use id => handed use id ∨ c.use? period = some use ∧ given = some id) t' := by
  have hsame : (∀ use id, c.use? period = some use → given = some id → handed use id) →
      (fun use id => handed use id ∨ c.use? period = some use ∧ given = some id) = handed := by
    intro hknown
    funext use id
    exact propext ⟨fun hor => hor.elim (fun h => h) fun ⟨huse, hid⟩ => hknown use id huse hid, .inl⟩
  have hasked : ∀ {use}, c.use? period = some use → c ≠ .resetFile := by
    rintro use huse rfl
    cases huse
  cases hturn with
  | kept asked hheld =>
    rw [if_neg (hasked asked), Nat.add_zero, hsame]
    · exact h
    · intro use id huse hid
      obtain rfl := Option.some.inj (asked.symm.trans huse)
      obtain rfl := Option.some.inj hid
      exact ((h.held _ _).1 hheld).2
  | named asked hunheld hissues hheld =>
    rw [if_neg (hasked asked), Nat.add_zero]
    have hnamed := h.named (NameCall.use?_isLive asked) hunheld hissues hheld
    simpa [asked, eq_comm] using hnamed
  | idle asked within =>
    rw [if_neg within, Nat.add_zero, hsame fun use id huse => by simp [asked] at huse]
    exact h
  | reset =>
    rw [if_pos rfl, hsame fun use id huse => by cases huse]
    exact h.reset

end Recorded

end NameTable

/-! ## All calls since the beginning of a file -/

/-- The table of a file after some calls. -/
def fileTable (supply : NameSupply) (calls : List NameCall) : NameTable :=
  calls.foldl (fun t c => (c.perform t).2) (.begin supply)

section Session

variable {before : List TableCall} {supply : NameSupply} {calls : List NameCall}

theorem fileTable_snoc (supply : NameSupply) (calls : List NameCall) (c : NameCall) :
    fileTable supply (calls ++ [c]) = (c.perform (fileTable supply calls)).2 := by
  simp [fileTable]

/-- What was called before the beginning of a file is forgotten. -/
theorem tableAfter_inFile (before : List TableCall) (supply : NameSupply) (calls : List NameCall) :
    tableAfter (inFile before supply calls) = some (fileTable supply calls) := by
  induction calls using reverseRecOn with
  | nil =>
    simp only [tableAfter, inFile, map_nil, foldl_append, foldl_cons,
      foldl_nil]
    cases before.foldl (fun t c => (c.perform t).2) none <;> rfl
  | append_singleton calls c ih =>
    have hsnoc : inFile before supply (calls ++ [c]) =
        inFile before supply calls ++ [.within c] := by simp [inFile]
    rw [hsnoc, tableAfter, foldl_append, ← tableAfter, ih, fileTable_snoc]
    rfl

theorem answerAfter_inFile (before : List TableCall) (supply : NameSupply)
    (calls : List NameCall) (c : NameCall) :
    answerAfter (inFile before supply calls) c = (c.perform (fileTable supply calls)).1 := by
  rw [answerAfter, tableAfter_inFile]
  rfl

theorem fileTable_recorded (before : List TableCall) (supply : NameSupply) (calls : List NameCall) :
    (fileTable supply calls).Recorded supply (resets calls) (HandedOut before supply calls) := by
  induction calls using reverseRecOn with
  | nil =>
    have hnil : HandedOut before supply [] = fun _ _ => False := by
      funext use id
      simp [HandedOut]
    rw [hnil]
    exact .begin supply
  | append_singleton calls c ih =>
    have hsnoc : HandedOut before supply (calls ++ [c]) = fun use id =>
        HandedOut before supply calls use id ∨ c.use? (resets calls) = some use ∧
          (c.perform (fileTable supply calls)).1.given? = some id := by
      funext use id
      rw [handedOut_snoc, answerAfter_inFile]
    rw [hsnoc, resets_snoc, fileTable_snoc]
    exact ih.turn ((fileTable supply calls).perform_turn (resets calls) c)

/-! ### Aliases -/

theorem firstFlag_isSome (name : String) (calls : List NameCall) :
    (firstFlag name calls).isSome ↔ ∃ exported, .exportAlias name exported ∈ sinceReset calls := by
  rw [firstFlag, findSome?_isSome_iff]
  constructor
  · rintro ⟨c, hc, hflag⟩
    cases c with
    | exportAlias n exported =>
      obtain rfl : n = name := by simpa [NameCall.flag?] using hflag
      exact ⟨exported, hc⟩
    | _ => simp [NameCall.flag?] at hflag
  · rintro ⟨exported, hmem⟩
    exact ⟨_, hmem, by simp [NameCall.flag?]⟩

namespace NameTable

theorem exportAlias_exported (t : NameTable) (name : String) (exported : Bool) :
    (t.exportAlias name exported).1.exported =
      ((t.alias? name).map (·.exported)).getD exported := by
  cases h : t.alias? name <;> simp [exportAlias, h]

theorem alias?_exportAlias (t : NameTable) (name : String) (exported : Bool) (x : String) :
    ((t.exportAlias name exported).2.alias? x).map (·.exported) =
      ((t.alias? x).map (·.exported)).or (if name = x then some exported else none) := by
  cases h : t.alias? name with
  | some a =>
    by_cases hx : name = x
    · subst hx
      simp [exportAlias, h]
    · simp [exportAlias, h, hx]
  | none =>
    by_cases hx : name = x
    · subst hx
      simp only [alias?] at h
      simp [exportAlias, alias?, h]
    · have hne : (x == name) = false := beq_false_of_ne (Ne.symm hx)
      simp only [exportAlias, h]
      simp [alias?, lookup_cons, hne, hx]

theorem derivationName_aliases (t : NameTable) (d : Option DerivId) :
    (t.derivationName d).2.aliases = t.aliases := by
  cases h : t.derivation? d <;> simp [derivationName, h]

theorem exportAlias_keys {t : NameTable} (h : (t.aliases.map (·.1)).Nodup) (name : String)
    (exported : Bool) : ((t.exportAlias name exported).2.aliases.map (·.1)).Nodup := by
  cases ha : t.alias? name with
  | some a => simpa [exportAlias, ha] using h
  | none =>
    have hnew : name ∉ t.aliases.map (·.1) := fun hmem => by
      obtain ⟨e, he, rfl⟩ := mem_map.1 hmem
      simpa using lookup_eq_none_iff.1 ha e he
    simpa [exportAlias, ha] using nodup_cons.2 ⟨hnew, h⟩

end NameTable

/-- The flag of an alias is that of the first call since the last reset. -/
theorem fileTable_flag (supply : NameSupply) (calls : List NameCall) (name : String) :
    ((fileTable supply calls).alias? name).map (·.exported) = firstFlag name calls := by
  induction calls using reverseRecOn with
  | nil => rfl
  | append_singleton calls c ih =>
    rw [fileTable_snoc]
    by_cases hreset : c = .resetFile
    · subst hreset
      rw [firstFlag_reset]
      rfl
    · rw [firstFlag_snoc hreset, ← ih]
      cases c with
      | exportAlias n exported => exact NameTable.alias?_exportAlias _ n exported name
      | derivationName d =>
        simp [NameCall.perform, NameCall.flag?, NameTable.alias?,
          NameTable.derivationName_aliases]
      | resetFile => exact absurd rfl hreset
      | _ => simp [NameCall.perform, NameCall.flag?]

theorem fileTable_keys (supply : NameSupply) (calls : List NameCall) :
    ((fileTable supply calls).aliases.map (·.1)).Nodup := by
  induction calls using reverseRecOn with
  | nil => exact nodup_nil
  | append_singleton calls c ih =>
    rw [fileTable_snoc]
    cases c with
    | exportAlias n exported => exact NameTable.exportAlias_keys ih n exported
    | derivationName d => simpa [NameCall.perform, NameTable.derivationName_aliases] using ih
    | resetFile => exact nodup_nil
    | _ => exact ih

theorem sortedAliases_perm (t : NameTable) : t.sortedAliases.Perm t.aliases :=
  mergeSort_perm _ _

/-- An alias is in the table as long as it was handed out since the last reset. -/
theorem mem_aliases_iff (before : List TableCall) (supply : NameSupply) (calls : List NameCall)
    (name : String) (a : Alias) :
    (name, a) ∈ (fileTable supply calls).aliases ↔
      HandedOut before supply calls (.fileLevel (resets calls) name) a.ident ∧
        firstFlag name calls = some a.exported := by
  have hrecorded := (fileTable_recorded before supply calls).held (.fileLevel (resets calls) name)
  rw [← fileTable_flag supply calls]
  constructor
  · intro hmem
    have hlookup : (fileTable supply calls).alias? name = some a :=
      lookup_of_mem_nodup (fileTable_keys supply calls) hmem
    refine ⟨((hrecorded a.ident).1 ?_).2, by rw [hlookup, Option.map_some]⟩
    rw [NameTable.held, if_pos rfl, hlookup, Option.map_some]
  · rintro ⟨hout, hflag⟩
    have hheld := (hrecorded a.ident).2 ⟨rfl, hout⟩
    rw [NameTable.held, if_pos rfl] at hheld
    obtain ⟨b, hb, hident⟩ := Option.map_eq_some_iff.1 hheld
    obtain ⟨b', hb', hexported⟩ := Option.map_eq_some_iff.1 hflag
    obtain rfl : b' = b := Option.some.inj (hb'.symm.trans hb)
    have hba : b' = a := by
      cases b'
      cases a
      simp_all
    exact mem_of_lookup (hba ▸ hb)

/-- The answers since the beginning of a file, whatever was called before it. Each use of a name has
one identifier and no two uses have the same name, nor does any have a reserved one. A derivation is
found exactly if it was named, and has its name in spite of resets. The aliases are those asked for
since the last reset, each exported if the first call said so. -/
theorem names_cached (before : List TableCall) (supply : NameSupply) (calls : List NameCall) :
    (∀ use id use' id', HandedOut before supply calls use id →
      HandedOut before supply calls use' id' →
        id.name ∉ supply.taken ∧ (use = use' → id = id') ∧ (use ≠ use' → id.name ≠ id'.name)) ∧
    (∀ d, ∃ id, answerAfter (inFile before supply calls) (.derivationName d) = .ident id ∧
      HandedOut before supply (calls ++ [.derivationName d]) (.derivation d) id) ∧
    (∀ d, ∃ found, answerAfter (inFile before supply calls) (.lookupDerivation d) = .found found ∧
      ∀ id, found = some id ↔ HandedOut before supply calls (.derivation d) id) ∧
    (∀ name exported, ∃ a,
      answerAfter (inFile before supply calls) (.exportAlias name exported) = .binding a ∧
      a.exported = (firstFlag name calls).getD exported ∧
      HandedOut before supply (calls ++ [.exportAlias name exported])
        (.fileLevel (resets calls) name) a.ident) ∧
    (∀ name, ∃ b, answerAfter (inFile before supply calls) (.hasAlias name) = .has b ∧
      (b ↔ ∃ exported, .exportAlias name exported ∈ sinceReset calls)) ∧
    (∃ as, answerAfter (inFile before supply calls) .aliases = .listed as ∧
      (as.map (·.1)).Nodup ∧
      ∀ name a, (name, a) ∈ as ↔
        HandedOut before supply calls (.fileLevel (resets calls) name) a.ident ∧
          firstFlag name calls = some a.exported) := by
  have h := fileTable_recorded before supply calls
  refine ⟨fun use id use' id' hid hid' => ⟨h.fresh use id hid, ?_, h.apart use use' id id' hid hid'⟩,
    fun d => ?_, fun d => ?_, fun name exported => ?_, fun name => ?_, ?_⟩
  · rintro rfl
    exact h.unique use id id' hid hid'
  · have hanswer := answerAfter_inFile before supply calls (.derivationName d)
    exact ⟨_, hanswer, calls, _, [], rfl, rfl, by rw [hanswer]; rfl⟩
  · refine ⟨_, answerAfter_inFile before supply calls (.lookupDerivation d), fun id => ?_⟩
    exact (h.held (.derivation d) id).trans (and_iff_right trivial)
  · have hanswer := answerAfter_inFile before supply calls (.exportAlias name exported)
    refine ⟨_, hanswer, ?_, calls, _, [], rfl, rfl, by rw [hanswer]; rfl⟩
    rw [← fileTable_flag supply calls]
    exact NameTable.exportAlias_exported _ name exported
  · refine ⟨_, answerAfter_inFile before supply calls (.hasAlias name), ?_⟩
    rw [← firstFlag_isSome, ← fileTable_flag supply calls, Option.isSome_map]
  · refine ⟨_, answerAfter_inFile before supply calls .aliases, ?_, fun name a => ?_⟩
    · exact ((sortedAliases_perm _).map _).nodup_iff.2 (fileTable_keys supply calls)
    · rw [(sortedAliases_perm _).mem_iff, mem_aliases_iff]

/-- An alias asked for on both sides of a reset, and a derivation named before it. -/
def resetCalls : List NameCall :=
  [.derivationName (some 0), .exportAlias "map" true, .resetFile, .exportAlias "map" false]

theorem names_cached_resetCalls :
    let before : List TableCall := [.beginFile {}, .within (.derivationName (some 0))]
    let supply : NameSupply := { taken := ["derived_1"] }
    ∃ d a b, HandedOut before supply resetCalls (.derivation (some 0)) d ∧
      HandedOut before supply resetCalls (.fileLevel 0 "map") a ∧
      HandedOut before supply resetCalls (.fileLevel 1 "map") b ∧
      d.name ≠ "derived_1" ∧ a.name ≠ b.name ∧
      answerAfter (inFile before supply resetCalls) (.lookupDerivation (some 0)) =
        .found (some d) := by
  intro before supply
  obtain ⟨hapart, -, hlookup, -⟩ := names_cached before supply resetCalls
  have hd : HandedOut before supply resetCalls (.derivation (some 0))
      ((NameSupply.next supply "derived").1) := ⟨[], _, _, rfl, rfl, rfl⟩
  have ha : HandedOut before supply resetCalls (.fileLevel 0 "map")
      { name := "map_1", token := .synthetic "map_1", mark := some 1 } :=
    ⟨resetCalls.take 1, _, _, rfl, rfl, by decide +kernel⟩
  have hb : HandedOut before supply resetCalls (.fileLevel 1 "map")
      { name := "map_2", token := .synthetic "map_2", mark := some 2 } :=
    ⟨resetCalls.take 3, _, _, rfl, rfl, by decide +kernel⟩
  refine ⟨_, _, _, hd, ha, hb, fun h => ?_, (hapart _ _ _ _ ha hb).2.2 (by decide), ?_⟩
  · exact (hapart _ _ _ _ hd hd).1 (h ▸ mem_singleton_self _)
  · obtain ⟨found, hanswer, hfound⟩ := hlookup (some 0)
    rw [hanswer, (hfound _).2 hd]

end Session

end ExtensionLowering
