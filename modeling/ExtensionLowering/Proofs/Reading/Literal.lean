import ExtensionLowering.Text.Quoted
import Mathlib.Data.List.Basic
/-!
# Literals of the printed language

String literals stand for sequences of UTF-16 units, with the escapes of the language; a text that
is quoted is read back as its own units. Numerals are decimal, with a fraction and an exponent, or
whole numbers in another base; digits may be separated.

## Main definitions

* `utf16`: the units of a text.
* `delimit`: the body of a string literal and what follows it.
* `literalUnits`: the units that the body of a string literal stands for.
* `IsNumeral`: the numeric literals.
-/
namespace ExtensionLowering.Grammar

open List

open Text

variable {c : Char} {cs : List Char} {isDigit : Char → Bool}

/-! ## Units -/

/-- The units of a code point. -/
def codePointUnits (n : Nat) : List Nat :=
  if n ≤ 0xffff then [n] else [0xd800 + (n - 0x10000) / 0x400, 0xdc00 + (n - 0x10000) % 0x400]

/-- The UTF-16 units of a text. -/
def utf16 (s : String) : List Nat :=
  s.toList.flatMap fun c => codePointUnits c.toNat

theorem codePointUnits_ne_nil (n : Nat) : codePointUnits n ≠ [] := by
  unfold codePointUnits
  split <;> simp

/-- The units of a character tell it and where they end. -/
theorem codePointUnits_append_inj {d : Char} {us vs : List Nat}
    (h : codePointUnits c.toNat ++ us = codePointUnits d.toNat ++ vs) : c = d ∧ us = vs := by
  have hc := c.valid
  have hd := d.valid
  simp only [UInt32.isValidChar, Nat.isValidChar] at hc hd
  have hcn : c.val.toNat = c.toNat := rfl
  have hdn : d.val.toNat = d.toNat := rfl
  unfold codePointUnits at h
  by_cases h1 : c.toNat ≤ 0xffff <;> by_cases h2 : d.toNat ≤ 0xffff <;>
    simp only [h1, h2, if_true, if_false, cons_append, nil_append, List.cons.injEq] at h
  · exact ⟨Char.toNat_inj.1 h.1, h.2⟩
  · omega
  · omega
  · exact ⟨Char.toNat_inj.1 (by omega), h.2.2⟩

theorem utf16_injective : Function.Injective utf16 := by
  intro s t h
  have hlists : ∀ cs ds : List Char, cs.flatMap (fun c => codePointUnits c.toNat) =
      ds.flatMap (fun c => codePointUnits c.toNat) → cs = ds := by
    intro cs
    induction cs with
    | nil =>
      intro ds hds
      cases ds with
      | nil => rfl
      | cons d ds => simp [codePointUnits_ne_nil] at hds
    | cons c cs ih =>
      intro ds hds
      cases ds with
      | nil => simp [codePointUnits_ne_nil] at hds
      | cons d ds =>
        obtain ⟨rfl, hrest⟩ := codePointUnits_append_inj hds
        rw [ih ds hrest]
  exact String.toList_injective (hlists _ _ h)

/-! ## String literals -/

/-- The value of a hexadecimal digit. -/
def hexValue? (c : Char) : Option Nat :=
  if c.isDigit then some (c.toNat - '0'.toNat)
  else if 'a' ≤ c ∧ c ≤ 'f' then some (c.toNat - 'a'.toNat + 10)
  else if 'A' ≤ c ∧ c ≤ 'F' then some (c.toNat - 'A'.toNat + 10)
  else none

/-- The number that hexadecimal digits stand for, behind those that stand for `n`. -/
def hexNumber? (n : Nat) : List Char → Option Nat
  | [] => some n
  | c :: cs => (hexValue? c).bind fun d => hexNumber? (n * 16 + d) cs

/-- Characters that end a line. -/
def isLineEnd (c : Char) : Bool :=
  c = '\n' || c = '\r' || c = '\u2028' || c = '\u2029'

/-- The units of an escape by a single character. -/
def escapedUnits? (c : Char) : Option (List Nat) :=
  match c with
  | 'b' => some [8]
  | 't' => some [9]
  | 'n' => some [10]
  | 'v' => some [11]
  | 'f' => some [12]
  | 'r' => some [13]
  | 'u' | 'x' => none
  | c => if c.isDigit then none else some (if isLineEnd c then [] else codePointUnits c.toNat)

mutual

/-- The units that the body of a string literal stands for. -/
def literalUnits : List Char → Option (List Nat)
  | [] => some []
  | '\\' :: 'u' :: '\x7b' :: cs => bracedUnits none cs
  | '\\' :: 'u' :: a :: b :: c :: d :: cs =>
    (hexNumber? 0 [a, b, c, d]).bind fun unit => (literalUnits cs).map (unit :: ·)
  | '\\' :: 'x' :: a :: b :: cs =>
    (hexNumber? 0 [a, b]).bind fun unit => (literalUnits cs).map (unit :: ·)
  | '\\' :: '0' :: cs =>
    if cs.head?.any Char.isDigit then none else (literalUnits cs).map (0 :: ·)
  | '\\' :: '\r' :: '\n' :: cs => literalUnits cs
  | '\\' :: c :: cs => (escapedUnits? c).bind fun units => (literalUnits cs).map (units ++ ·)
  | c :: cs =>
    if c = '\\' || c = '\n' || c = '\r' then none
    else (literalUnits cs).map (codePointUnits c.toNat ++ ·)

/-- The same inside an escape of a code point in braces, of which `n` has been read. -/
def bracedUnits (n : Option Nat) : List Char → Option (List Nat)
  | [] => none
  | '\x7d' :: cs =>
    n.bind fun n =>
      if n ≤ 0x10ffff then (literalUnits cs).map (codePointUnits n ++ ·) else none
  | c :: cs => (hexValue? c).bind fun d => bracedUnits (some (n.getD 0 * 16 + d)) cs

end

/-- The body of a string literal that is closed by `q`, and what follows it. -/
def delimit (q : Char) : List Char → Option (List Char × List Char)
  | [] => none
  | ['\\'] => none
  | '\\' :: c :: cs => (delimit q cs).map fun r => ('\\' :: c :: r.1, r.2)
  | c :: cs => if c = q then some ([], cs) else (delimit q cs).map fun r => (c :: r.1, r.2)

theorem delimit_cons {q : Char} (hc : c ≠ '\\') (cs : List Char) :
    delimit q (c :: cs) =
      if c = q then some ([], cs) else (delimit q cs).map fun r => (c :: r.1, r.2) := by
  simp [delimit, hc]

theorem delimit_append {q : Char} {body rest : List Char} (h : delimit q cs = some (body, rest))
    (more : List Char) : delimit q (cs ++ more) = some (body, rest ++ more) := by
  fun_induction delimit q cs generalizing body rest with
  | case1 => cases h
  | case2 => cases h
  | case3 c cs ih =>
    obtain ⟨r, hr, heq⟩ := Option.map_eq_some_iff.1 h
    cases heq
    simp [delimit, ih hr]
  | case4 cs hone htwo =>
    have hq : q ≠ '\\' := by
      rintro rfl
      cases cs <;> grind
    cases h
    simp [delimit_cons hq]
  | case5 c cs hone htwo hcq ih =>
    have hc : c ≠ '\\' := by
      rintro rfl
      cases cs <;> grind
    obtain ⟨r, hr, heq⟩ := Option.map_eq_some_iff.1 h
    cases heq
    simp [delimit_cons hc, hcq, ih hr]

/-! ## Quoted texts as literals -/

theorem hexDigits_succ {k : Nat} (hk : 0 < k) (n : Nat) :
    hexDigits (k + 1) n = hexDigits k (n / 16) ++ [(n % 16).digitChar] := by
  by_cases h : n < 16
  · have hdiv : n / 16 = 0 := by omega
    have hmod : n % 16 = n := by omega
    obtain ⟨k, rfl⟩ : ∃ j, k = j + 1 := ⟨k - 1, by omega⟩
    simp [hexDigits, hdiv, hmod, Nat.toDigits_of_lt_base h, replicate_succ']
  · have hlong : 16 ≤ n := by omega
    simp [hexDigits, Nat.toDigits_of_base_le (by omega) hlong]

theorem hexDigits_four {n : Nat} (h : n < 0x10000) :
    hexDigits 4 n = [(n / 16 / 16 / 16).digitChar, (n / 16 / 16 % 16).digitChar,
      (n / 16 % 16).digitChar, (n % 16).digitChar] := by
  have hone : hexDigits 1 (n / 16 / 16 / 16) = [(n / 16 / 16 / 16).digitChar] := by
    simp [hexDigits, Nat.toDigits_of_lt_base (show n / 16 / 16 / 16 < 16 by omega)]
  rw [hexDigits_succ (by omega), hexDigits_succ (by omega), hexDigits_succ (by omega), hone]
  rfl

theorem hexValue?_digitChar : ∀ d < 16, hexValue? d.digitChar = some d := by decide

theorem literalUnits_unitEscape {unit : Nat} (h : unit < 0x10000) (cs : List Char) :
    literalUnits (unitEscape unit ++ cs) = (literalUnits cs).map (unit :: ·) := by
  have hvalue : hexNumber? 0 [(unit / 16 / 16 / 16).digitChar, (unit / 16 / 16 % 16).digitChar,
      (unit / 16 % 16).digitChar, (unit % 16).digitChar] = some unit := by
    simp only [hexNumber?, hexValue?_digitChar (unit / 16 / 16 / 16) (by omega),
      hexValue?_digitChar (_ % 16) (Nat.mod_lt _ (by omega)), Option.bind_some]
    rw [Option.some_inj]
    omega
  simp [unitEscape, hexDigits_four h, literalUnits, hvalue]

theorem literalUnits_unitEscapes {units : List Nat} (h : ∀ u ∈ units, u < 0x10000)
    (cs : List Char) :
    literalUnits (units.flatMap unitEscape ++ cs) = (literalUnits cs).map (units ++ ·) := by
  induction units with
  | nil => simp
  | cons unit units ih =>
    rw [flatMap_cons, append_assoc, literalUnits_unitEscape (h unit (by simp)),
      ih fun u hu => h u (by simp [hu])]
    simp [Function.comp_def]

theorem lt_of_mem_codePointUnits {u : Nat} (h : u ∈ codePointUnits c.toNat) : u < 0x10000 := by
  have hc := c.valid
  have hcn : c.val.toNat = c.toNat := rfl
  simp only [UInt32.isValidChar, Nat.isValidChar] at hc
  unfold codePointUnits at h
  split at h <;> simp only [mem_cons, not_mem_nil, or_false] at h <;> omega

/-- An escaped character is read back as its units. -/
theorem literalUnits_escapeChar (c : Char) (cs : List Char) :
    literalUnits (escapeChar c ++ cs) = (literalUnits cs).map (codePointUnits c.toNat ++ ·) := by
  unfold escapeChar
  split
  case h_9 hquote hslash hnl hcr htab hbs hff hvt =>
    split
    · have hc : c ≠ '\\' ∧ c ≠ '\n' ∧ c ≠ '\r' := ⟨hslash, hnl, hcr⟩
      simp [literalUnits, hc]
    · exact literalUnits_unitEscapes (fun u hu => lt_of_mem_codePointUnits hu) cs
  all_goals simp [literalUnits, escapedUnits?, isLineEnd, codePointUnits]

/-- The body of a quoted text is read back as the units of the text. -/
theorem literalUnits_quoted (cs : List Char) :
    literalUnits (cs.flatMap escapeChar) = some (cs.flatMap fun c => codePointUnits c.toNat) := by
  induction cs with
  | nil => rfl
  | cons c cs ih => simp [literalUnits_escapeChar, ih]

theorem delimit_unitEscape {unit : Nat} (h : unit < 0x10000) (cs : List Char) :
    delimit '"' (unitEscape unit ++ cs) =
      (delimit '"' cs).map fun r => (unitEscape unit ++ r.1, r.2) := by
  have hdigit : ∀ d < 16, d.digitChar ≠ '"' ∧ d.digitChar ≠ '\\' := by decide
  have hdigits (d : Nat) := hdigit (d % 16) (Nat.mod_lt _ (by omega))
  have hfirst := hdigit (unit / 16 / 16 / 16) (by omega)
  simp [unitEscape, hexDigits_four h, delimit, delimit_cons, hfirst, hdigits, Function.comp_def]

/-- An escaped character does not close the literal. -/
theorem delimit_escapeChar (c : Char) (cs : List Char) :
    delimit '"' (escapeChar c ++ cs) =
      (delimit '"' cs).map fun r => (escapeChar c ++ r.1, r.2) := by
  unfold escapeChar
  split
  case h_9 hquote hslash hnl hcr htab hbs hff hvt =>
    split
    · simp [delimit_cons hslash, show c ≠ '"' from hquote]
    · have hunits : ∀ u ∈ units16 c, u < 0x10000 := fun u hu => lt_of_mem_codePointUnits hu
      generalize units16 c = units at hunits
      induction units with
      | nil => simp
      | cons unit units ih =>
        rw [flatMap_cons, append_assoc, delimit_unitEscape (hunits unit (by simp)),
          ih fun u hu => hunits u (by simp [hu])]
        simp [Function.comp_def]
  all_goals simp [delimit]

/-- The body of a quoted text is closed by the quote behind it. -/
theorem delimit_quoted (cs : List Char) :
    delimit '"' (cs.flatMap escapeChar ++ ['"']) = some (cs.flatMap escapeChar, []) := by
  induction cs with
  | nil => rfl
  | cons c cs ih => simp [delimit_escapeChar, ih]

theorem quote_toList (s : String) :
    (quote s).toList = '"' :: s.toList.flatMap escapeChar ++ ['"'] := by
  simp [quote]

/-! ## Numerals -/

/-- Digits of a kind, which may be separated by single underscores. -/
inductive Digits (isDigit : Char → Bool) : List Char → Prop
  | one {c : Char} (hc : isDigit c) : Digits isDigit [c]
  | cons {c : Char} {cs : List Char} (hc : isDigit c) (hcs : Digits isDigit cs) :
      Digits isDigit (c :: cs)
  | separated {c : Char} {cs : List Char} (hc : isDigit c) (hcs : Digits isDigit cs) :
      Digits isDigit (c :: '_' :: cs)

/-- A whole decimal number: zero, or digits that do not begin with it. -/
inductive Whole : List Char → Prop
  | zero : Whole ['0']
  | digits {cs : List Char} (hcs : Digits Char.isDigit cs) (hzero : cs.head? ≠ some '0') : Whole cs

/-- An exponent, or nothing. -/
inductive Exponent : List Char → Prop
  | nil : Exponent []
  | digits {e : Char} {sign cs : List Char} (he : e ∈ ['e', 'E'])
      (hsign : sign ∈ [[], ['+'], ['-']]) (hcs : Digits Char.isDigit cs) :
      Exponent (e :: sign ++ cs)

/-- The marks of whole numbers in another base, and their digits. -/
def bases : List (List Char × (Char → Bool)) :=
  [(['x', 'X'], fun c => (hexValue? c).isSome), (['o', 'O'], fun c => '0' ≤ c && c ≤ '7'),
    (['b', 'B'], fun c => c = '0' || c = '1')]

/-- The numeric literals. -/
inductive IsNumeral : List Char → Prop
  | decimal {whole exponent : List Char} (hwhole : Whole whole) (hexp : Exponent exponent) :
      IsNumeral (whole ++ exponent)
  | fraction {whole part exponent : List Char} (hwhole : Whole whole)
      (hpart : part = [] ∨ Digits Char.isDigit part) (hexp : Exponent exponent) :
      IsNumeral (whole ++ '.' :: part ++ exponent)
  | point {part exponent : List Char} (hpart : Digits Char.isDigit part)
      (hexp : Exponent exponent) : IsNumeral ('.' :: part ++ exponent)
  | based {marks : List Char} {isDigit : Char → Bool} {mark : Char} {digits : List Char}
      (hbase : (marks, isDigit) ∈ bases) (hmark : mark ∈ marks) (hdigits : Digits isDigit digits) :
      IsNumeral ('0' :: mark :: digits)
  | big {cs : List Char} (hcs : Whole cs) : IsNumeral (cs ++ ['n'])
  | bigBased {marks : List Char} {isDigit : Char → Bool} {mark : Char} {digits : List Char}
      (hbase : (marks, isDigit) ∈ bases) (hmark : mark ∈ marks) (hdigits : Digits isDigit digits) :
      IsNumeral ('0' :: mark :: digits ++ ['n'])

/-- The characters that numerals are made of. -/
def isNumeralChar (c : Char) : Bool :=
  c.isAlphanum || c ∈ ['.', '_', '+', '-']

theorem Digits.forall {isDigit p : Char → Bool} (h : Digits isDigit cs) (hp : ∀ c, isDigit c → p c)
    (hsep : p '_') : ∀ c ∈ cs, p c := by
  induction h with
  | one hc => simpa using hp _ hc
  | cons hc _ ih => simpa using ⟨hp _ hc, ih⟩
  | separated hc _ ih => simpa using ⟨hp _ hc, hsep, ih⟩

theorem Digits.head (h : Digits isDigit cs) : ∃ c rest, cs = c :: rest ∧ isDigit c := by
  cases h with
  | one hc => exact ⟨_, _, rfl, hc⟩
  | cons hc _ | separated hc _ => exact ⟨_, _, rfl, hc⟩

theorem Whole.head (h : Whole cs) : ∃ c rest, cs = c :: rest ∧ c.isDigit := by
  cases h with
  | zero => exact ⟨_, _, rfl, rfl⟩
  | digits hcs _ => exact hcs.head

/-- A numeral begins with a digit, or with a point that a digit follows. -/
theorem IsNumeral.head (h : IsNumeral cs) :
    ∃ c rest, cs = c :: rest ∧ (c.isDigit ∨ c = '.' ∧ ∃ d ds, rest = d :: ds ∧ d.isDigit) := by
  cases h with
  | decimal hwhole _ | fraction hwhole _ _ | big hwhole =>
    obtain ⟨c, rest, rfl, hc⟩ := hwhole.head
    exact ⟨c, _, rfl, .inl hc⟩
  | point hpart _ =>
    obtain ⟨d, ds, rfl, hd⟩ := hpart.head
    exact ⟨'.', _, rfl, .inr ⟨rfl, d, _, rfl, hd⟩⟩
  | based _ _ _ | bigBased _ _ _ => exact ⟨'0', _, rfl, .inl rfl⟩

theorem isNumeralChar_of_isDigit (h : c.isDigit) : isNumeralChar c := by
  simp [isNumeralChar, Char.isAlphanum, h]

theorem isAlpha_iff : c.isAlpha ↔ 65 ≤ c.toNat ∧ c.toNat ≤ 90 ∨ 97 ≤ c.toNat ∧ c.toNat ≤ 122 := by
  change (decide ('A'.val ≤ c.val ∧ c.val ≤ 'Z'.val) || 'a'.val ≤ c.val && c.val ≤ 'z'.val) ↔ _
  simp [UInt32.le_iff_toNat_le]

theorem isNumeralChar_of_hexValue? (h : (hexValue? c).isSome) : isNumeralChar c := by
  unfold hexValue? at h
  split at h
  · exact isNumeralChar_of_isDigit ‹_›
  · have halpha : c.isAlpha := by
      grind [isAlpha_iff, Char.le_def, UInt32.le_iff_toNat_le, Char.toNat_val]
    simp [isNumeralChar, Char.isAlphanum, halpha]

theorem Digits.chars (h : Digits Char.isDigit cs) : ∀ c ∈ cs, isNumeralChar c :=
  h.forall (fun _ => isNumeralChar_of_isDigit) rfl

theorem Whole.chars (h : Whole cs) : ∀ c ∈ cs, isNumeralChar c := by
  cases h with
  | zero => exact all_eq_true.1 (by decide)
  | digits hcs _ => exact hcs.chars

theorem Exponent.chars (h : Exponent cs) : ∀ c ∈ cs, isNumeralChar c := by
  cases h with
  | nil => simp
  | digits he hsign hcs =>
    have hsigns : ∀ sign ∈ [[], ['+'], ['-']], sign.all isNumeralChar := by decide
    have hmarks : ['e', 'E'].all isNumeralChar := by decide
    intro c hc
    rcases mem_cons.1 hc with rfl | hc
    · exact all_eq_true.1 hmarks _ he
    · exact (mem_append.1 hc).elim (all_eq_true.1 (hsigns _ hsign) c) (hcs.chars c)

theorem bases_chars {marks : List Char} {mark : Char} {digits : List Char}
    (hbase : (marks, isDigit) ∈ bases) (hmark : mark ∈ marks) (hdigits : Digits isDigit digits) :
    ∀ c ∈ '0' :: mark :: digits, isNumeralChar c := by
  have hmarks : ∀ b ∈ bases, b.1.all isNumeralChar := by decide
  have hdigit : ∀ b ∈ bases, ∀ c, b.2 c → isNumeralChar c := by
    intro b hb c hc
    simp only [bases, mem_cons, not_mem_nil, or_false] at hb
    rcases hb with rfl | rfl | rfl
    · exact isNumeralChar_of_hexValue? hc
    · apply isNumeralChar_of_isDigit
      simp [Char.isDigit, Char.le_def, UInt32.le_iff_toNat_le] at hc ⊢
      omega
    · simp only [Bool.or_eq_true, decide_eq_true_eq] at hc
      rcases hc with rfl | rfl <;> rfl
  have hrest := hdigits.forall (hdigit _ hbase) rfl
  have hmark := all_eq_true.1 (hmarks _ hbase) _ hmark
  simp only [forall_mem_cons]
  exact ⟨rfl, hmark, hrest⟩

theorem IsNumeral.chars (h : IsNumeral cs) : ∀ c ∈ cs, isNumeralChar c := by
  have hn : isNumeralChar 'n' := rfl
  cases h with
  | decimal hwhole hexp =>
    exact forall_mem_append.2 ⟨hwhole.chars, hexp.chars⟩
  | @fraction _ part _ hwhole hpart hexp =>
    have hpart : ∀ c ∈ part, isNumeralChar c := hpart.elim (fun h => by simp [h]) Digits.chars
    have hpoint : ∀ c ∈ '.' :: part, isNumeralChar c := forall_mem_cons.2 ⟨rfl, hpart⟩
    exact forall_mem_append.2 ⟨forall_mem_append.2 ⟨hwhole.chars, hpoint⟩, hexp.chars⟩
  | @point part _ hpart hexp =>
    have hpoint : ∀ c ∈ '.' :: part, isNumeralChar c := forall_mem_cons.2 ⟨rfl, hpart.chars⟩
    exact forall_mem_append.2 ⟨hpoint, hexp.chars⟩
  | based hbase hmark hdigits => exact bases_chars hbase hmark hdigits
  | big hcs => exact forall_mem_append.2 ⟨hcs.chars, by simpa using hn⟩
  | bigBased hbase hmark hdigits =>
    exact forall_mem_append.2 ⟨bases_chars hbase hmark hdigits, by simpa using hn⟩

end ExtensionLowering.Grammar
