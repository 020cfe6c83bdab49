import ExtensionLowering.Proofs.Reading.Literal
import Mathlib.Data.List.Forall2
/-!
# Quotations

A sequence of bytes is read as characters, a byte at which no character begins as the replacement
character. The text is quoted, and the quotation, read as a literal of the printed language, stands
for the units of the text.

## Main definitions

* `utf8`: the bytes of a character.
* `Decodes`: the characters that bytes stand for.

## Main results

* `decodes_iff`: bytes stand for one text, which `ofBytes` computes.
* `quotation_evaluates`: a quotation is a well-formed literal of the units of its text, and tells
  it.
-/
namespace ExtensionLowering.Grammar

open List

open Text

variable {bytes : List Nat} (c : Char)

/-! ## Bytes and characters -/

/-- The bytes of a character. -/
def utf8 (c : Char) : List Nat :=
  (String.utf8EncodeChar c).map UInt8.toNat

/-- `Decodes bytes cs`: the bytes are the encodings of `cs`, where the replacement character stands
for any byte at which no encoding begins. -/
inductive Decodes : List Nat → List Char → Prop
  | nil : Decodes [] []
  | char (c : Char) {bytes : List Nat} {cs : List Char} (h : Decodes bytes cs) :
      Decodes (utf8 c ++ bytes) (c :: cs)
  | stray {b : Nat} {bytes : List Nat} {cs : List Char} (hb : ∀ c, ¬ utf8 c <+: b :: bytes)
      (h : Decodes bytes cs) : Decodes (b :: bytes) ('�' :: cs)

theorem isContinuation_iff {b : Nat} : isContinuation b ↔ 0x80 ≤ b ∧ b ≤ 0xbf := by
  simp [isContinuation]

theorem toNat_lt : c.toNat < 0xd800 ∨ 0xdfff < c.toNat ∧ c.toNat ≤ 0x10ffff := by
  have hc := c.valid
  simp only [UInt32.isValidChar, Nat.isValidChar, Char.toNat_val] at hc
  omega

theorem toNat_ofNat {v : Nat} (h : v < 0xd800 ∨ 0xdfff < v ∧ v ≤ 0x10ffff) :
    (Char.ofNat v).toNat = v := by
  have hv : v.isValidChar := by
    simp only [Nat.isValidChar]
    omega
  rw [Char.ofNat, dif_pos hv]
  rfl

/-- The bytes of a code point, from the highest digits to the lowest. -/
theorem utf8_eq :
    utf8 c =
      if c.toNat ≤ 0x7f then [c.toNat]
      else if c.toNat ≤ 0x7ff then [0xc0 + c.toNat / 0x40, 0x80 + c.toNat % 0x40]
      else if c.toNat ≤ 0xffff then
        [0xe0 + c.toNat / 0x1000, 0x80 + c.toNat / 0x40 % 0x40, 0x80 + c.toNat % 0x40]
      else
        [0xf0 + c.toNat / 0x40000, 0x80 + c.toNat / 0x1000 % 0x40, 0x80 + c.toNat / 0x40 % 0x40,
          0x80 + c.toNat % 0x40] := by
  have hc := toNat_lt c
  simp only [utf8, String.utf8EncodeChar, Char.toNat_val]
  split_ifs <;> simp only [map_cons, map_nil, UInt8.toNat_ofNat', cons.injEq,
    and_true] <;> omega

/-- A character is read off the front of the bytes only where its encoding stands. -/
theorem isPrefix_of_firstChar? {c : Char} {n : Nat} (h : firstChar? bytes = some (c, n)) :
    utf8 c <+: bytes := by
  unfold firstChar? at h
  split at h
  · cases h
  next a rest =>
  split_ifs at h with hone htwo hthree hfour
  · simp only [Option.some.injEq, Prod.mk.injEq] at h
    obtain ⟨rfl, rfl⟩ := h
    rw [utf8_eq, toNat_ofNat (by omega), if_pos (by omega)]
    exact ⟨rest, rfl⟩
  · split at h
    · next b rest =>
      simp only [Option.ite_none_right_eq_some, Bool.and_eq_true, decide_eq_true_eq,
        isContinuation_iff, Option.some.injEq, Prod.mk.injEq] at h htwo
      obtain ⟨hbytes, rfl, rfl⟩ := h
      rw [utf8_eq, toNat_ofNat (by omega), if_neg (by omega), if_pos (by omega)]
      refine ⟨rest, ?_⟩
      simp only [cons_append, nil_append, cons.injEq, and_true]
      omega
    · cases h
  · split at h
    · next b d rest =>
      simp only [Option.ite_none_right_eq_some, Bool.and_eq_true, Bool.not_eq_true',
        Bool.and_eq_false_iff, decide_eq_true_eq, decide_eq_false_iff_not, isContinuation_iff,
        Option.some.injEq, Prod.mk.injEq] at h hthree
      obtain ⟨hbytes, rfl, rfl⟩ := h
      rw [utf8_eq, toNat_ofNat (by omega), if_neg (by omega), if_neg (by omega),
        if_pos (by omega)]
      refine ⟨rest, ?_⟩
      simp only [cons_append, nil_append, cons.injEq, and_true]
      omega
    · cases h
  · split at h
    · next b d e rest =>
      simp only [Option.ite_none_right_eq_some, Bool.and_eq_true, decide_eq_true_eq,
        isContinuation_iff, Option.some.injEq, Prod.mk.injEq] at h hfour
      obtain ⟨hbytes, rfl, rfl⟩ := h
      rw [utf8_eq, toNat_ofNat (by omega), if_neg (by omega), if_neg (by omega),
        if_neg (by omega)]
      refine ⟨rest, ?_⟩
      simp only [cons_append, nil_append, cons.injEq, and_true]
      omega
    · cases h

/-- The encoding of a character is read as that character, whatever follows it. -/
theorem firstChar?_utf8 (rest : List Nat) :
    firstChar? (utf8 c ++ rest) = some (c, (utf8 c).length) := by
  have hc := toNat_lt c
  have hcont (v : Nat) : isContinuation (0x80 + v % 0x40) := by
    rw [isContinuation_iff]
    omega
  rw [utf8_eq]
  split_ifs with hone htwo hthree
  · simp only [cons_append, firstChar?]
    rw [if_pos (by omega), Char.ofNat_toNat]
    rfl
  · have hsum : (0xc0 + c.toNat / 0x40 - 0xc0) * 0x40 + (0x80 + c.toNat % 0x40 - 0x80) =
        c.toNat := by omega
    simp only [cons_append, firstChar?, hcont, hsum]
    rw [if_neg (by omega), if_pos (by simp; omega), if_pos trivial, Char.ofNat_toNat]
    rfl
  · have hsum : (0xe0 + c.toNat / 0x1000 - 0xe0) * 0x1000 +
        (0x80 + c.toNat / 0x40 % 0x40 - 0x80) * 0x40 + (0x80 + c.toNat % 0x40 - 0x80) =
        c.toNat := by omega
    simp only [cons_append, firstChar?, hcont, hsum]
    rw [if_neg (by omega), if_neg (by simp; omega), if_pos (by simp; omega),
      if_pos (by simp; omega), Char.ofNat_toNat]
    rfl
  · have hsum : (0xf0 + c.toNat / 0x40000 - 0xf0) * 0x40000 +
        (0x80 + c.toNat / 0x1000 % 0x40 - 0x80) * 0x1000 +
        (0x80 + c.toNat / 0x40 % 0x40 - 0x80) * 0x40 + (0x80 + c.toNat % 0x40 - 0x80) =
        c.toNat := by omega
    simp only [cons_append, firstChar?, hcont, hsum]
    rw [if_neg (by omega), if_neg (by simp; omega), if_neg (by simp; omega),
      if_pos (by simp; omega), if_pos (by simp; omega), Char.ofNat_toNat]
    rfl

theorem charsSkipping_eq_drop (skip : Nat) (bytes : List Nat) :
    charsSkipping skip bytes = charsOrStrays (bytes.drop skip) := by
  induction bytes generalizing skip with
  | nil => cases skip <;> simp [charsOrStrays, charsSkipping]
  | cons b bytes ih =>
    cases skip with
    | zero => rfl
    | succ skip => simpa [charsSkipping] using ih skip

theorem utf8_ne_nil : utf8 c ≠ [] := by
  rw [utf8_eq]
  split_ifs <;> simp

theorem charsOrStrays_utf8 (bytes : List Nat) :
    charsOrStrays (utf8 c ++ bytes) = .ok c :: charsOrStrays bytes := by
  obtain ⟨b, tail, htail⟩ := exists_cons_of_ne_nil (utf8_ne_nil c)
  have hfirst := firstChar?_utf8 c bytes
  rw [htail, cons_append] at hfirst ⊢
  rw [charsOrStrays, charsSkipping, hfirst]
  simp [charsSkipping_eq_drop]

theorem charsOrStrays_stray {b : Nat} (hb : ∀ c, ¬ utf8 c <+: b :: bytes) :
    charsOrStrays (b :: bytes) = .error b :: charsOrStrays bytes := by
  have hfirst : firstChar? (b :: bytes) = none := by
    by_contra hsome
    obtain ⟨⟨c, n⟩, hcn⟩ := Option.ne_none_iff_exists'.1 hsome
    exact hb c (isPrefix_of_firstChar? hcn)
  rw [charsOrStrays, charsSkipping, hfirst]
  rfl

/-- Every sequence of bytes stands for a text. -/
theorem decodes_charsOrStrays (bytes : List Nat) :
    Decodes bytes ((charsOrStrays bytes).map charOrReplacement) := by
  induction h : bytes.length using Nat.strongRecOn generalizing bytes with
  | ind k ih =>
    subst h
    by_cases hchar : ∃ c, utf8 c <+: bytes
    · obtain ⟨c, rest, rfl⟩ := hchar
      have hshort : rest.length < (utf8 c ++ rest).length := by
        simpa using length_pos_of_ne_nil (utf8_ne_nil c)
      rw [charsOrStrays_utf8]
      exact .char c (ih _ hshort rest rfl)
    · cases bytes with
      | nil => exact .nil
      | cons b bytes =>
        rw [charsOrStrays_stray (not_exists.1 hchar)]
        exact .stray (not_exists.1 hchar) (ih _ (by simp) bytes rfl)

/-- A sequence of bytes stands for one text. -/
theorem decodes_iff {s : String} : Decodes bytes s.toList ↔ s = ofBytes bytes := by
  have hchars {cs : List Char} (h : Decodes bytes cs) :
      cs = (charsOrStrays bytes).map charOrReplacement := by
    induction h with
    | nil => rfl
    | char c _ ih => rw [charsOrStrays_utf8, ih]; rfl
    | stray hb _ ih => rw [charsOrStrays_stray hb, ih]; rfl
  constructor
  · intro h
    rw [ofBytes, ← hchars h, String.ofList_toList]
  · rintro rfl
    rw [ofBytes, String.toList_ofList]
    exact decodes_charsOrStrays bytes

theorem ofBytes_utf8 (s : String) : ofBytes (s.toList.flatMap utf8) = s := by
  have hdecodes (cs : List Char) : Decodes (cs.flatMap utf8) cs := by
    induction cs with
    | nil => exact .nil
    | cons c cs ih => exact .char c ih
  exact (decodes_iff.1 (hdecodes s.toList)).symm

/-! ## Quoted texts -/

/-- Printable characters do not end a line. -/
theorem not_isLineEnd_of_isPrintable {c : Char} (h : isPrintable c) : ¬ isLineEnd c := by
  intro hc
  simp only [isLineEnd, Bool.or_eq_true, decide_eq_true_eq, or_assoc] at hc
  rcases hc with rfl | rfl | rfl | rfl
  all_goals exact absurd h (by decide +kernel)

theorem not_isLineEnd_escapeChar : ∀ d ∈ escapeChar c, ¬ isLineEnd d := by
  have hdigit : ∀ d < 16, ¬ isLineEnd d.digitChar := by decide
  unfold escapeChar
  split
  case h_9 =>
    split
    · simpa using not_isLineEnd_of_isPrintable ‹_›
    · intro d hd
      obtain ⟨unit, hunit, hd⟩ := mem_flatMap.1 hd
      rw [unitEscape, hexDigits_four (lt_of_mem_codePointUnits hunit)] at hd
      have hunit := lt_of_mem_codePointUnits hunit
      simp only [mem_cons, not_mem_nil, or_false] at hd
      rcases hd with rfl | rfl | rfl | rfl | rfl | rfl
      · decide
      · decide
      all_goals exact hdigit _ (by omega)
  all_goals simp [isLineEnd]

theorem quote_injective : Function.Injective quote := by
  intro s t h
  have hs := quote_toList s
  rw [h, quote_toList] at hs
  have hbody : t.toList.flatMap escapeChar = s.toList.flatMap escapeChar := by
    simpa using hs
  have hunits := congrArg literalUnits hbody
  rw [literalUnits_quoted, literalUnits_quoted, Option.some_inj] at hunits
  exact utf16_injective hunits.symm

/-- The quotation of the text of any bytes is a body between quotes that none of its characters
closes or breaks, and whose pieces stand for the characters of the text, so the literal stands for
its units. Texts are told apart by the quotations of their bytes. -/
theorem quotation_evaluates :
    (∀ bytes : List Nat, ∃ (s : String) (pieces : List (List Char)),
      (∀ t : String, Decodes bytes t.toList ↔ t = s) ∧
      (quote (ofBytes bytes)).toList = '"' :: pieces.flatten ++ ['"'] ∧
      delimit '"' (pieces.flatten ++ ['"']) = some (pieces.flatten, []) ∧
      (∀ c ∈ pieces.flatten, ¬ isLineEnd c) ∧
      List.Forall₂ (fun piece c => literalUnits piece = some (codePointUnits c.toNat)) pieces
        s.toList ∧
      literalUnits pieces.flatten = some (utf16 s)) ∧
    Function.Injective fun s : String => quote (ofBytes (s.toList.flatMap utf8)) := by
  constructor
  · intro bytes
    refine ⟨ofBytes bytes, (ofBytes bytes).toList.map escapeChar, fun t => decodes_iff, ?_⟩
    rw [← flatMap_def]
    refine ⟨quote_toList _, delimit_quoted _, ?_, ?_, literalUnits_quoted _⟩
    · intro c hc
      obtain ⟨d, _, hd⟩ := mem_flatMap.1 hc
      exact not_isLineEnd_escapeChar d c hd
    · rw [forall₂_map_left_iff, forall₂_same]
      intro c _
      simpa [literalUnits] using literalUnits_escapeChar c []
  · intro s t h
    simp only [ofBytes_utf8] at h
    exact quote_injective h

/-- A quote, a stray byte and a character beyond the first plane that is not printable. -/
theorem quotation_evaluates_escapes :
    quote (ofBytes [0x22, 0xff, 0xf3, 0xa0, 0x80, 0x81]) = "\"\\\"\ufffd\\udb40\\udc01\"" ∧
    ∃ (s : String) (pieces : List (List Char)),
      (∀ t : String, Decodes [0x22, 0xff, 0xf3, 0xa0, 0x80, 0x81] t.toList ↔ t = s) ∧
      (quote (ofBytes [0x22, 0xff, 0xf3, 0xa0, 0x80, 0x81])).toList =
        '"' :: pieces.flatten ++ ['"'] ∧
      delimit '"' (pieces.flatten ++ ['"']) = some (pieces.flatten, []) ∧
      (∀ c ∈ pieces.flatten, ¬ isLineEnd c) ∧
      List.Forall₂ (fun piece c => literalUnits piece = some (codePointUnits c.toNat)) pieces
        s.toList ∧
      literalUnits pieces.flatten = some (utf16 s) :=
  ⟨by decide +kernel, quotation_evaluates.1 _⟩

end ExtensionLowering.Grammar
