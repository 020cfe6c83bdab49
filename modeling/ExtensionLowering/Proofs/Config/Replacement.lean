import ExtensionLowering.Config.Rule
import ExtensionLowering.Proofs.Pattern.Replace
/-!
# How a rule fills in its replacement

A replacement is written as text with references to groups, each a dollar sign and a number. A rule
keeps its references in braces and reads the result as a template. Here it is shown that the template
has the same text and the same references, wherever a reference ends: at a letter, at another
reference or at the end. In a path that a rule matches, every successive match is replaced by the
text with its groups filled in.

## Main definitions

* `ReplacementPart`: a text or a reference of a replacement.
* `ReplacementPart.Legible`: parts that can be told apart once they are written.
-/
namespace ExtensionLowering

open List

open Pattern

variable {n : Nat}

/-! ## Parts of a replacement -/

inductive ReplacementPart where
  | text (cs : List Char)
  | reference (n : Nat)

namespace ReplacementPart

/-- A part as it is written in a configuration. -/
def written : ReplacementPart → List Char
  | .text cs => cs
  | .reference n => '$' :: Nat.toDigits 10 n

/-- A part as a rule keeps it. -/
def braced : ReplacementPart → List Char
  | .text cs => cs
  | .reference n => '$' :: '\x7b' :: (Nat.toDigits 10 n ++ ['\x7d'])

/-- The pieces of the template that a part becomes. -/
def pieces : ReplacementPart → Template
  | .text cs => cs.map .text
  | .reference n => [.group n]

/-- A part with the group it refers to filled in. A group that the match has not is empty. -/
def filled (text : Array Char) (m : Match) : ReplacementPart → List Char
  | .text cs => cs
  | .reference n => Template.groupText text m n

/-- The texts have no dollar signs, the references have at most nine digits, and no digit follows
the number of a reference. -/
def Legible : List ReplacementPart → Prop
  | [] => True
  | .text cs :: parts => '$' ∉ cs ∧ Legible parts
  | .reference n :: parts =>
    n < 1000000000 ∧ ¬ (parts.flatMap written).head?.any Char.isDigit ∧ Legible parts

theorem expand_pieces (parts : List ReplacementPart) (p : Program) (text : Array Char) (m : Match) :
    Template.expand (parts.flatMap pieces) p text m = parts.flatMap (filled text m) := by
  rw [Template.expand, flatMap_assoc]
  congr 1
  funext part
  cases part with
  | text cs => simp [pieces, filled, Template.expandPiece, flatMap_map]
  | reference n => simp [pieces, filled, Template.expandPiece]

end ReplacementPart

/-! ## Braces around references -/

section Braces

variable {c : Char} {cs ds rest : List Char}

theorem braceReferences_digit (h : c.isDigit) :
    braceReferences true (c :: cs) = c :: braceReferences true cs := by
  simp [braceReferences, h]

/-- A reference ends where no digit follows. -/
theorem braceReferences_close (h : ¬ cs.head?.any Char.isDigit) :
    braceReferences true cs = '\x7d' :: braceReferences false cs := by
  cases cs with
  | nil => rfl
  | cons c cs =>
    have hc : c.isDigit = false := by simpa using h
    simp [braceReferences, hc]

theorem braceReferences_open (h : cs.head?.any Char.isDigit) :
    braceReferences false ('$' :: cs) = '$' :: '\x7b' :: braceReferences true cs := by
  simp [braceReferences, h]

theorem braceReferences_pass (h : c = '$' → ¬ cs.head?.any Char.isDigit) :
    braceReferences false (c :: cs) = c :: braceReferences false cs := by
  by_cases hc : c = '$'
  · simp [braceReferences, h hc]
  · simp [braceReferences, hc]

theorem braceReferences_text (h : '$' ∉ cs) :
    braceReferences false (cs ++ rest) = cs ++ braceReferences false rest := by
  induction cs with
  | nil => rfl
  | cons c cs ih =>
    obtain ⟨hc, hcs⟩ := ne_and_not_mem_of_not_mem_cons h
    rw [cons_append, braceReferences_pass fun h => absurd h.symm hc, ih hcs, cons_append]

theorem braceReferences_digits (hds : ∀ c ∈ ds, c.isDigit) (hrest : ¬ rest.head?.any Char.isDigit) :
    braceReferences true (ds ++ rest) = ds ++ '\x7d' :: braceReferences false rest := by
  induction ds with
  | nil => exact braceReferences_close hrest
  | cons d ds ih =>
    rw [cons_append, braceReferences_digit (hds d mem_cons_self),
      ih fun c hc => hds c (mem_cons_of_mem _ hc), cons_append]

theorem head?_braceReferences (cs : List Char) : (braceReferences false cs).head? = cs.head? := by
  cases cs with
  | nil => rfl
  | cons c cs =>
    by_cases h : c = '$' ∧ cs.head?.any Char.isDigit
    · obtain ⟨rfl, hcs⟩ := h
      rw [braceReferences_open hcs]
      rfl
    · rw [braceReferences_pass fun hc hcs => h ⟨hc, hcs⟩]
      rfl

/-- References in braces are left as they are. -/
theorem braceReferences_idem (reading : Bool) (cs : List Char) :
    braceReferences false (braceReferences reading cs) = braceReferences reading cs := by
  induction cs generalizing reading with
  | nil => cases reading <;> decide
  | cons c cs ih =>
    have houter : braceReferences false (braceReferences false (c :: cs)) =
        braceReferences false (c :: cs) := by
      by_cases h : c = '$' ∧ cs.head?.any Char.isDigit
      · obtain ⟨rfl, hcs⟩ := h
        have hbrace : ¬ ('\x7b' :: braceReferences true cs).head?.any Char.isDigit := by simp
        rw [braceReferences_open hcs, braceReferences_pass fun _ => hbrace,
          braceReferences_pass fun h => absurd h (by decide), ih true]
      · have hpass : c = '$' → ¬ cs.head?.any Char.isDigit := fun hc hcs => h ⟨hc, hcs⟩
        rw [braceReferences_pass hpass, braceReferences_pass, ih false]
        rwa [head?_braceReferences]
    cases reading with
    | false => exact houter
    | true =>
      by_cases hc : c.isDigit
      · have hdollar : c ≠ '$' := fun h => absurd (h ▸ hc) (by decide)
        rw [braceReferences_digit hc, braceReferences_pass fun h => absurd h hdollar, ih true]
      · rw [braceReferences_close (by simpa using hc),
          braceReferences_pass fun h => absurd h (by decide), houter]

theorem normalizeReplacement_idem (s : String) :
    normalizeReplacement (normalizeReplacement s) = normalizeReplacement s := by
  simp [normalizeReplacement, braceReferences_idem]

end Braces

/-! ## The template of a replacement -/

theorem isDigit_of_mem_toDigits : ∀ c ∈ Nat.toDigits 10 n, c.isDigit :=
  fun _ hc => Nat.isDigit_of_mem_toDigits (by decide) (by decide) hc

/-- A number has no leading zeros. -/
theorem head?_toDigits_ne_zero (h : 0 < n) : (Nat.toDigits 10 n).head? ≠ some '0' := by
  induction n using Nat.strongRecOn with
  | ind n ih =>
    by_cases hlt : n < 10
    · simp [Nat.toDigits_of_lt_base hlt, Nat.ne_of_gt h]
    · have hdiv := ih (n / 10) (by omega) (by omega)
      rw [Nat.toDigits_of_base_le (by decide) (by omega), List.head?_append,
        Option.or_of_isSome (by simp [Nat.toDigits_ne_nil])]
      exact hdiv

theorem toDigits_ne_zero_cons {c : Char} {cs : List Char} : Nat.toDigits 10 n ≠ '0' :: c :: cs := by
  intro h
  cases n with
  | zero => simp at h
  | succ n => exact head?_toDigits_ne_zero (Nat.succ_pos n) (by rw [h]; rfl)

theorem groupNumber?_toDigits (h : n < 1000000000) : groupNumber? (Nat.toDigits 10 n) = some n := by
  have hlength : (Nat.toDigits 10 n).length ≤ 9 :=
    (Nat.length_toDigits_le_iff (by decide) (by decide)).2 h
  have hdigits : (Nat.toDigits 10 n).all Char.isDigit := all_eq_true.2 isDigit_of_mem_toDigits
  rw [groupNumber?]
  · simp only [hlength, hdigits, decide_true, Bool.and_self, if_true]
    exact congrArg some Nat.ofDigitChars_ten_toDigits
  · exact fun _ _ => toDigits_ne_zero_cons

theorem reference_toDigits (h : n < 1000000000) : reference (Nat.toDigits 10 n) = .group n := by
  rw [reference, groupNumber?_toDigits h]

theorem isNameChar_of_isDigit {c : Char} (h : c.isDigit) : isNameChar c := by
  have hdigits : ∀ k < 58, 48 ≤ k → isNameChar (Char.ofNat k) := by decide +kernel
  have hbounds : 48 ≤ c.toNat ∧ c.toNat ≤ 57 := by
    simpa [Char.isDigit, UInt32.le_iff_toNat_le] using h
  have hc := hdigits c.toNat (by omega) hbounds.1
  rwa [Char.ofNat_toNat] at hc

theorem groupName?_braced {ds rest : List Char} (hds : ∀ c ∈ ds, c.isDigit) (hne : ds ≠ []) :
    groupName? ('\x7b' :: (ds ++ '\x7d' :: rest)) = some (ds, rest) := by
  have hbrace : isNameChar '\x7d' = false := by decide +kernel
  have hname : (ds ++ '\x7d' :: rest).takeWhile isNameChar = ds := by
    rw [takeWhile_append_of_pos fun c hc => isNameChar_of_isDigit (hds c hc),
      takeWhile_cons_of_neg (by simp [hbrace]), append_nil]
  simp [groupName?, hname, hne]

namespace ReplacementPart

variable {parts : List ReplacementPart}

theorem braceReferences_written (h : Legible parts) :
    braceReferences false (parts.flatMap written) = parts.flatMap braced := by
  induction parts with
  | nil => rfl
  | cons part parts ih =>
    cases part with
    | text cs => rw [flatMap_cons, written, braceReferences_text h.1, ih h.2]; rfl
    | reference n =>
      obtain ⟨-, hrest, hparts⟩ := h
      have hopen : (Nat.toDigits 10 n ++ parts.flatMap written).head?.any Char.isDigit := by
        cases hds : Nat.toDigits 10 n with
        | nil => exact absurd hds Nat.toDigits_ne_nil
        | cons d ds =>
          have hmem : d ∈ Nat.toDigits 10 n := by simp [hds]
          simpa using isDigit_of_mem_toDigits d hmem
      rw [flatMap_cons, written, cons_append, braceReferences_open hopen,
        braceReferences_digits isDigit_of_mem_toDigits hrest, ih hparts]
      simp [braced]

theorem ofCharsAux_text {cs rest : List Char} (h : '$' ∉ cs) (fuel : Nat) :
    Template.ofCharsAux (cs.length + fuel) (cs ++ rest) =
      cs.map .text ++ Template.ofCharsAux fuel rest := by
  induction cs with
  | nil => simp
  | cons c cs ih =>
    obtain ⟨hc, hcs⟩ := ne_and_not_mem_of_not_mem_cons h
    rw [length_cons, Nat.succ_add]
    simp [Template.ofCharsAux, hc.symm, ih hcs]

theorem ofCharsAux_braced (h : Legible parts) {fuel : Nat}
    (hfuel : (parts.flatMap braced).length ≤ fuel) :
    Template.ofCharsAux fuel (parts.flatMap braced) = parts.flatMap pieces := by
  induction parts generalizing fuel with
  | nil => cases fuel <;> rfl
  | cons part parts ih =>
    rw [flatMap_cons, length_append] at hfuel
    cases part with
    | text cs =>
      obtain ⟨k, rfl⟩ := Nat.exists_eq_add_of_le (Nat.le_trans (Nat.le_add_right _ _) hfuel)
      rw [flatMap_cons, braced, ofCharsAux_text h.1, ih h.2 (by simpa [braced] using hfuel)]
      rfl
    | reference n =>
      obtain ⟨hn, -, hparts⟩ := h
      cases fuel with
      | zero => simp [braced] at hfuel
      | succ fuel =>
        have hname : groupName? ('\x7b' :: (Nat.toDigits 10 n ++ '\x7d' :: parts.flatMap braced)) =
          some (Nat.toDigits 10 n, parts.flatMap braced) :=
          groupName?_braced isDigit_of_mem_toDigits Nat.toDigits_ne_nil
        have hrest : Template.ofCharsAux fuel (parts.flatMap braced) = parts.flatMap pieces :=
          ih hparts (by simp only [braced, length_cons] at hfuel; omega)
        simp [Template.ofCharsAux, braced, hname, reference_toDigits hn, hrest, pieces]

theorem ofChars_normalizeReplacement (h : Legible parts) {s : String}
    (hs : s.toList = parts.flatMap written) :
    Template.ofChars (normalizeReplacement s).toList = parts.flatMap pieces := by
  rw [normalizeReplacement, String.toList_ofList, hs, braceReferences_written h, Template.ofChars,
    ofCharsAux_braced h (Nat.le_refl _)]

end ReplacementPart

/-! ## Images of paths -/

namespace Rule

open ReplacementPart

theorem compile_ok {t : RuleText} {r : Rule} (h : compile t = .ok r) :
    ∃ regex groups, r.program = .ofRegex regex groups ∧
      r.replacement = normalizeReplacement t.replacement := by
  rw [compile] at h
  split at h
  · cases h
  · split at h
    · cases h
    · obtain rfl := Except.ok.inj h
      exact ⟨_, _, rfl, rfl⟩

/-- A rule replaces the successive matches in a path, each by its replacement with the groups of
that match in place of the references. The references in its template are in braces, and stay so
when they are put in braces again. -/
theorem references_filled {t : RuleText} {r : Rule} (hcompile : compile t = .ok r)
    {parts : List ReplacementPart} (hparts : Legible parts)
    (hwritten : t.replacement.toList = parts.flatMap written) {path : String}
    (hmatch : r.program.isMatch path.toList.toArray) :
    normalizeReplacement r.replacement = r.replacement ∧
    ∃ ms, ms ≠ [] ∧
      r.program.Successive path.toList.toArray (r.program.find? path.toList.toArray 0) ms ∧
      ms.Pairwise (fun a b => a.last ≤ b.first) ∧
      (∀ m ∈ ms, m.first ≤ m.last ∧ m.last ≤ path.toList.length ∧
        ∀ n, r.program.groups < n → Template.groupText path.toList.toArray m n = []) ∧
      r.image? path = some (String.ofList
        (splice path.toList.toArray
          (fun m => parts.flatMap (filled path.toList.toArray m)) 0 ms)) := by
  obtain ⟨regex, groups, hprogram, hreplacement⟩ := compile_ok hcompile
  have hnormal : normalizeReplacement r.replacement = r.replacement := by
    rw [hreplacement, normalizeReplacement_idem]
  obtain ⟨ms, hms, hall⟩ := replaceAll_eq_splice (parts.flatMap pieces) path
  rw [← hprogram] at hms hall
  have hfound : ∀ m, r.program.find? path.toList.toArray 0 = some m →
      ∃ place, r.program.find? path.toList.toArray place = some m := fun m hm => ⟨0, hm⟩
  refine ⟨hnormal, ms, ?_, hms, ?_, fun m hm => ?_, ?_⟩
  · rintro rfl
    generalize hfind : r.program.find? path.toList.toArray 0 = found at hms
    cases hms
    simp [Program.isMatch, hfind] at hmatch
  · rw [hprogram] at hms
    exact (hms.pairwise fun m hm => ⟨(Program.find?_bounds hm).1, (Program.find?_bounds hm).2.1⟩).2
  · obtain ⟨place, hplace⟩ := hms.found hfound m hm
    refine ⟨?_, ?_, fun n hn => ?_⟩
    · rw [hprogram] at hplace
      exact (Program.find?_bounds hplace).2.1
    · rw [hprogram] at hplace
      exact (Program.find?_bounds hplace).2.2
    · simp [Template.groupText, Program.group?_of_groups_lt hplace hn]
  · rw [image?, if_pos hmatch, hreplacement, ofChars_normalizeReplacement hparts hwritten, hall,
      funext (expand_pieces parts r.program path.toList.toArray)]

/-- The second group need not take part, and there is no seventh one. -/
def sampleRule : RuleText where
  pattern := "(a+)(b)?"
  replacement := "$1x_$2$7"

theorem references_filled_sampleRule :
    ∃ r, compile sampleRule = .ok r ∧ r.image? "aabca" = some "aax_bcax_" ∧
      ∃ ms, r.program.Successive "aabca".toList.toArray
          (r.program.find? "aabca".toList.toArray 0) ms ∧ ms ≠ [] ∧
        r.image? "aabca" = some (String.ofList (splice "aabca".toList.toArray (fun m =>
          [.reference 1, .text "x_".toList, .reference 2, .reference 7].flatMap
            (filled "aabca".toList.toArray m)) 0 ms)) := by
  have hrun : ((compile sampleRule).toOption.any fun r =>
      r.program.isMatch "aabca".toList.toArray &&
        decide (r.image? "aabca" = some "aax_bcax_")) = true := by
    decide +kernel
  cases hcompile : compile sampleRule with
  | error e => simp [hcompile, Except.toOption] at hrun
  | ok r =>
    simp only [hcompile, Except.toOption, Option.any_some, Bool.and_eq_true,
      decide_eq_true_eq] at hrun
    have hlegible : Legible [.reference 1, .text "x_".toList, .reference 2, .reference 7] := by
      simp [Legible, written]
    obtain ⟨-, ms, hne, hms, -, -, himage⟩ :=
      references_filled hcompile hlegible (by decide) hrun.1
    exact ⟨r, rfl, hrun.2, ms, hms, hne, himage⟩

end Rule

end ExtensionLowering
