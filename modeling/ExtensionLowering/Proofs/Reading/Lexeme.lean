import ExtensionLowering.Proofs.Reading.Literal
/-!
# Lexemes of the printed language

A text is read from left to right, each lexeme as long as it can be. Which characters make names and
which are blank is left to an `Alphabet`, of which only the ASCII part is fixed.

A text that is put together from the texts of lexemes, with gaps where two of them would run into
each other, is read as these lexemes and in no other way.

## Main definitions

* `Element`: the texts of a lexeme.
* `Lexes`: a text is read as a list of lexemes.
* `Fits`: no piece of a text runs into what follows it.
-/
namespace ExtensionLowering.Grammar

open Text

inductive Lexeme where
  | word (s : String)
  | number (s : String)
  | string (v : String)
  | punct (s : String)
  deriving Repr, DecidableEq

/-- The characters of names, and those that separate lexemes within a line. -/
structure Alphabet where
  start : Char → Bool
  part : Char → Bool
  blank : Char → Bool
  part_of_start : ∀ c, start c → part c
  part_of_blank : ∀ c, blank c → part c = false
  start_ascii : ∀ c, c.toNat < 128 → start c = (c.isAlpha || c ∈ ['_', '$'])
  part_ascii : ∀ c, c.toNat < 128 → part c = (c.isAlphanum || c ∈ ['_', '$'])
  blank_ascii : ∀ c, c.toNat < 128 → blank c = decide (c ∈ [' ', '\t', '\x0b', '\x0c'])

/-- A name or a keyword. -/
def Alphabet.IsWord (A : Alphabet) (s : String) : Prop :=
  ∃ c cs, s.toList = c :: cs ∧ A.start c ∧ ∀ d ∈ cs, A.part d

/-- The punctuators, and the marks that open a comment. -/
def punctuators : List String :=
  ["\x7b", "\x7d", "(", ")", "[", "]", ".", "...", ";", ",", "<", ">", "<=", ">=", "==", "!=",
    "===", "!==", "+", "-", "*", "/", "%", "**", "++", "--", "<<", ">>", ">>>", "&", "|", "^", "!",
    "~", "&&", "||", "??", "?", "?.", ":", "=", "+=", "-=", "*=", "/=", "%=", "**=", "<<=", ">>=",
    ">>>=", "&=", "|=", "^=", "&&=", "||=", "??=", "=>", "//", "/*"]

/-- The text `w` is that of a lexeme, when `rest` follows it. -/
inductive Element (A : Alphabet) : List Char → List Char → Lexeme → Prop
  | word {s : String} {rest : List Char} (hs : A.IsWord s) : Element A s.toList rest (.word s)
  | number {s : String} {rest : List Char} (hs : IsNumeral s.toList) :
      Element A s.toList rest (.number s)
  | string {q : Char} {body : List Char} {v : String} {rest : List Char} (hq : q ∈ ['"', '\''])
      (hend : delimit q (body ++ [q]) = some (body, []))
      (hv : literalUnits body = some (utf16 v)) : Element A (q :: body ++ [q]) rest (.string v)
  | punct {s : String} {rest : List Char} (hs : s ∈ punctuators)
      (hrest : s = "?." → ∀ c ∈ rest.head?, c.isDigit = false) : Element A s.toList rest (.punct s)

/-- A text is read as a list of lexemes. A numeral may not run into a name or a digit. -/
inductive Lexes (A : Alphabet) : List Char → List Lexeme → Prop
  | nil : Lexes A [] []
  | blank {c : Char} {cs : List Char} {xs : List Lexeme} (hc : A.blank c) (hcs : Lexes A cs xs) :
      Lexes A (c :: cs) xs
  | lexeme {w rest : List Char} {x : Lexeme} {xs : List Lexeme} (hw : Element A w rest x)
      (hlong : ∀ w' rest' x', w' ++ rest' = w ++ rest → Element A w' rest' x' →
        w'.length ≤ w.length)
      (hnumber : ∀ s, x = .number s → ∀ c ∈ rest.head?, A.start c = false ∧ c.isDigit = false)
      (hrest : Lexes A rest xs) : Lexes A (w ++ rest) (x :: xs)

/-! ## The kind of a lexeme -/

inductive Kind where
  | word
  | number
  | string
  | punct
  deriving DecidableEq

def Lexeme.kind : Lexeme → Kind
  | .word _ => .word
  | .number _ => .number
  | .string _ => .string
  | .punct _ => .punct

/-- The kind of a lexeme is told by how its text begins. -/
def Alphabet.kindOf (A : Alphabet) : List Char → Kind
  | [] => .punct
  | c :: cs =>
    if A.start c then .word
    else if c.isDigit || (c = '.' && cs.head?.any Char.isDigit) then .number
    else if c = '"' || c = '\'' then .string
    else .punct

namespace Alphabet

variable (A : Alphabet)

theorem kindOf_append {w : List Char} (hne : w ≠ []) (hpoint : w ≠ ['.']) (v : List Char) :
    A.kindOf (w ++ v) = A.kindOf w := by
  obtain ⟨c, cs, rfl⟩ := List.exists_cons_of_ne_nil hne
  cases cs with
  | nil =>
    have hc : c ≠ '.' := by simpa using hpoint
    simp [kindOf, hc]
  | cons d ds => simp [kindOf]

/-- The ASCII characters that begin no name. -/
theorem start_eq_false (cs : List Char)
    (h : cs.all fun c => c.toNat < 128 && !(c.isAlpha || c ∈ ['_', '$'])) :
    ∀ c ∈ cs, A.start c = false := by
  intro c hc
  have hascii := List.all_eq_true.1 h c hc
  simp only [Bool.and_eq_true, decide_eq_true_eq, Bool.not_eq_true'] at hascii
  rw [A.start_ascii c hascii.1, hascii.2]

theorem start_of_isDigit {c : Char} (h : c.isDigit) : A.start c = false := by
  have hrange : 48 ≤ c.toNat ∧ c.toNat ≤ 57 := by
    simpa [Char.isDigit, UInt32.le_iff_toNat_le] using h
  have halpha : c.isAlpha = false := by
    rw [Bool.eq_false_iff, ne_eq, isAlpha_iff]
    omega
  have hmarks : ['_', '$'].all fun d => !d.isDigit := by decide
  have hmem : c ∉ ['_', '$'] := fun hmem => by simpa [h] using List.all_eq_true.1 hmarks c hmem
  rw [A.start_ascii c (by omega), halpha]
  simpa using hmem

theorem blank_of_isDigit {c : Char} (h : c.isDigit) : A.blank c = false := by
  have hrange : 48 ≤ c.toNat ∧ c.toNat ≤ 57 := by
    simpa [Char.isDigit, UInt32.le_iff_toNat_le] using h
  have hblanks : [' ', '\t', '\x0b', '\x0c'].all fun d => !d.isDigit := by decide
  have hmem : c ∉ [' ', '\t', '\x0b', '\x0c'] := fun hmem => by
    simpa [h] using List.all_eq_true.1 hblanks c hmem
  rw [A.blank_ascii c (by omega)]
  simpa using hmem

/-- How a punctuator begins. -/
theorem punctuators_head : ∀ s ∈ punctuators, s.toList ≠ [] ∧
    (s.toList.head?.all fun c => c.toNat < 128 && !c.isAlphanum &&
      c ∉ ['_', '$', ' ', '\t', '\x0b', '\x0c', '"', '\'']) ∧
    s.toList.tail.head?.all fun c => !c.isDigit := by
  decide

theorem punctuators_cons {s : String} (hs : s ∈ punctuators) :
    ∃ c cs, s.toList = c :: cs ∧ A.start c = false ∧ A.blank c = false ∧
      (c.isDigit = false ∧ c ≠ '"' ∧ c ≠ '\'') ∧ ∀ d ∈ cs.head?, d.isDigit = false := by
  obtain ⟨hne, hhead, hnext⟩ := punctuators_head s hs
  obtain ⟨c, cs, hcs⟩ := List.exists_cons_of_ne_nil hne
  simp only [hcs, List.head?_cons, Option.all_some, Bool.and_eq_true, decide_eq_true_eq,
    Bool.not_eq_true', Char.isAlphanum, Bool.or_eq_false_iff, List.mem_cons, not_or] at hhead
  obtain ⟨⟨hascii, halnum⟩, hmarks⟩ := hhead
  have hnext : ∀ d ∈ cs.head?, d.isDigit = false := fun d hd => by
    simpa [hcs, Option.mem_def.1 hd] using hnext
  refine ⟨c, cs, hcs, ?_, ?_, ?_, hnext⟩
  · simp [A.start_ascii c hascii, halnum, hmarks]
  · simp [A.blank_ascii c hascii, hmarks]
  · simp [halnum, hmarks]

end Alphabet

namespace Element

variable {A : Alphabet} {w rest : List Char} {x : Lexeme}
variable {s : String}

attribute [local simp] Alphabet.kindOf Lexeme.kind

theorem kindOf (h : Element A w rest x) : A.kindOf w = x.kind := by
  cases h with
  | word hs =>
    obtain ⟨c, cs, hcs, hc, -⟩ := hs
    simp [hcs, hc]
  | number hs =>
    obtain ⟨c, cs, hcs, hc | ⟨rfl, d, ds, rfl, hd⟩⟩ := hs.head
    · simp [hcs, A.start_of_isDigit hc, hc]
    · simp [hcs, A.start_ascii '.' (by decide), hd]
  | string hq _ _ =>
    simp only [List.mem_cons, List.not_mem_nil, or_false] at hq
    rcases hq with rfl | rfl
    · simp [A.start_ascii '"' (by decide)]
    · simp [A.start_ascii '\'' (by decide)]
  | @punct s _ hs _ =>
    obtain ⟨c, cs, hcs, hstart, -, hc, hnext⟩ := A.punctuators_cons hs
    have hdigit : cs.head?.any Char.isDigit = false := by
      cases cs with
      | nil => rfl
      | cons d ds => exact hnext d rfl
    simp [hcs, hstart, hc, hdigit]

theorem word_inv (h : Element A w rest (.word s)) : w = s.toList ∧ A.IsWord s := by
  cases h with
  | word hs => exact ⟨rfl, hs⟩

theorem number_inv (h : Element A w rest (.number s)) : w = s.toList ∧ IsNumeral s.toList := by
  cases h with
  | number hs => exact ⟨rfl, hs⟩

theorem string_inv {v : String} (h : Element A w rest (.string v)) :
    ∃ q body, w = q :: body ++ [q] ∧ delimit q (body ++ [q]) = some (body, []) ∧
      literalUnits body = some (utf16 v) := by
  cases h with
  | string _ hend hv => exact ⟨_, _, rfl, hend, hv⟩

theorem punct_inv (h : Element A w rest (.punct s)) : w = s.toList ∧ s ∈ punctuators := by
  cases h with
  | punct hs _ => exact ⟨rfl, hs⟩

/-- A text is that of one lexeme only. -/
theorem unique {x' : Lexeme} {rest' : List Char} (h : Element A w rest x)
    (h' : Element A w rest' x') : x = x' := by
  have hkind : x.kind = x'.kind := h.kindOf.symm.trans h'.kindOf
  cases x with
  | word s =>
    cases x' with
    | word s' => rw [String.toList_injective (h.word_inv.1.symm.trans h'.word_inv.1)]
    | _ => cases hkind
  | number s =>
    cases x' with
    | number s' => rw [String.toList_injective (h.number_inv.1.symm.trans h'.number_inv.1)]
    | _ => cases hkind
  | string v =>
    cases x' with
    | string v' =>
      obtain ⟨q, body, rfl, -, hv⟩ := h.string_inv
      obtain ⟨q', body', heq, -, hv'⟩ := h'.string_inv
      obtain ⟨rfl, hbody⟩ := List.cons.inj heq
      rw [List.append_cancel_right hbody] at hv
      rw [utf16_injective (Option.some.inj (hv.symm.trans hv'))]
    | _ => cases hkind
  | punct s =>
    cases x' with
    | punct s' => rw [String.toList_injective (h.punct_inv.1.symm.trans h'.punct_inv.1)]
    | _ => cases hkind

/-- No lexeme begins with a blank. -/
theorem head_not_blank (h : Element A w rest x) : ∃ c cs, w = c :: cs ∧ A.blank c = false := by
  cases h with
  | word hs =>
    obtain ⟨c, cs, hcs, hc, -⟩ := hs
    refine ⟨c, cs, hcs, ?_⟩
    by_contra hblank
    have := A.part_of_blank c (by simpa using hblank)
    have := A.part_of_start c hc
    simp_all
  | number hs =>
    obtain ⟨c, cs, hcs, hc | ⟨rfl, -⟩⟩ := hs.head
    · exact ⟨c, cs, hcs, A.blank_of_isDigit hc⟩
    · exact ⟨'.', cs, hcs, A.blank_ascii '.' (by decide)⟩
  | string hq _ _ =>
    have hquote : ∀ q ∈ ['"', '\''], A.blank q = false := by
      simp [A.blank_ascii '"' (by decide), A.blank_ascii '\'' (by decide)]
    exact ⟨_, _, rfl, hquote _ hq⟩
  | punct hs _ =>
    obtain ⟨c, cs, hcs, -, hblank, -⟩ := A.punctuators_cons hs
    exact ⟨c, cs, hcs, hblank⟩

end Element

variable {A : Alphabet}

/-- A text is read in one way only. -/
theorem Lexes.unique {cs : List Char} {xs ys : List Lexeme} (hx : Lexes A cs xs)
    (hy : Lexes A cs ys) : xs = ys := by
  induction hx generalizing ys with
  | nil =>
    generalize hcs : ([] : List Char) = cs at hy
    cases hy with
    | nil => rfl
    | blank _ _ => cases hcs
    | lexeme hw _ _ _ =>
      obtain ⟨c, cs, rfl, -⟩ := hw.head_not_blank
      cases hcs
  | @blank c cs xs hc _ ih =>
    generalize hds : c :: cs = ds at hy
    cases hy with
    | nil => cases hds
    | blank _ hrest =>
      cases hds
      exact ih hrest
    | lexeme hw _ _ _ =>
      obtain ⟨d, ds, rfl, hd⟩ := hw.head_not_blank
      cases hds
      simp [hc] at hd
  | @lexeme w rest x xs hw hlong _ _ ih =>
    generalize hds : w ++ rest = ds at hy
    cases hy with
    | nil =>
      obtain ⟨c, cs, rfl, -⟩ := hw.head_not_blank
      cases hds
    | blank hc _ =>
      obtain ⟨d, ds, rfl, hd⟩ := hw.head_not_blank
      cases hds
      simp [hc] at hd
    | lexeme hw' hlong' _ hrest' =>
      have hlength := Nat.le_antisymm (hlong _ _ _ hds.symm hw') (hlong' _ _ _ hds hw)
      obtain ⟨rfl, rfl⟩ := List.append_inj hds.symm hlength
      rw [hw.unique hw', ih hrest']

/-! ## Texts put together from lexemes -/

namespace Lexeme

variable {rest : List Char}

/-- How a lexeme is written. -/
def text : Lexeme → List Char
  | .word s => s.toList
  | .number s => s.toList
  | .string v => (quote v).toList
  | .punct s => s.toList

def Valid (A : Alphabet) : Lexeme → Prop
  | .word s => A.IsWord s
  | .number s => IsNumeral s.toList
  | .string _ => True
  | .punct s => s ∈ punctuators

/-- The character `c` behind the lexeme does not run into it. -/
def Apart (A : Alphabet) (c : Char) : Lexeme → Prop
  | .word _ => A.part c = false
  | .number _ => isNumeralChar c = false ∧ A.start c = false
  | .string _ => True
  | .punct s =>
    (∀ p ∈ punctuators, ¬ s.toList ++ [c] <+: p.toList) ∧ (s ∈ [".", "?."] → c.isDigit = false)

variable {A : Alphabet} {x : Lexeme}

theorem element (hx : x.Valid A) (hrest : ∀ c ∈ rest.head?, x.Apart A c) :
    Element A x.text rest x := by
  cases x with
  | word s => exact .word hx
  | number s => exact .number hx
  | string v =>
    rw [text, quote_toList]
    exact .string (by simp) (delimit_quoted _) (literalUnits_quoted _)
  | punct s =>
    refine .punct hx ?_
    rintro rfl c hc
    exact (hrest c hc).2 (by simp)

/-- What is behind a lexeme does not change its kind. -/
theorem kindOf_extended {c : Char} {cs : List Char} (hx : x.Valid A) (hc : x.Apart A c) :
    A.kindOf (x.text ++ c :: cs) = x.kind := by
  have hself : Element A x.text [] x := element hx (by simp)
  obtain ⟨d, ds, hne, -⟩ := hself.head_not_blank
  by_cases hpoint : x.text = ['.']
  · -- A digit behind a lone point would make it a numeral.
    have hkind : x.kind = .punct := by
      rw [← hself.kindOf, hpoint]
      simp [Alphabet.kindOf, A.start_ascii '.' (by decide)]
    obtain ⟨s, rfl⟩ : ∃ s, x = .punct s := by cases x <;> simp_all [kind]
    have hs : s = "." := String.toList_injective hpoint
    have hdigit : c.isDigit = false := hc.2 (by simp [hs])
    rw [hpoint, hkind]
    simp [Alphabet.kindOf, A.start_ascii '.' (by decide), hdigit]
  · rw [A.kindOf_append (by simp [hne]) hpoint, hself.kindOf]

/-- With a character that does not run into it, the text of a lexeme begins no other. -/
theorem not_extended {x' : Lexeme} {c : Char} {cs : List Char} (hx : x.Valid A) (hc : x.Apart A c) :
    ¬ Element A (x.text ++ c :: cs) rest x' := by
  intro h
  have hkind : x.kind = x'.kind := (kindOf_extended hx hc).symm.trans h.kindOf
  cases x with
  | word s =>
    cases x' with
    | word s' =>
      obtain ⟨e, es, hes, -⟩ := hx
      obtain ⟨heq, d, ds, hds, -, hpart⟩ := h.word_inv
      rw [text, hes, hds] at heq
      obtain ⟨-, rfl⟩ := List.cons.inj heq
      simpa [show A.part c = false from hc] using hpart c (by simp)
    | _ => cases hkind
  | number s =>
    cases x' with
    | number s' =>
      obtain ⟨heq, hs'⟩ := h.number_inv
      have hmem : c ∈ s'.toList := by simp [← heq]
      simpa [hc.1] using hs'.chars c hmem
    | _ => cases hkind
  | string v =>
    cases x' with
    | string v' =>
      obtain ⟨q, body, heq, hend, -⟩ := h.string_inv
      rw [text, quote_toList] at heq
      obtain ⟨rfl, hbody⟩ := List.cons.inj heq
      have hquoted := delimit_append (delimit_quoted v.toList) (c :: cs)
      simp_all
    | _ => cases hkind
  | punct s =>
    cases x' with
    | punct s' =>
      obtain ⟨heq, hs'⟩ := h.punct_inv
      exact hc.1 s' hs' ⟨cs, by simp [← heq, text]⟩
    | _ => cases hkind

/-- The text of a lexeme is the longest one, when what follows does not run into it. -/
theorem longest {x' : Lexeme} {w' rest' : List Char} (hx : x.Valid A)
    (hrest : ∀ c ∈ rest.head?, x.Apart A c) (heq : w' ++ rest' = x.text ++ rest)
    (h : Element A w' rest' x') : w'.length ≤ x.text.length := by
  rcases List.append_eq_append_iff.1 heq with ⟨cs, hcs, -⟩ | ⟨cs, hcs, hrest'⟩
  · simp [hcs]
  · cases cs with
    | nil => simp [hcs]
    | cons c cs =>
      rw [hcs] at h
      exact absurd h (not_extended hx (hrest c (by simp [hrest'])))

end Lexeme

/-- What a text is put together from. -/
inductive Piece where
  | gap
  | lexeme (x : Lexeme)
  deriving Repr, DecidableEq

namespace Piece

def text : Piece → List Char
  | gap => [' ']
  | lexeme x => x.text

def lexeme? : Piece → Option Lexeme
  | gap => none
  | lexeme x => some x

end Piece

def texts (ps : List Piece) : List Char :=
  ps.flatMap Piece.text

def lexemes (ps : List Piece) : List Lexeme :=
  ps.filterMap Piece.lexeme?

/-- No lexeme among the pieces runs into what follows it, the text `rest` behind them included. -/
def Fits (A : Alphabet) : List Piece → List Char → Prop
  | [], _ => True
  | .gap :: ps, rest => Fits A ps rest
  | .lexeme x :: ps, rest =>
    x.Valid A ∧ (∀ c ∈ (texts ps ++ rest).head?, x.Apart A c) ∧ Fits A ps rest

theorem fits_append {ps qs : List Piece} {rest : List Char} :
    Fits A (ps ++ qs) rest ↔ Fits A ps (texts qs ++ rest) ∧ Fits A qs rest := by
  induction ps with
  | nil => simp [Fits]
  | cons p ps ih =>
    cases p with
    | gap => simpa [Fits] using ih
    | lexeme x => simp [Fits, ih, texts, and_assoc]

/-- Pieces that do not run into each other are read as their lexemes. -/
theorem Fits.lexes {ps : List Piece} {rest : List Char} {xs : List Lexeme} (h : Fits A ps rest)
    (hrest : Lexes A rest xs) : Lexes A (texts ps ++ rest) (lexemes ps ++ xs) := by
  induction ps with
  | nil => simpa [texts, lexemes] using hrest
  | cons p ps ih =>
    cases p with
    | gap =>
      have hblank : A.blank ' ' := by simp [A.blank_ascii ' ' (by decide)]
      exact .blank hblank (ih h)
    | lexeme x =>
      obtain ⟨hx, hapart, hps⟩ := h
      have hlexeme : Lexes A (x.text ++ (texts ps ++ rest)) (x :: (lexemes ps ++ xs)) := by
        refine .lexeme (x.element hx hapart) (fun _ _ _ => x.longest hx hapart) ?_ (ih hps)
        rintro s rfl c hc
        obtain ⟨hnumeral, hstart⟩ := hapart c hc
        exact ⟨hstart, by simp_all [isNumeralChar, Char.isAlphanum]⟩
      simpa [texts, lexemes, Piece.text, Piece.lexeme?] using hlexeme

end ExtensionLowering.Grammar
