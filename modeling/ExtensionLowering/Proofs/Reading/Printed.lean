import ExtensionLowering.Proofs.Reading.Unambiguous
import ExtensionLowering.Tree.Printer
import Mathlib.Data.List.Forall2
/-!
# Printed pieces

A text is printed as a category when it is put together from lexemes that the category derives, and
when none of them runs into what may follow the text. Each construct of the printer is shown to
print a category from the categories of its parts.

## Main definitions

* `Category.reaches`, `Derives.widen`: a category includes all that bind as tightly.
* `Printed`, `PrintedList`: a text is printed as a category, or as a list of elements.
-/
namespace ExtensionLowering.Grammar

open Category

variable {es : List Char} {p : Char → Prop}

/-! ## Wider categories -/

/-- Whether `c` includes `d`, in at most `n` steps. -/
def Category.reaches (n : Nat) (c d : Category) : Bool :=
  match n with
  | 0 => c = d
  | n + 1 => c = d || includes.any fun p => p.1 = c && reaches n p.2 d

theorem Derives.of_reaches {n : Nat} {c d : Category} {a : List Lexeme} {t : Expr}
    (h : c.reaches n d) (ha : Derives d a t) : Derives c a t := by
  induction n generalizing c with
  | zero =>
    obtain rfl : c = d := by simpa [Category.reaches] using h
    exact ha
  | succ n ih =>
    simp only [Category.reaches, Bool.or_eq_true, decide_eq_true_eq, List.any_eq_true,
      Bool.and_eq_true] at h
    obtain rfl | ⟨⟨c', d'⟩, hp, rfl, hd⟩ := h
    · exact ha
    · exact .wider hp (ih hd)

/-- The categories that include all that bind as tightly as they do. -/
def wide : List Category :=
  [expression, element, assignment, conditional, shortCircuit, logicalOr, logicalAnd, bitOr, bitXor,
    bitAnd, equality, relational, shift, additive, multiplicative, exponent, unary, update,
    leftHandSide]

/-- The categories of printed expressions. -/
def ofLevel : Nat → Category
  | 0 => expression
  | 1 => element
  | 2 => assignment
  | 3 => conditional
  | 4 => coalesce
  | 5 => logicalOr
  | 6 => logicalAnd
  | 7 => bitOr
  | 8 => bitXor
  | 9 => bitAnd
  | 10 => equality
  | 11 => relational
  | 12 => shift
  | 13 => additive
  | 14 => multiplicative
  | 15 => exponent
  | 16 => unary
  | 18 => leftHandSide
  | _ => primary

/-- The levels of expressions that are no spread. -/
def levels : List Nat :=
  [0, 2, 3, 4, 5, 6, 7, 8, 9, 10, 11, 12, 13, 14, 15, 16, 18, 20]

theorem reaches_ofLevel : ∀ c ∈ wide, ∀ l ∈ levels, c.rank ≤ l → c.reaches 21 (ofLevel l) := by
  decide +kernel

theorem Derives.widen {c : Category} {l : Nat} {a : List Lexeme} {t : Expr} (hc : c ∈ wide)
    (hl : l ∈ levels) (h : c.rank ≤ l) (ha : Derives (ofLevel l) a t) : Derives c a t :=
  .of_reaches (reaches_ofLevel c hc l hl h) ha

/-! ## Pieces of a text -/

@[simp] theorem lexemes_nil : lexemes [] = [] := rfl

@[simp] theorem lexemes_gap (ps : List Piece) : lexemes (.gap :: ps) = lexemes ps := rfl

@[simp] theorem lexemes_cons (x : Lexeme) (ps : List Piece) :
    lexemes (.lexeme x :: ps) = x :: lexemes ps := rfl

@[simp] theorem lexemes_append (ps qs : List Piece) :
    lexemes (ps ++ qs) = lexemes ps ++ lexemes qs := by
  simp [lexemes]

/-- What may follow an operand, and what may follow the target of a chain. -/
def loose : List Char := [' ', ')', ']', ',']
def tight : List Char := [' ', ')', ']', ',', '.', '?', '[', '(']

/-- The first character of the text and of all that may follow it has the property. -/
def Begins (es cs : List Char) (p : Char → Prop) : Prop :=
  ∀ rest, (∀ c ∈ rest.head?, c ∈ es) → ∀ c ∈ (cs ++ rest).head?, p c

theorem Begins.cons {c : Char} (h : p c) (cs : List Char) : Begins es (c :: cs) p := by
  intro rest _ d hd
  cases hd
  exact h

theorem Begins.nil (h : ∀ c ∈ es, p c) : Begins es [] p :=
  fun _ hrest c hc => h c (hrest c hc)

theorem Begins.of_forall {cs : List Char} (h : ∀ c, p c) : Begins es cs p :=
  fun _ _ c _ => h c

/-- The text consists of the pieces, none of which runs into what may follow. -/
def Written (A : Alphabet) (es cs : List Char) (ps : List Piece) : Prop :=
  texts ps = cs ∧ ∀ rest, (∀ c ∈ rest.head?, c ∈ es) → Fits A ps rest

namespace Written

variable {s : String}
variable {A : Alphabet} {es fs cs ds : List Char} {ps qs : List Piece}

theorem nil : Written A es [] [] :=
  ⟨rfl, fun _ _ => trivial⟩

theorem gap (h : Written A es cs ps) : Written A es (' ' :: cs) (.gap :: ps) :=
  ⟨congrArg (' ' :: ·) h.1, h.2⟩

theorem lexeme {x : Lexeme} (hx : x.Valid A) (hc : Begins es cs (x.Apart A))
    (h : Written A es cs ps) : Written A es (x.text ++ cs) (.lexeme x :: ps) := by
  refine ⟨congrArg (x.text ++ ·) h.1, fun rest hrest => ⟨hx, ?_, h.2 rest hrest⟩⟩
  rw [h.1]
  exact hc rest hrest

theorem append (h : Written A fs cs ps) (hd : Begins es ds (· ∈ fs)) (h' : Written A es ds qs) :
    Written A es (cs ++ ds) (ps ++ qs) := by
  refine ⟨by simp [← h.1, ← h'.1, texts], fun rest hrest => ?_⟩
  rw [fits_append, h'.1]
  exact ⟨h.2 _ (hd rest hrest), h'.2 rest hrest⟩

theorem mono (h : Written A fs cs ps) (hsub : es ⊆ fs) : Written A es cs ps :=
  ⟨h.1, fun rest hrest => h.2 rest fun c hc => hsub (hrest c hc)⟩

/-- Punctuators that nothing runs into. -/
theorem apart_free : ∀ s ∈ ["(", ")", "[", "]", "...", "=>", ",", ":", "~"],
    s ∈ punctuators ∧ s ∉ [".", "?."] ∧
      ∀ p ∈ punctuators, s.toList <+: p.toList → p.toList.length ≤ s.toList.length := by
  decide +kernel

theorem free (hs : s ∈ ["(", ")", "[", "]", "...", "=>", ",", ":", "~"])
    (h : Written A es cs ps) : Written A es (s.toList ++ cs) (.lexeme (.punct s) :: ps) := by
  obtain ⟨hmem, hpoint, hlong⟩ := apart_free s hs
  refine .lexeme (x := .punct s) hmem (.of_forall fun c => ⟨fun p hp hpre => ?_, ?_⟩) h
  · have hshort := hlong p hp ((List.prefix_append _ _).trans hpre)
    have hlonger := hpre.length_le
    simp at hlonger
    omega
  · exact fun h => absurd h hpoint

/-- A punctuator before a gap. -/
theorem spaced (hs : s ∈ punctuators) (hlong : ∀ p ∈ punctuators, ¬ s.toList ++ [' '] <+: p.toList)
    (h : Written A es cs ps) :
    Written A es (s.toList ++ ' ' :: cs) (.lexeme (.punct s) :: .gap :: ps) :=
  .lexeme (x := .punct s) hs (.cons ⟨hlong, fun _ => rfl⟩ cs) h.gap

theorem part_tight : ∀ c ∈ tight, A.part c = false := by
  have hascii : tight.all fun c => c.toNat < 128 && !(c.isAlphanum || c ∈ ['_', '$']) := by decide
  intro c hc
  have hc := List.all_eq_true.1 hascii c hc
  simp only [Bool.and_eq_true, decide_eq_true_eq, Bool.not_eq_true'] at hc
  rw [A.part_ascii c hc.1, hc.2]

/-- A word at the end. -/
theorem word (hs : A.IsWord s) : Written A tight s.toList [.lexeme (.word s)] := by
  simpa [Lexeme.text] using Written.lexeme (x := .word s) hs (.nil part_tight) .nil

/-- A word before a gap. -/
theorem keyword (hs : A.IsWord s) (h : Written A es cs ps) :
    Written A es (s.toList ++ ' ' :: cs) (.lexeme (.word s) :: .gap :: ps) :=
  .lexeme (x := .word s) hs (.cons (part_tight ' ' (by decide)) cs) h.gap

theorem string (v : String) : Written A tight (Text.quote v).toList [.lexeme (.string v)] := by
  simpa [Lexeme.text] using
    Written.lexeme (A := A) (x := .string v) trivial (.of_forall fun _ => trivial) .nil

theorem number (hs : IsNumeral s.toList) : Written A loose s.toList [.lexeme (.number s)] := by
  have hnumeral : loose.all fun c => !isNumeralChar c := by decide
  have hends : ∀ c ∈ loose, isNumeralChar c = false ∧ A.start c = false := fun c hc =>
    ⟨by simpa using List.all_eq_true.1 hnumeral c hc, A.start_eq_false loose (by decide) c hc⟩
  simpa [Lexeme.text] using Written.lexeme (x := .number s) hs (.nil hends) .nil

/-- Pieces with commas between them, whatever is known of each and of the list. -/
theorem separated {P : List Lexeme → Expr → Prop} {Q : List Lexeme → List Expr → Prop}
    (hnil : Q [] []) (hone : ∀ a t, P a t → Q a [t])
    (hcons : ∀ a t b ts, P a t → Q b ts → Q (a ++ .punct "," :: b) (t :: ts))
    {texts : List String} {ts : List Expr}
    (h : List.Forall₂ (fun s t => ∃ ps, Written A loose s.toList ps ∧ P (lexemes ps) t) texts ts) :
    ∃ ps, Written A loose (commaSeparated texts).toList ps ∧ Q (lexemes ps) ts := by
  induction h with
  | nil => exact ⟨[], .nil, hnil⟩
  | @cons s t texts ts hs hrest ih =>
    obtain ⟨ps, hw, hd⟩ := hs
    cases hrest with
    | nil => exact ⟨ps, by simpa [commaSeparated] using hw, hone _ _ hd⟩
    | cons _ _ =>
      obtain ⟨qs, hw', hd'⟩ := ih
      refine ⟨ps ++ .lexeme (.punct ",") :: .gap :: qs, ?_, by simpa using hcons _ _ _ _ hd hd'⟩
      rw [commaSeparated, String.intercalate_cons_cons, String.toList_append,
        String.toList_append, List.append_assoc]
      exact hw.append (.cons (by decide) _) (.free (s := ",") (by simp) hw'.gap)

end Written

/-- The keywords of printed expressions are words of every alphabet. -/
theorem isWord_keyword (A : Alphabet) {s : String}
    (hs : s ∈ ["this", "true", "false", "void", "new", "in", "instanceof"]) : A.IsWord s := by
  have hascii : ∀ s ∈ ["this", "true", "false", "void", "new", "in", "instanceof"], s.toList ≠ [] ∧
      s.toList.all fun c => c.toNat < 128 && c.isAlpha := by
    decide
  obtain ⟨hne, hletters⟩ := hascii s hs
  obtain ⟨c, cs, hcs⟩ := List.exists_cons_of_ne_nil hne
  rw [hcs] at hletters
  have hpart : ∀ d ∈ c :: cs, A.start d := fun d hd => by
    have hletter := List.all_eq_true.1 hletters d hd
    simp only [Bool.and_eq_true, decide_eq_true_eq] at hletter
    simp [A.start_ascii d hletter.1, hletter.2]
  exact ⟨c, cs, hcs, hpart c (by simp), fun d hd => A.part_of_start d (hpart d (by simp [hd]))⟩

/-! ## Printed constructs -/

/-- The text is printed as an expression of the category with the tree. -/
def Printed (A : Alphabet) (es : List Char) (c : Category) (cs : List Char) (t : Expr) : Prop :=
  ∃ ps, Written A es cs ps ∧ Derives c (lexemes ps) t

/-- The text is printed as a list of elements. -/
def PrintedList (A : Alphabet) (cs : List Char) (ts : List Expr) : Prop :=
  ∃ ps, Written A loose cs ps ∧ Elements (lexemes ps) ts

/-- The operators that stand before their operand. -/
def unaryOperators : List String :=
  ["!", "-", "+", "~"]

namespace Printed

variable {s : String}
variable {A : Alphabet} {es cs ds : List Char} {c : Category} {t u : Expr} {ts : List Expr}
variable {op : String}

theorem loosen (h : Printed A tight c cs t) : Printed A loose c cs t := by
  obtain ⟨ps, hw, hd⟩ := h
  exact ⟨ps, hw.mono (by decide), hd⟩

theorem widen {l : Nat} (hc : c ∈ wide) (hl : l ∈ levels) (hle : c.rank ≤ l)
    (h : Printed A es (ofLevel l) cs t) : Printed A es c cs t := by
  obtain ⟨ps, hw, hd⟩ := h
  exact ⟨ps, hw, hd.widen hc hl hle⟩

theorem wider {d : Category} (hc : (c, d) ∈ includes) (h : Printed A es d cs t) :
    Printed A es c cs t := by
  obtain ⟨ps, hw, hd⟩ := h
  exact ⟨ps, hw, .wider hc hd⟩

theorem gap (h : Printed A es c cs t) : Printed A es c (' ' :: cs) t := by
  obtain ⟨ps, hw, hd⟩ := h
  exact ⟨_, hw.gap, hd⟩

theorem name (hs : A.IsWord s) (hres : s ∉ reserved) :
    Printed A tight primary s.toList (.ident { name := s }) :=
  ⟨_, .word hs, .name hres⟩

theorem this : Printed A tight primary "this".toList (.this {}) :=
  ⟨_, .word (isWord_keyword A (by simp)), .this⟩

theorem bool (b : Bool) :
    Printed A tight primary (if b then "true" else "false").toList (.bool {} b) :=
  ⟨_, .word (isWord_keyword A (by cases b <;> simp)), .bool b⟩

theorem number (hs : IsNumeral s.toList) : Printed A loose primary s.toList (.number {} s) :=
  ⟨_, .number hs, .number s⟩

theorem string (v : String) : Printed A tight primary (Text.quote v).toList (.string {} v) :=
  ⟨_, .string v, .string v⟩

theorem paren (h : Printed A loose expression cs t) :
    Printed A tight primary ('(' :: (cs ++ [')'])) (.paren {} t) := by
  obtain ⟨ps, hw, hd⟩ := h
  refine ⟨_, .free (s := "(") (by simp) (hw.append (.cons (by decide) _) (.free (s := ")") (by simp)
    .nil)), ?_⟩
  simpa using Derives.paren hd

theorem array (h : PrintedList A cs ts) :
    Printed A tight primary ('[' :: (cs ++ [']'])) (.array {} ts) := by
  obtain ⟨ps, hw, hd⟩ := h
  refine ⟨_, .free (s := "[") (by simp) (hw.append (.cons (by decide) _) (.free (s := "]") (by simp)
    .nil)), ?_⟩
  simpa using Derives.array hd

theorem start_punctuator : ∀ q ∈ punctuators, ∀ d ∈ q.toList, A.start d = false := by
  have hascii : ∀ q ∈ punctuators,
      q.toList.all fun d => d.toNat < 128 && !(d.isAlpha || d ∈ ['_', '$']) := by
    decide +kernel
  exact fun q hq => A.start_eq_false q.toList (hascii q hq)

/-- The name behind a point or an optional point. -/
theorem written_member {p : String} (hp : p ∈ [".", "?."]) (hs : A.IsWord s) :
    Written A tight (p.toList ++ s.toList) [.lexeme (.punct p), .lexeme (.word s)] := by
  have hmem : ∀ p ∈ [".", "?."], p ∈ punctuators := by decide
  refine .lexeme (x := .punct p) (hmem p hp) ?_ (.word hs)
  obtain ⟨c, cs, hcs, hc, -⟩ := hs
  rw [hcs]
  refine .cons ⟨fun q hq hpre => ?_, fun _ => ?_⟩ cs
  · have hmem : c ∈ q.toList := hpre.subset (by simp)
    simp [start_punctuator q hq c hmem] at hc
  · by_contra hdigit
    have := A.start_of_isDigit (by simpa using hdigit)
    simp_all

theorem access (hc : c ∈ [member, call]) (h : Printed A tight c cs t) (hs : A.IsWord s) :
    Printed A tight c (cs ++ '.' :: s.toList) (.prop {} {} t (some { name := s }) false) := by
  obtain ⟨ps, hw, hd⟩ := h
  refine ⟨_, hw.append (.cons (by decide) _) (written_member (p := ".") (by simp) hs), ?_⟩
  simpa using Derives.access hc hd

theorem optional (hc : c ∈ [member, call]) (h : Printed A tight c cs t) (hs : A.IsWord s) :
    Printed A tight call (cs ++ '?' :: '.' :: s.toList)
      (.prop {} {} t (some { name := s }) true) := by
  obtain ⟨ps, hw, hd⟩ := h
  refine ⟨_, hw.append (.cons (by decide) _) (written_member (p := "?.") (by simp) hs), ?_⟩
  simpa using Derives.optional hc hd

theorem index (hc : c ∈ [member, call]) (h : Printed A tight c cs t)
    (h' : Printed A loose expression ds u) :
    Printed A tight c (cs ++ '[' :: (ds ++ [']'])) (.elem {} {} t u) := by
  obtain ⟨ps, hw, hd⟩ := h
  obtain ⟨qs, hw', hd'⟩ := h'
  refine ⟨_, hw.append (.cons (by decide) _) (.free (s := "[") (by simp) (hw'.append
    (.cons (by decide) _) (.free (s := "]") (by simp) .nil))), ?_⟩
  simpa using Derives.index hc hd hd'

theorem call (hc : c ∈ [member, call]) (h : Printed A tight c cs t) (h' : PrintedList A ds ts) :
    Printed A tight call (cs ++ '(' :: (ds ++ [')'])) (.call {} {} t [] ts) := by
  obtain ⟨ps, hw, hd⟩ := h
  obtain ⟨qs, hw', hd'⟩ := h'
  refine ⟨_, hw.append (.cons (by decide) _) (.free (s := "(") (by simp) (hw'.append
    (.cons (by decide) _) (.free (s := ")") (by simp) .nil))), ?_⟩
  simpa using Derives.call hc hd hd'

theorem new (h : Printed A tight member cs t) (h' : PrintedList A ds ts) :
    Printed A tight member ("new".toList ++ ' ' :: (cs ++ '(' :: (ds ++ [')'])))
      (.new {} t [] ts) := by
  obtain ⟨ps, hw, hd⟩ := h
  obtain ⟨qs, hw', hd'⟩ := h'
  refine ⟨_, .keyword (isWord_keyword A (by simp)) (hw.append (.cons (by decide) _)
    (.free (s := "(") (by simp) (hw'.append (.cons (by decide) _)
      (.free (s := ")") (by simp) .nil)))), ?_⟩
  simpa using Derives.new hd hd'

theorem void (h : Printed A loose unary cs t) :
    Printed A loose unary ("void".toList ++ ' ' :: cs) (.void {} t) := by
  obtain ⟨ps, hw, hd⟩ := h
  exact ⟨_, .keyword (isWord_keyword A (by simp)) hw, .void hd⟩

theorem spread (h : Printed A loose assignment cs t) :
    Printed A loose element ("...".toList ++ cs) (.spread {} t) := by
  obtain ⟨ps, hw, hd⟩ := h
  exact ⟨_, .free (by simp) hw, .spread hd⟩

theorem cond {fs : List Char} {v : Expr} (h : Printed A loose shortCircuit cs t)
    (h' : Printed A loose assignment ds u) (h'' : Printed A loose assignment fs v) :
    Printed A loose conditional (cs ++ ' ' :: '?' :: ' ' :: (ds ++ ' ' :: ':' :: ' ' :: fs))
      (.cond {} t u v) := by
  obtain ⟨ps, hw, hd⟩ := h
  obtain ⟨qs, hw', hd'⟩ := h'
  obtain ⟨rs, hw'', hd''⟩ := h''
  refine ⟨_, hw.append (.cons (by decide) _) (.gap (.spaced (s := "?") (by decide) (by decide)
    (hw'.append (.cons (by decide) _) (.gap (.free (s := ":") (by simp) (.gap hw'')))))), ?_⟩
  simpa using Derives.cond hd hd' hd''

/-- What is written for a binary operator. -/
def operatorText (op : String) : List Char :=
  (if op = "," then ", " else " " ++ op ++ " ").toList

/-- No punctuator goes on with a space behind an operator. -/
theorem apart_operator : ∀ o ∈ operations, ∀ op ∈ o.ops, op ∈ ["in", "instanceof"] ∨
    Lexeme.ofOperator op = .punct op ∧ op ∈ punctuators ∧
      ∀ p ∈ punctuators, ¬ op.toList ++ [' '] <+: p.toList := by
  decide +kernel

theorem written_operator {o : Operation} {qs : List Piece} (ho : o ∈ operations) (hop : op ∈ o.ops)
    (h : Written A loose ds qs) :
    ∃ ps, Written A loose (operatorText op ++ ds) ps ∧
      lexemes ps = .ofOperator op :: lexemes qs := by
  by_cases hcomma : op = ","
  · subst hcomma
    exact ⟨_, .free (s := ",") (by simp) h.gap, rfl⟩
  · have htext : operatorText op ++ ds = ' ' :: (op.toList ++ ' ' :: ds) := by
      simp [operatorText, hcomma]
    rw [htext]
    obtain hword | ⟨hpunct, hmem, hlong⟩ := apart_operator o ho op hop
    · refine ⟨_, .gap (.keyword (isWord_keyword A ?_) h), ?_⟩
      · simp only [List.mem_cons] at hword ⊢
        tauto
      · have hof : ∀ op ∈ ["in", "instanceof"], Lexeme.ofOperator op = .word op := by decide
        simp [hof op hword]
    · exact ⟨_, .gap (.spaced hmem hlong h), by simp [hpunct]⟩

theorem begins_operator (op : String) (ds : List Char) :
    Begins loose (operatorText op ++ ds) (· ∈ loose) := by
  by_cases hcomma : op = ","
  · simpa [operatorText, hcomma] using Begins.cons (by decide) _
  · simpa [operatorText, hcomma] using Begins.cons (by decide) _

theorem binary {o : Operation} (ho : o ∈ operations) (hop : op ∈ o.ops)
    (h : Printed A loose o.left cs t) (h' : Printed A loose o.right ds u) :
    Printed A loose o.result (cs ++ (operatorText op ++ ds)) (.binary {} {} t op u) := by
  obtain ⟨ps, hw, hd⟩ := h
  obtain ⟨qs, hw', hd'⟩ := h'
  obtain ⟨rs, hrs, hlexemes⟩ := written_operator ho hop hw'
  refine ⟨ps ++ rs, hw.append (begins_operator op ds) hrs, ?_⟩
  rw [lexemes_append, hlexemes]
  exact .binary ho hop hd hd'

/-- Only an equals sign or the same operator runs into a prefix operator. -/
theorem apart_unary : ∀ op ∈ unaryOperators, op ∈ punctuators ∧ op.toList.length = 1 ∧
    op ∉ [".", "?."] ∧ ∀ p ∈ punctuators, op.toList <+: p.toList →
      (p.toList.drop 1).head?.all fun d => d = '=' || [d] = op.toList := by
  decide +kernel

theorem unary {d : Char} (hop : op ∈ unaryOperators) (h : Printed A loose unary (d :: ds) t)
    (heq : d ≠ '=') (hsame : [d] ≠ op.toList) :
    Printed A loose Category.unary (op.toList ++ d :: ds) (.unary {} op t) := by
  obtain ⟨ps, hw, hd⟩ := h
  obtain ⟨hmem, hlength, hpoint, hnext⟩ := apart_unary op hop
  have hapart : (Lexeme.punct op).Apart A d := by
    refine ⟨fun p hp ⟨r, hr⟩ => ?_, fun hmem => absurd hmem hpoint⟩
    have hsecond := hnext p hp ⟨d :: r, by simpa using hr⟩
    have hd : (p.toList.drop 1).head? = some d := by simp [← hr, ← hlength]
    simp only [hd, Option.all_some, Bool.or_eq_true, decide_eq_true_eq] at hsecond
    tauto
  have hlexeme : ∀ op ∈ unaryOperators, Lexeme.punct op = .ofOperator op := by decide
  refine ⟨_, .lexeme (x := .punct op) hmem (.cons hapart ds) hw, ?_⟩
  rw [lexemes_cons, hlexeme op hop]
  refine .unary ?_ hd
  simp only [unaryOperators, List.mem_cons] at hop ⊢
  tauto

theorem written_names {ss : List String} (hss : ∀ s ∈ ss, A.IsWord s) :
    ∃ ps, Written A loose (commaSeparated ss).toList ps ∧ lexemes ps = nameList ss := by
  induction ss with
  | nil => exact ⟨[], .nil, rfl⟩
  | cons s ss ih =>
    have hs : Written A loose s.toList [.lexeme (.word s)] :=
      (Written.word (hss s (by simp))).mono (by decide)
    cases ss with
    | nil => exact ⟨_, by simpa [commaSeparated] using hs, rfl⟩
    | cons s' ss =>
      obtain ⟨ps, hw, hps⟩ := ih fun r hr => hss r (by simp [hr])
      refine ⟨[.lexeme (.word s)] ++ .lexeme (.punct ",") :: .gap :: ps, ?_,
        by simp [hps, nameList]⟩
      rw [commaSeparated, String.intercalate_cons_cons, String.toList_append,
        String.toList_append, List.append_assoc]
      exact hs.append (.cons (by decide) _) (.free (s := ",") (by simp) hw.gap)

theorem arrow {ss : List String} (hss : ∀ s ∈ ss, A.IsWord s ∧ s ∉ reserved)
    (h : Printed A loose assignment cs t) :
    Printed A loose assignment
      ('(' :: ((commaSeparated ss).toList ++ ')' :: ' ' :: '=' :: '>' :: ' ' :: cs))
      (.arrow {} (ss.map nameParam) .missing t) := by
  obtain ⟨ps, hw, hd⟩ := h
  obtain ⟨qs, hw', hnames⟩ := written_names fun s hs => (hss s hs).1
  refine ⟨_, .free (s := "(") (by simp) (hw'.append (.cons (by decide) _) (.free (s := ")")
    (by simp) (.gap (.free (s := "=>") (by simp) (.gap hw))))), ?_⟩
  simpa [hnames] using Derives.arrow (fun s hs => (hss s hs).2) hd

end Printed

namespace PrintedList

theorem commaSeparated {A : Alphabet} {texts : List String} {ts : List Expr}
    (h : List.Forall₂ (fun s t => Printed A loose element s.toList t) texts ts) :
    PrintedList A (commaSeparated texts).toList ts :=
  Written.separated .nil (fun _ _ => .one) (fun _ _ _ _ => .cons) h

end PrintedList

end ExtensionLowering.Grammar
