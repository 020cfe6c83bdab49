import ExtensionLowering.Proofs.Reading.Opening
/-!
# Operators in front of an operand

A prefix operator is written directly in front of its operand, with a space between two equal
operators only. So a plus or a minus is read together with the sign behind it when that is the
doubled operator or the sign of a number. In all other cases the lexemes of the text are the
operators in their order and then those of the operand.

## Main definitions

* `Tokens`: a text of several lines is read as a list of lexemes.
* `Expr.behind`: an operand behind operators.
* `Expr.keepsSigns`: no operator is read together with what follows it.

## Main statements

* `operators_read_apart`: when the operators in front of an operand are read one by one.
-/
namespace ExtensionLowering

open List

namespace Expr

/-- The expression behind prefix operators, the outermost first. -/
def behind (e : Expr) : List (Info × String) → Expr
  | [] => e
  | (i, op) :: ops => .unary i op (e.behind ops)

def isUnary : Expr → Bool
  | .unary .. => true
  | _ => false

/-- Whether the operator is read together with the sign behind it: its operand begins with the
doubled operator, or it is a number with the same sign. -/
def joins (op : String) : Expr → Bool
  | .unary _ inner _ => op ∈ ["+", "-"] && inner = op ++ op
  | .number _ s => op ∈ ["+", "-"] && op.toList.isPrefixOf s.toList
  | _ => false

/-- No prefix operator at the front is read together with the sign behind it. -/
def keepsSigns : Expr → Bool
  | .unary _ op e => !e.joins op && e.keepsSigns
  | _ => true

end Expr

namespace Grammar

variable (depth : Nat)

/-- The text of a number: a numeral or the name of a value without one, perhaps behind a sign. -/
def Alphabet.IsFigure (A : Alphabet) (cs : List Char) : Prop :=
  ∃ sign ∈ [[], ['+'], ['-']], ∃ s : String, cs = sign ++ s.toList ∧
    (IsNumeral s.toList ∨ A.IsWord s ∧ s ∉ reserved)

/-- Names are words and numbers are figures. -/
def Spelled (A : Alphabet) : Expr → Prop
  | .ident id => A.IsWord id.name
  | .number _ s => A.IsFigure s.toList
  | _ => True

/-- The operators that stand in front of their operand. -/
def prefixOperators : List String :=
  ["!", "~", "+", "-", "++", "--"]

/-- A text is read as a list of lexemes, which may stand on several lines. -/
inductive Tokens (A : Alphabet) : List Char → List Lexeme → Prop
  | nil : Tokens A [] []
  | space {c : Char} {cs : List Char} {xs : List Lexeme} (hc : A.blank c ∨ isLineEnd c)
      (hcs : Tokens A cs xs) : Tokens A (c :: cs) xs
  | lexeme {w rest : List Char} {x : Lexeme} {xs : List Lexeme} (hw : Element A w rest x)
      (hlong : ∀ w' rest' x', w' ++ rest' = w ++ rest → Element A w' rest' x' →
        w'.length ≤ w.length)
      (hnumber : ∀ s, x = .number s → ∀ c ∈ rest.head?, A.start c = false ∧ c.isDigit = false)
      (hrest : Tokens A rest xs) : Tokens A (w ++ rest) (x :: xs)

/-! ## Reading an operator -/

variable {A : Alphabet} {op : String} {c : Char} {cs : List Char} {xs : List Lexeme}
variable {e : Expr}

/-- What a prefix operator is and what goes on with it. -/
theorem prefixOperators_text : ∀ op ∈ prefixOperators, op ∈ punctuators ∧ op ∉ [".", "?."] ∧
    (op.toList ≠ [] ∧ op.toList.all fun c => c ∈ ['!', '~', '+', '-']) ∧
    ∀ p ∈ punctuators, op.toList <+: p.toList →
      (p.toList.drop op.toList.length).head?.all fun d => d = '=' || [d] = op.toList := by
  decide +kernel

/-- An operator is read together with an equals sign and with itself at most. -/
theorem apart_prefix (hop : op ∈ prefixOperators) (heq : c ≠ '=') (hsame : [c] ≠ op.toList) :
    (Lexeme.punct op).Apart A c := by
  obtain ⟨-, hpoint, -, hnext⟩ := prefixOperators_text op hop
  refine ⟨fun p hp ⟨r, hr⟩ => ?_, fun hmem => absurd hmem hpoint⟩
  have hsecond := hnext p hp ⟨c :: r, by simpa using hr⟩
  have hhead : (p.toList.drop op.toList.length).head? = some c := by simp [← hr]
  simp only [hhead, Option.all_some, Bool.or_eq_true, decide_eq_true_eq] at hsecond
  tauto

theorem apart_of_unsigned (hop : op ∈ prefixOperators) (h : Unsigned cs) :
    ∀ c ∈ cs.head?, (Lexeme.punct op).Apart A c := by
  obtain ⟨d, ds, rfl, hd⟩ := h
  rintro c ⟨⟩
  obtain ⟨-, -, ⟨-, hsigns⟩, -⟩ := prefixOperators_text op hop
  refine apart_prefix hop (fun heq => hd (by simp [heq])) fun hsame => ?_
  rw [← hsame] at hsigns
  simp only [all_cons, all_nil, Bool.and_true, decide_eq_true_eq] at hsigns
  simp only [mem_cons, not_mem_nil, or_false] at hd hsigns
  tauto

theorem Tokens.head_lexeme {w : List Char} (hne : w ≠ [])
    (hvisible : ∀ c ∈ w.head?, A.blank c = false ∧ isLineEnd c = false)
    (h : Tokens A (w ++ cs) xs) : ∃ v rest x ys, w ++ cs = v ++ rest ∧ xs = x :: ys ∧
      Element A v rest x ∧ Tokens A rest ys ∧ ∀ v' rest' x', v' ++ rest' = v ++ rest →
        Element A v' rest' x' → v'.length ≤ v.length := by
  obtain ⟨d, ds, rfl⟩ := exists_cons_of_ne_nil hne
  have hd := hvisible d rfl
  generalize htext : d :: ds ++ cs = text at h
  cases h with
  | nil => cases htext
  | space hc _ =>
    cases htext
    simp [hd] at hc
  | lexeme hw hlong _ hrest => exact ⟨_, _, _, _, rfl, rfl, hw, hrest, hlong⟩

theorem head_prefix (hop : op ∈ prefixOperators) :
    op.toList ≠ [] ∧ ∀ c ∈ op.toList.head?, A.blank c = false ∧ isLineEnd c = false := by
  obtain ⟨-, -, ⟨hne, hsigns⟩, -⟩ := prefixOperators_text op hop
  refine ⟨hne, fun c hc => ?_⟩
  have hmem : c ∈ ['!', '~', '+', '-'] := by
    simpa using all_eq_true.1 hsigns c (mem_of_mem_head? hc)
  have hmarks : ['!', '~', '+', '-'].all fun c =>
      c.toNat < 128 && c ∉ [' ', '\t', '\x0b', '\x0c'] && !isLineEnd c := by
    decide
  have hmark := all_eq_true.1 hmarks c hmem
  simp only [Bool.and_eq_true, decide_eq_true_eq, Bool.not_eq_true'] at hmark
  obtain ⟨⟨hascii, hblank⟩, hline⟩ := hmark
  exact ⟨by simpa [A.blank_ascii c hascii] using hblank, hline⟩

/-- An operator that is not read together with what follows is the first lexeme. -/
theorem tokens_operator_iff (hop : op ∈ prefixOperators)
    (hcs : ∀ c ∈ cs.head?, (Lexeme.punct op).Apart A c) :
    Tokens A (op.toList ++ cs) xs ↔ ∃ ys, Tokens A cs ys ∧ xs = .punct op :: ys := by
  have hvalid : (Lexeme.punct op).Valid A := (prefixOperators_text op hop).1
  have helement : Element A op.toList cs (.punct op) := Lexeme.element hvalid hcs
  constructor
  · intro h
    obtain ⟨hne, hvisible⟩ := head_prefix (A := A) hop
    obtain ⟨v, rest, x, ys, htext, rfl, hv, hys, hlong⟩ := h.head_lexeme hne hvisible
    have hlength : v.length = op.toList.length :=
      Nat.le_antisymm (Lexeme.longest hvalid hcs htext.symm hv) (hlong _ _ _ htext helement)
    obtain ⟨rfl, rfl⟩ := append_inj htext.symm hlength
    exact ⟨ys, hys, by rw [hv.unique helement]⟩
  · rintro ⟨ys, hys, rfl⟩
    exact .lexeme helement (fun _ _ _ => Lexeme.longest hvalid hcs) nofun hys

/-- An operator that makes a punctuator with what follows is not the first lexeme. -/
theorem not_tokens_operator {p : String} (hop : op ∈ prefixOperators) (hp : p ∈ punctuators)
    (hoptional : p ≠ "?.") (htext : p.toList = op.toList ++ [c]) (ys : List Lexeme) :
    ¬ Tokens A (op.toList ++ c :: cs) (.punct op :: ys) := by
  intro h
  obtain ⟨hne, hvisible⟩ := head_prefix (A := A) hop
  obtain ⟨v, rest, x, ys, hsplit, hxs, hv, -, hlong⟩ := h.head_lexeme hne hvisible
  obtain ⟨rfl, rfl⟩ := cons.inj hxs
  have hlonger : p.toList.length ≤ v.length :=
    hlong p.toList cs (.punct p) (by simp [htext, ← hsplit])
      (.punct hp fun heq => absurd heq hoptional)
  rw [hv.punct_inv.1, htext, length_append, length_singleton] at hlonger
  omega

theorem tokens_space_iff : Tokens A (' ' :: cs) xs ↔ Tokens A cs xs := by
  have hblank : A.blank ' ' := by simp [A.blank_ascii ' ' (by decide)]
  refine ⟨fun h => ?_, fun h => .space (.inl hblank) h⟩
  generalize htext : ' ' :: cs = text at h
  cases h with
  | nil => cases htext
  | space _ hcs =>
    cases htext
    exact hcs
  | lexeme hw _ _ _ =>
    obtain ⟨d, ds, rfl, hd⟩ := hw.head_not_blank
    cases htext
    simp [hblank] at hd

/-! ## What an operand begins with -/

theorem ofOpening_unsigned : OfOpening Unsigned where
  cons c hc cs := by
    have hopeners : openers.all fun c => c ∉ ['=', '!', '-', '+', '~'] := by decide
    exact .cons (by simpa using all_eq_true.1 hopeners c hc) cs
  append _ rest hcs _ := hcs.append rest
  falsehood := .cons (by decide) _

/-- The figure without its sign. -/
theorem Alphabet.IsFigure.unsigned (h : A.IsFigure cs) :
    ∃ sign ∈ [[], ['+'], ['-']], ∃ body, cs = sign ++ body ∧ Unsigned body := by
  obtain ⟨sign, hsign, s, rfl, hnumeral | ⟨hword, -⟩⟩ := h
  · exact ⟨sign, hsign, _, rfl, .numeral hnumeral⟩
  · exact ⟨sign, hsign, _, rfl, .word hword⟩

theorem ofOperator_lt_unary (op : String) : Level.ofOperator op < Level.unary := by
  unfold Level.ofOperator
  split <;> decide

/-- A target without parentheses does not begin with a number or a prefix operator. -/
theorem leftmost_of_isBareTarget : ∀ e : Expr, e.isBareTarget → e.opensBare →
    e.leftmost.isUnary = false ∧ ∀ i s, e.leftmost ≠ .number i s
  | .prop _ _ o _ _, _, hbare | .elem _ _ o _, _, hbare | .call _ _ o _ _, _, hbare => by
    simp only [Expr.opensBare, Bool.and_eq_true] at hbare
    exact leftmost_of_isBareTarget o hbare.1 hbare.2
  | .binary _ _ _ op _, htarget, _ => by
    have hop : Level.ofOperator op < Level.call :=
      Nat.lt_trans (ofOperator_lt_unary op) (by decide)
    simp [Expr.isBareTarget, Expr.fitsBare, Expr.level, Nat.not_le.2 hop] at htarget
  | .cond .., htarget, _ | .unary .., htarget, _ | .number .., htarget, _ => by cases htarget
  | .missing, _, _ | .ident _, _, _ | .string .., _, _ | .bool .., _, _ | .this _, _, _
  | .super _, _, _ | .new .., _, _ | .paren .., _, _ | .void .., _, _ | .spread .., _, _
  | .array .., _, _ | .object .., _, _ | .arrow .., _, _ | .func .., _, _ => ⟨rfl, nofun⟩

theorem unsigned_render {x : Expr} {rest : List Char} (hspelled : Spelled A x)
    (hoperand : x.beginsWithOperand = false) (hunary : x.isUnary = false)
    (hnumber : ∀ i s, x ≠ .number i s) (hrest : ∀ c ∈ rest.head?, c ∈ followers) :
    Unsigned ((x.render depth).toList ++ rest) := by
  have hspells : x.Spells Unsigned := by
    cases x with
    | ident id => exact .word hspelled
    | number i s => exact absurd rfl (hnumber i s)
    | unary => cases hunary
    | _ => trivial
  have hfirst (c : Char) (hc : c ∉ ['=', '!', '-', '+', '~'])
      (hhead : (x.render depth).toList.head? = some c) :
      Unsigned ((x.render depth).toList ++ rest) := by
    obtain ⟨cs, hcs⟩ := head?_eq_some_iff.1 hhead
    rw [hcs]
    exact .cons hc (cs ++ rest)
  cases hobject : x.isObject with
  | true => exact hfirst '\x7b' (by decide) (head_render_object depth hobject)
  | false =>
    cases hfunction : x.isFunction with
    | true => exact hfirst 'f' (by decide) (head_render_function depth hfunction)
    | false => exact ofOpening_unsigned.render depth hrest hspells hoperand hobject hfunction

theorem leftmost_of_fitsBare (hfits : e.fitsBare Level.unary) (hbare : e.opensBare)
    (hunary : e.isUnary = false) (hnumber : ∀ i s, e ≠ .number i s) :
    e.leftmost.isUnary = false ∧ ∀ i s, e.leftmost ≠ .number i s := by
  cases e with
  | prop _ _ o _ _ | elem _ _ o _ | call _ _ o _ _ =>
    simp only [Expr.opensBare, Bool.and_eq_true] at hbare
    exact leftmost_of_isBareTarget o hbare.1 hbare.2
  | binary _ _ _ op _ =>
    simp [Expr.fitsBare, Expr.level, Nat.not_le.2 (ofOperator_lt_unary op)] at hfits
  | cond => cases hfits
  | _ => exact ⟨hunary, hnumber⟩

/-- An operand that is no number and has no operator in front begins with no sign. -/
theorem unsigned_operand (hspelled : Spelled A e.leftmost)
    (hunary : e.isUnary = false) (hnumber : ∀ i s, e ≠ .number i s) :
    Unsigned (e.fit Level.unary (e.render depth)).toList := by
  rw [Expr.fit_eq]
  cases hfits : e.fitsBare Level.unary with
  | false => exact Legible.unsigned_parenthesized _
  | true =>
    have hopens := render_opens depth e
    unfold Opens at hopens
    cases hbare : e.opensBare with
    | false =>
      rw [hbare, if_neg Bool.false_ne_true] at hopens
      obtain ⟨cs, hcs⟩ := head?_eq_some_iff.1 hopens
      rw [if_pos rfl, hcs]
      exact .cons (by decide) cs
    | true =>
      rw [hbare, if_pos rfl] at hopens
      obtain ⟨rest, htext, hrest⟩ := hopens
      obtain ⟨hunary', hnumber'⟩ := leftmost_of_fitsBare hfits hbare hunary hnumber
      rw [if_pos rfl, htext]
      exact unsigned_render depth hspelled (leftmost_beginsWithOperand e) hunary' hnumber' hrest

/-! ## Operators one by one -/

/-- The expression can stand behind an operator: it begins with an operator, or with names and
numbers that are spelled as such. -/
def Operand (A : Alphabet) (e : Expr) : Prop :=
  Spelled A e.leftmost ∧ ∀ i op x, e = .unary i op x → op ∈ prefixOperators

/-- The text of an operand. -/
def operandText (depth : Nat) (e : Expr) : List Char :=
  (e.fit Level.unary (e.render depth)).toList

theorem operandText_unary (i : Info) (op : String) (e : Expr) :
    operandText depth (.unary i op e) =
      op.toList ++ ((unaryGap op e).toList ++ operandText depth e) := by
  simp [operandText, Expr.fit, Expr.level, Expr.render_unary]

/-- What the operator is read together with begins with it. -/
theorem operandText_of_joins (h : e.joins op) :
    op ∈ ["+", "-"] ∧ unaryGap op e = "" ∧ ∃ r, operandText depth e = op.toList ++ r := by
  cases e with
  | unary i inner x =>
    simp only [Expr.joins, Bool.and_eq_true, decide_eq_true_eq] at h
    obtain ⟨hop, rfl⟩ := h
    have hdouble : ∀ op ∈ ["+", "-"], op ++ op ≠ op := by decide
    refine ⟨hop, if_neg (hdouble op hop), ?_⟩
    exact ⟨_, by rw [operandText_unary, String.toList_append, append_assoc]⟩
  | number i s =>
    simp only [Expr.joins, Bool.and_eq_true, decide_eq_true_eq, isPrefixOf_iff_prefix] at h
    obtain ⟨hop, r, hr⟩ := h
    exact ⟨hop, rfl, r, hr.symm⟩
  | _ => cases h

/-- Nothing else runs into the operator: equal operators have a gap between them. -/
theorem apart_of_not_joins (hop : op ∈ prefixOperators) (he : Operand A e)
    (h : e.joins op = false) (hgap : unaryGap op e = "") :
    ∀ c ∈ (operandText depth e).head?, (Lexeme.punct op).Apart A c := by
  cases e with
  | unary i inner x =>
    have hinner := he.2 i inner x rfl
    have hpairs : ∀ op ∈ prefixOperators, ∀ inner ∈ prefixOperators, inner ≠ op →
        (op ∈ ["+", "-"] && inner = op ++ op) = false →
        inner.toList ≠ [] ∧ inner.toList.head?.all fun c => c ≠ '=' ∧ [c] ≠ op.toList := by
      decide
    have hne : inner ≠ op := fun heq => by simp [unaryGap, heq] at hgap
    obtain ⟨hnil, hhead⟩ := hpairs op hop inner hinner hne h
    intro c hc
    have hfirst : inner.toList.head? = some c := by
      obtain ⟨d, ds, hds⟩ := exists_cons_of_ne_nil hnil
      simpa [operandText_unary, hds] using hc
    simp only [hfirst, Option.all_some, decide_eq_true_eq] at hhead
    exact apart_prefix hop hhead.1 hhead.2
  | number i s =>
    obtain ⟨sign, hsign, body, htext, hbody⟩ := Alphabet.IsFigure.unsigned he.1
    have hoperand : operandText depth (.number i s) = sign ++ body := htext
    rw [hoperand]
    have hsigns : sign = [] ∨ ∃ c, sign = [c] ∧ c ≠ '=' ∧
        ∀ op ∈ prefixOperators, [c] = op.toList → op ∈ ["+", "-"] := by
      simp only [mem_cons, not_mem_nil, or_false] at hsign
      rcases hsign with rfl | rfl | rfl
      · exact .inl rfl
      · exact .inr ⟨'+', rfl, by decide, by decide⟩
      · exact .inr ⟨'-', rfl, by decide, by decide⟩
    obtain rfl | ⟨c, rfl, hc, hsame⟩ := hsigns
    · exact apart_of_unsigned hop hbody
    · rintro d ⟨⟩
      refine apart_prefix hop hc fun heq => ?_
      have hjoins : (Expr.number i s).joins op = true := by
        simp [Expr.joins, hsame op hop heq, htext, ← heq]
      simp [hjoins] at h
  | _ => exact apart_of_unsigned hop (unsigned_operand depth he.1 rfl (by simp))

theorem tokens_unary_iff (hop : op ∈ prefixOperators) (he : Operand A e) (i : Info)
    (h : e.joins op = false) :
    Tokens A (operandText depth (.unary i op e)) xs ↔
      ∃ ys, Tokens A (operandText depth e) ys ∧ xs = .punct op :: ys := by
  have hgaps : unaryGap op e = "" ∨ unaryGap op e = " " := by
    unfold unaryGap
    split
    · split <;> simp
    · simp
  rw [operandText_unary]
  rcases hgaps with hnone | hspace
  · rw [hnone]
    exact tokens_operator_iff hop (apart_of_not_joins depth hop he h hnone)
  · have hapart : (Lexeme.punct op).Apart A ' ' := by
      have hblank : ∀ op ∈ prefixOperators, [' '] ≠ op.toList := by decide
      exact apart_prefix hop (by decide) (hblank op hop)
    rw [hspace]
    refine (tokens_operator_iff hop (by simpa using hapart)).trans ?_
    simp only [show " ".toList = [' '] from rfl, singleton_append, tokens_space_iff]

theorem not_tokens_unary (i : Info) (h : e.joins op) (ys : List Lexeme) :
    ¬ Tokens A (operandText depth (.unary i op e)) (.punct op :: ys) := by
  obtain ⟨hop, hgap, r, hr⟩ := operandText_of_joins depth h
  rw [operandText_unary, hgap, hr]
  simp only [mem_cons, not_mem_nil, or_false] at hop
  rcases hop with rfl | rfl
  · exact not_tokens_operator (p := "++") (c := '+') (by decide) (by decide) (by decide) rfl ys
  · exact not_tokens_operator (p := "--") (c := '-') (by decide) (by decide) (by decide) rfl ys

variable {e : Expr} {ops : List (Info × String)}

theorem operand_behind (hunary : e.isUnary = false) (hfront : Spelled A e.leftmost)
    (hops : ∀ p ∈ ops, p.2 ∈ prefixOperators) : Operand A (e.behind ops) := by
  cases ops with
  | nil =>
    refine ⟨hfront, fun i op x heq => ?_⟩
    rw [Expr.behind] at heq
    simp [heq, Expr.isUnary] at hunary
  | cons p ops =>
    refine ⟨trivial, fun i op x heq => ?_⟩
    cases heq
    exact hops _ mem_cons_self

theorem tokens_behind_iff (hunary : e.isUnary = false)
    (hfront : Spelled A e.leftmost) (hops : ∀ p ∈ ops, p.2 ∈ prefixOperators)
    (h : (e.behind ops).keepsSigns) :
    Tokens A (operandText depth (e.behind ops)) xs ↔
      ∃ ys, Tokens A (operandText depth e) ys ∧ xs = ops.map (.punct ·.2) ++ ys := by
  induction ops generalizing xs with
  | nil => simp [Expr.behind]
  | cons p ops ih =>
    obtain ⟨hp, hops⟩ := forall_mem_cons.1 hops
    simp only [Expr.behind, Expr.keepsSigns, Bool.and_eq_true, Bool.not_eq_true'] at h
    rw [Expr.behind, tokens_unary_iff depth hp (operand_behind hunary hfront hops) p.1 h.1]
    simp only [ih hops h.2]
    constructor
    · rintro ⟨_, ⟨ys, hys, rfl⟩, rfl⟩
      exact ⟨ys, hys, rfl⟩
    · rintro ⟨ys, hys, rfl⟩
      exact ⟨_, ⟨ys, hys, rfl⟩, rfl⟩

theorem not_tokens_behind (hunary : e.isUnary = false)
    (hfront : Spelled A e.leftmost) (hops : ∀ p ∈ ops, p.2 ∈ prefixOperators)
    (h : (e.behind ops).keepsSigns = false) (ys : List Lexeme) :
    ¬ Tokens A (operandText depth (e.behind ops)) (ops.map (.punct ·.2) ++ ys) := by
  induction ops with
  | nil =>
    have hkeeps : e.keepsSigns := by
      cases e with
      | unary => cases hunary
      | _ => rfl
    simp [Expr.behind, hkeeps] at h
  | cons p ops ih =>
    obtain ⟨hp, hops⟩ := forall_mem_cons.1 hops
    have hoperand := operand_behind hunary hfront hops
    rw [Expr.behind]
    cases hjoins : (e.behind ops).joins p.2 with
    | true => exact not_tokens_unary depth p.1 hjoins _
    | false =>
      have hrest : (e.behind ops).keepsSigns = false := by
        simpa [Expr.behind, Expr.keepsSigns, hjoins] using h
      intro htokens
      obtain ⟨zs, hzs, heq⟩ := (tokens_unary_iff depth hp hoperand p.1 hjoins).1 htokens
      obtain ⟨-, rfl⟩ := cons.inj heq
      exact ih hops hrest hzs

/-- The text of an operand behind prefix operators is read as the operators in their order and then
as the operand with the parentheses it needs there, if no operator is read together with the sign
behind it. If one is, the text is not read as the operators and anything behind them. -/
theorem operators_read_apart (hunary : e.isUnary = false) (hfront : Spelled A e.leftmost)
    (hops : ∀ p ∈ ops, p.2 ∈ prefixOperators) (hne : ops ≠ []) (depth : Nat) :
    ((e.behind ops).keepsSigns → ∀ xs, Tokens A ((e.behind ops).render depth).toList xs ↔
        ∃ ys, Tokens A (e.fit Level.unary (e.render depth)).toList ys ∧
          xs = ops.map (.punct ·.2) ++ ys) ∧
      ((e.behind ops).keepsSigns = false → ∀ ys,
        ¬ Tokens A ((e.behind ops).render depth).toList (ops.map (.punct ·.2) ++ ys)) := by
  have htext : ((e.behind ops).render depth).toList = operandText depth (e.behind ops) := by
    obtain ⟨p, ps, rfl⟩ := exists_cons_of_ne_nil hne
    rfl
  rw [htext]
  exact ⟨fun h xs => tokens_behind_iff depth hunary hfront hops h,
    fun h => not_tokens_behind depth hunary hfront hops h⟩

/-! ### A function behind operators, and a number that loses its sign -/

/-- A function with a body on several lines. -/
def returning : Expr :=
  .func {} none [] (.mk {} [] [.ret {} .missing])

def signs : List (Info × String) :=
  [({}, "-"), ({}, "-"), ({}, "+"), ({}, "--"), ({}, "!")]

theorem operators_read_apart_lines :
    returning.isUnary = false ∧ Spelled .ascii returning.leftmost ∧
    (∀ p ∈ signs, p.2 ∈ prefixOperators) ∧ (returning.behind signs).keepsSigns ∧
    (returning.behind signs).render 0 = "- -+--!function() \x7b\n    return;\n\x7d" ∧
    ∀ xs, Tokens .ascii "- -+--!function() \x7b\n    return;\n\x7d".toList xs ↔
      ∃ ys, Tokens .ascii "function() \x7b\n    return;\n\x7d".toList ys ∧
        xs = signs.map (.punct ·.2) ++ ys := by
  have hops : ∀ p ∈ signs, p.2 ∈ prefixOperators := by decide
  have hkeeps : (returning.behind signs).keepsSigns := by decide
  have htext : (returning.behind signs).render 0 =
      "- -+--!function() \x7b\n    return;\n\x7d" := by
    decide +kernel
  have hoperand : returning.fit Level.unary (returning.render 0) =
      "function() \x7b\n    return;\n\x7d" := by
    decide +kernel
  have hapart := operators_read_apart (A := .ascii) (e := returning) rfl trivial hops nofun 0
  have happly := hapart.1 hkeeps
  rw [htext, hoperand] at happly
  exact ⟨rfl, trivial, hops, hkeeps, htext, happly⟩

theorem tokens_one : Tokens .ascii "1".toList [.number "1"] := by
  have hone : IsNumeral "1".toList := .decimal (.digits (.one rfl) (by decide)) .nil
  have hlong : ∀ w' rest' x', w' ++ rest' = "1".toList ++ [] → Element .ascii w' rest' x' →
      w'.length ≤ "1".toList.length := by
    intro w' rest' x' heq _
    have hlength := congrArg length heq
    simp only [length_append, length_nil] at hlength
    omega
  exact .lexeme (.number hone) hlong (by simp) .nil

/-- A negated number with a sign is read as a decremented one. -/
theorem negated_literal_read_as_decrement :
    (Node.expr (.unary {} "-" (.number {} "-1"))).print? = some "--1" ∧
    Tokens .ascii "-1".toList [.punct "-", .number "1"] ∧
    Tokens .ascii "--1".toList [.punct "--", .number "1"] ∧
    ¬ Tokens .ascii "--1".toList [.punct "-", .punct "-", .number "1"] := by
  have hsigned (op : String) (hop : op ∈ prefixOperators) :
      Tokens .ascii (op.toList ++ "1".toList) [.punct op, .number "1"] :=
    (tokens_operator_iff hop (apart_of_unsigned hop (.cons (by decide) []))).2 ⟨_, tokens_one, rfl⟩
  have hjoined : ¬ Tokens .ascii ("-".toList ++ '-' :: ['1'])
      [.punct "-", .punct "-", .number "1"] :=
    not_tokens_operator (p := "--") (by decide) (by decide) (by decide) rfl _
  exact ⟨by decide +kernel, hsigned "-" (by decide), hsigned "--" (by decide), hjoined⟩

end Grammar

end ExtensionLowering
