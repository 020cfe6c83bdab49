import ExtensionLowering.Proofs.Reading.Expression
import ExtensionLowering.Tree.Build
/-!
# How a text opens

A text that begins with a brace is read as a block behind an arrow and at the start of a statement,
and one that begins with the word `function` is read as a declaration there. What a printed text
begins with is decided by its leftmost expression, unless the printer puts parentheses somewhere on
the way to it.

An expression statement is put into parentheses whenever its text would begin in one of these ways.
The result of an arrow function is put into parentheses only if it is an object literal itself, so
that an object literal on the left of an operator or of a conditional is read as a block.

## Main definitions

* `Expr.leftmost`, `Expr.opensBare`: what a text begins with.
* `Misread`: the texts that are no expression at the start of a statement.

## Main statements

* `statement_opens_unambiguously`: how expression statements begin.
* `concise_body_opens_block_iff`: which results of arrow functions begin with a brace.
-/
namespace ExtensionLowering

open List

namespace Expr

/-- The first operand of the first operand, and so on, as far as the text begins with an operand. -/
def leftmost : Expr → Expr
  | .binary _ _ l _ _ => l.leftmost
  | .cond _ c _ _ => c.leftmost
  | .prop _ _ o _ _ => o.leftmost
  | .elem _ _ o _ => o.leftmost
  | .call _ _ c _ _ => c.leftmost
  | e => e

/-- Whether the expression is printed without parentheses where `least` is asked for. -/
def fitsBare (least : Nat) (e : Expr) : Bool :=
  least ≤ e.level

/-- Whether the expression is printed without parentheses as a callee or as the object of a member
access. -/
def isBareTarget (e : Expr) : Bool :=
  !e.isWrappedTarget && e.fitsBare Level.call

/-- Whether the text begins with that of the leftmost expression: no parentheses are added on the
way to it. -/
def opensBare : Expr → Bool
  | .binary _ _ l op _ => l.fitsBare (leftLevel op) && l.opensBare
  | .cond _ c _ _ => c.fitsBare (Level.conditional + 1) && c.opensBare
  | .prop _ _ o _ _ => o.isBareTarget && o.opensBare
  | .elem _ _ o _ => o.isBareTarget && o.opensBare
  | .call _ _ c _ _ => c.isBareTarget && c.opensBare
  | _ => true

def isObject : Expr → Bool
  | .object .. => true
  | _ => false

def isFunction : Expr → Bool
  | .func .. => true
  | _ => false

/-- Whether the text of the expression begins with that of an operand. -/
def beginsWithOperand : Expr → Bool
  | .binary .. | .cond .. | .prop .. | .elem .. | .call .. => true
  | _ => false

/-- What is written for a name, a number or a prefix operator has the property. What follows the
operator is left open. -/
def Spells (p : List Char → Prop) : Expr → Prop
  | .ident id => p id.name.toList
  | .number _ s => p s.toList
  | .unary _ op _ => ∀ rest, p (op.toList ++ rest)
  | _ => True

/-- Whether the result of an arrow function is read as a block: it is no object literal and stands
without parentheses, but its text begins with an object literal. -/
def opensBlock (e : Expr) : Bool :=
  !e.isObject && e.fitsBare Level.assignment && e.opensBare && e.leftmost.isObject

theorem fit_eq (least : Nat) (e : Expr) (text : String) :
    e.fit least text = if e.fitsBare least then text else parenthesized text := by
  unfold fit fitsBare
  grind

theorem asTarget_eq_ite (e : Expr) (text : String) :
    e.asTarget text = if e.isBareTarget then text else parenthesized text := by
  unfold asTarget isBareTarget
  rw [fit_eq]
  grind

end Expr

namespace Grammar

variable {e : Expr} {cs rest : List Char} {A : Alphabet}
variable {x : Expr} {depth : Nat}

/-- The text begins with the word: no part of a name follows. -/
def Alphabet.OpensWith (A : Alphabet) (word : String) (cs : List Char) : Prop :=
  ∃ rest, cs = word.toList ++ rest ∧ ∀ c ∈ rest.head?, A.part c = false

/-- At the start of a statement the text is read as a block or as the declaration of a function. -/
def Misread (A : Alphabet) (cs : List Char) : Prop :=
  cs.head? = some '\x7b' ∨ A.OpensWith "function" cs

/-! ## What a text begins with -/

/-- What may stand behind the leftmost expression. -/
def followers : List Char :=
  [' ', ',', '.', '?', '[', '<', '(', ';']

/-- The text begins with that of the leftmost expression, of which what follows is no part, or with
a parenthesis. -/
def Opens (depth : Nat) (e : Expr) (cs : List Char) : Prop :=
  if e.opensBare then
    ∃ rest, cs = (e.leftmost.render depth).toList ++ rest ∧ ∀ c ∈ rest.head?, c ∈ followers
  else cs.head? = some '('

theorem Opens.append {ds : List Char} (h : Opens depth e cs) (hds : ∀ c ∈ ds.head?, c ∈ followers) :
    Opens depth e (cs ++ ds) := by
  unfold Opens at h ⊢
  split
  · obtain ⟨rest, rfl, hrest⟩ := by simpa [*] using h
    refine ⟨rest ++ ds, by simp, ?_⟩
    cases rest with
    | nil => exact hds
    | cons c rest => exact hrest
  · have hopen : cs.head? = some '(' := by simpa [*] using h
    rw [head?_append, hopen]
    rfl

attribute [local simp] parenthesized

/-- An expression opens as its first operand does, unless that is put into parentheses. -/
theorem Opens.operand {o : Expr} {b : Bool} {r : List Char}
    (ho : Opens depth o (o.render depth).toList) (hleft : e.leftmost = o.leftmost)
    (hbare : e.opensBare = (b && o.opensBare)) (hrest : ∀ c ∈ r.head?, c ∈ followers)
    (htext : (e.render depth).toList =
      (if b then o.render depth else parenthesized (o.render depth)).toList ++ r) :
    Opens depth e (e.render depth).toList := by
  cases b with
  | false =>
    have hclosed : e.opensBare = false := hbare
    simp [Opens, hclosed, htext]
  | true =>
    have hsame : e.opensBare = o.opensBare := hbare
    have happend := ho.append hrest
    rw [htext]
    simpa only [Opens, hsame, hleft, if_true] using happend

theorem Opens.self (hleft : e.leftmost = e) (hbare : e.opensBare) :
    Opens depth e (e.render depth).toList := by
  simp [Opens, hbare, hleft]

theorem render_opens (depth : Nat) : ∀ e : Expr, Opens depth e (e.render depth).toList
  | .binary i f l op r => by
    refine (render_opens depth l).operand (b := l.fitsBare (Expr.leftLevel op))
      (r := (if op = "," then ", " else " " ++ op ++ " ").toList ++
        (r.fit (Expr.rightLevel op) (r.render depth)).toList) rfl rfl ?_ ?_
    · by_cases hcomma : op = "," <;> simp [hcomma, followers]
    · simp [Expr.render_binary, Expr.fit_eq]
  | .cond i c t e => by
    refine (render_opens depth c).operand (b := c.fitsBare (Level.conditional + 1))
      (r := " ? ".toList ++ (t.fit Level.assignment (t.render depth)).toList ++ " : ".toList ++
        (e.fit Level.assignment (e.render depth)).toList) rfl rfl ?_ ?_
    · simp [followers]
    · simp [Expr.render_cond, Expr.fit_eq]
  | .prop i f o name optional => by
    refine (render_opens depth o).operand (b := o.isBareTarget)
      (r := (if optional then "?." else ".").toList ++ (nameText name).toList) rfl rfl ?_ ?_
    · cases optional <;> simp [followers]
    · simp [Expr.render_prop, Expr.asTarget_eq_ite]
  | .elem i f o x => by
    refine (render_opens depth o).operand (b := o.isBareTarget)
      (r := "[".toList ++ (x.render depth).toList ++ "]".toList) rfl rfl ?_ ?_
    · simp [followers]
    · simp [Expr.render_elem, Expr.asTarget_eq_ite]
  | .call i f c ts as => by
    refine (render_opens depth c).operand (b := c.isBareTarget)
      (r := (angled (TypeRef.renders ts)).toList ++
        (parenthesized (commaSeparated (Expr.renders depth as))).toList) rfl rfl ?_ ?_
    · unfold angled
      split <;> simp [followers]
    · simp [Expr.render_call, Expr.asTarget_eq_ite]
  | .missing | .ident _ | .number .. | .string .. | .bool .. | .this _ | .super _ | .new ..
  | .unary .. | .paren .. | .void .. | .spread .. | .array .. | .object .. | .arrow ..
  | .func .. => .self rfl rfl

/-! ## Texts of leftmost expressions -/

theorem leftmost_beginsWithOperand : ∀ e : Expr, e.leftmost.beginsWithOperand = false
  | .binary _ _ l _ _ | .cond _ l _ _ | .prop _ _ l _ _ | .elem _ _ l _ | .call _ _ l _ _ =>
    leftmost_beginsWithOperand l
  | .missing | .ident _ | .number .. | .string .. | .bool .. | .this _ | .super _ | .new ..
  | .unary .. | .paren .. | .void .. | .spread .. | .array .. | .object .. | .arrow ..
  | .func .. => rfl

/-- What texts begin with that are no name, number or prefix operator and no object literal or
function; `false` begins as a function does. -/
def openers : List Char :=
  ['<', '"', 't', 's', 'n', '(', 'v', '.', '[']

/-- The property is decided by how a text begins. -/
structure OfOpening (p : List Char → Prop) : Prop where
  cons : ∀ c ∈ openers, ∀ cs, p (c :: cs)
  append : ∀ cs rest, p cs → (∀ c ∈ rest.head?, c ∈ followers) → p (cs ++ rest)
  falsehood : p "false".toList

attribute [local simp] Expr.render

/-- A text that begins with a name, a number or an operator has the property of these, and all other
texts have it but those of object literals and functions. -/
theorem OfOpening.render {p : List Char → Prop} (hp : OfOpening p) (depth : Nat)
    (hrest : ∀ c ∈ rest.head?, c ∈ followers) (hs : x.Spells p)
    (hoperand : x.beginsWithOperand = false) (hobject : x.isObject = false)
    (hfunction : x.isFunction = false) : p ((x.render depth).toList ++ rest) := by
  have hfirst (c : Char) (hc : c ∈ openers)
      (hhead : (x.render depth).toList.head? = some c) : p ((x.render depth).toList ++ rest) := by
    obtain ⟨cs, hcs⟩ := head?_eq_some_iff.1 hhead
    rw [hcs]
    exact hp.cons c hc (cs ++ rest)
  cases x with
  | ident | number => exact hp.append _ _ hs hrest
  | unary i op e =>
    rw [Expr.render_unary]
    simpa using hs _
  | bool i b =>
    cases b with
    | false => exact hp.append _ _ hp.falsehood hrest
    | true => exact hfirst 't' (by decide) (by simp)
  | string i v => exact hfirst '"' (by decide) (by simp [quote_toList])
  | missing => exact hfirst '<' (by decide) (by simp [missingText])
  | this i => exact hfirst 't' (by decide) (by simp)
  | super i => exact hfirst 's' (by decide) (by simp)
  | new i c ts as => exact hfirst 'n' (by decide) (by simp)
  | paren | arrow => exact hfirst '(' (by decide) (by simp)
  | void i e => exact hfirst 'v' (by decide) (by simp)
  | spread i e => exact hfirst '.' (by decide) (by simp)
  | array i es => exact hfirst '[' (by decide) (by simp)
  | object => cases hobject
  | func => cases hfunction
  | binary | cond | prop | elem | call => cases hoperand

theorem head_render_object (depth : Nat) (h : x.isObject) :
    (x.render depth).toList.head? = some '\x7b' := by
  cases x with
  | object i ps =>
    simp only [Expr.render, objectText]
    split <;> simp
  | _ => cases h

theorem head_render_function (depth : Nat) (h : x.isFunction) :
    (x.render depth).toList.head? = some 'f' := by
  cases x with
  | func i name ps b => simp
  | _ => cases h

/-! ## Expression statements -/

/-- What begins with a word does so without what may follow. -/
theorem Alphabet.OpensWith.of_append {word : String} (hword : ∀ c ∈ word.toList, c ∉ followers)
    (hrest : ∀ c ∈ rest.head?, c ∈ followers)
    (h : A.OpensWith word (cs ++ rest)) : A.OpensWith word cs := by
  obtain ⟨more, htext, hmore⟩ := h
  rcases append_eq_append_iff.1 htext with ⟨ws, hws, hsplit⟩ | ⟨ws, hws, hsplit⟩
  · -- The text ends inside the word, so what follows is a letter of it.
    cases ws with
    | nil => exact ⟨[], by simpa using hws.symm, by simp⟩
    | cons c ws =>
      have hletter : c ∈ word.toList := by simp [hws]
      exact absurd (hrest c (by simp [hsplit])) (hword c hletter)
  · refine ⟨ws, hws, fun c hc => ?_⟩
    cases ws with
    | nil => cases hc
    | cons d ds => exact hmore c (by simpa [hsplit] using hc)

theorem Misread.of_append (hrest : ∀ c ∈ rest.head?, c ∈ followers)
    (h : Misread A (cs ++ rest)) : Misread A cs := by
  rcases h with hbrace | hword
  · cases cs with
    | nil => exact absurd (hrest _ (by simpa using hbrace)) (by decide)
    | cons c cs => exact .inl hbrace
  · have hletters : "function".toList.all fun c => c ∉ followers := by decide
    exact .inr (hword.of_append (by simpa using all_eq_true.1 hletters) hrest)

theorem not_misread_cons {c : Char} (hbrace : c ≠ '\x7b') (hletter : c ≠ 'f')
    (cs : List Char) : ¬ Misread A (c :: cs) := by
  rintro (hhead | ⟨rest, htext, -⟩)
  · exact hbrace (by simpa using hhead)
  · exact hletter (cons.inj htext).1

theorem ofOpening_misread (A : Alphabet) : OfOpening fun cs => ¬ Misread A cs where
  cons c hc cs := by
    have hopeners : openers.all fun c => c ≠ '\x7b' && c ≠ 'f' := by decide
    have hc := all_eq_true.1 hopeners c hc
    simp only [Bool.and_eq_true, decide_eq_true_eq] at hc
    exact not_misread_cons hc.1 hc.2 cs
  append _ _ hcs hrest h := hcs (h.of_append hrest)
  falsehood := by
    rintro (hhead | ⟨rest, htext, -⟩)
    · cases hhead
    · cases (cons.inj (cons.inj htext).2).1

/-- An expression that opens with an object literal or a function is known to do so. -/
theorem startsAmbiguously_of_opensBare : ∀ e : Expr, e.opensBare →
    e.leftmost.isObject ∨ e.leftmost.isFunction → e.startsAmbiguously
  | .binary _ _ l _ _, hbare, h | .cond _ l _ _, hbare, h => by
    simp only [Expr.opensBare, Bool.and_eq_true] at hbare
    exact startsAmbiguously_of_opensBare l hbare.2 h
  | .prop _ _ o _ _, hbare, h | .elem _ _ o _, hbare, h | .call _ _ o _ _, hbare, h => by
    simp only [Expr.opensBare, Expr.isBareTarget, Bool.and_eq_true] at hbare
    simp [Expr.startsAmbiguously, hbare.1.1, startsAmbiguously_of_opensBare o hbare.2 h]
  | .object .., _, _ | .func .., _, _ => rfl
  | .missing, _, h | .ident _, _, h | .number .., _, h | .string .., _, h | .bool .., _, h
  | .this _, _, h | .super _, _, h | .new .., _, h | .unary .., _, h | .paren .., _, h
  | .void .., _, h | .spread .., _, h | .array .., _, h | .arrow .., _, h => by
    rcases h with h | h <;> cases h

theorem not_misread_of_not_startsAmbiguously (depth : Nat) {r : List Char}
    (hfront : e.leftmost.Spells fun cs => ¬ Misread A cs) (hplain : e.startsAmbiguously = false)
    (hr : ∀ c ∈ r.head?, c ∈ followers) : ¬ Misread A ((e.render depth).toList ++ r) := by
  have hopens := (render_opens depth e).append hr
  unfold Opens at hopens
  cases hbare : e.opensBare with
  | false =>
    rw [hbare, if_neg Bool.false_ne_true] at hopens
    obtain ⟨cs, hcs⟩ := head?_eq_some_iff.1 hopens
    rw [hcs]
    exact not_misread_cons (by decide) (by decide) cs
  | true =>
    obtain ⟨rest, htext, hrest⟩ := by simpa [hbare] using hopens
    have hneither : ¬ (e.leftmost.isObject ∨ e.leftmost.isFunction) := fun h => by
      simp [startsAmbiguously_of_opensBare e hbare h] at hplain
    simp only [not_or, Bool.not_eq_true] at hneither
    rw [htext]
    exact (ofOpening_misread A).render depth hrest hfront (leftmost_beginsWithOperand e)
      hneither.1 hneither.2

/-- An expression statement begins neither with a brace nor with the word `function`, and an
expression whose text does is one that the printer knows of, if no name, number or prefix operator
at its front begins so. -/
theorem statement_opens_unambiguously {A : Alphabet} {e : Expr}
    (hfront : e.leftmost.Spells fun cs => ¬ Misread A cs) (token : Token) (depth : Nat) :
    ¬ Misread A ((Stmt.expr token e).render depth).toList ∧
      (Misread A (e.render depth).toList → e.startsAmbiguously) := by
  have htext : ((Stmt.expr token e).render depth).toList =
      (if e.startsAmbiguously then parenthesized (e.render depth) else e.render depth).toList ++
        [';'] := by
    simp [Stmt.render]
  constructor
  · rw [htext]
    cases hplain : e.startsAmbiguously with
    | true =>
      simpa using not_misread_cons (by decide) (by decide) _
    | false =>
      exact not_misread_of_not_startsAmbiguously depth hfront hplain (by simp [followers])
  · intro hmisread
    by_contra hplain
    have hclear := not_misread_of_not_startsAmbiguously depth (r := []) hfront
      (by simpa using hplain) (by simp)
    exact hclear (by simpa using hmisread)

/-- A sum that begins with a name of which `function` is only the beginning. -/
def functionalSum : Expr :=
  let name (s : String) : Expr := .ident { name := s }
  .binary {} {} (.call {} {} (name "functional") [] [.object {} []]) "+" (name "x")

/-- A sum that begins with an object. -/
def objectSum : Expr :=
  .binary {} {} (.object {} []) "+" (.ident { name := "x" })

theorem functional_not_misread : ¬ Misread .ascii "functional".toList := by
  rintro (hhead | ⟨rest, htext, hrest⟩)
  · exact absurd hhead (by decide)
  · obtain rfl : rest = ['a', 'l'] := (append_right_inj "function".toList).1 htext.symm
    exact absurd (hrest 'a' rfl) (by decide)

theorem statement_opens_unambiguously_functional :
    (functionalSum.leftmost.Spells fun cs => ¬ Misread .ascii cs) ∧
    (Stmt.expr {} functionalSum).render 0 = "functional(\x7b\x7d) + x;" ∧
    ¬ Misread .ascii "functional(\x7b\x7d) + x;".toList ∧
    Misread .ascii (objectSum.render 0).toList ∧ objectSum.startsAmbiguously ∧
    ¬ Misread .ascii "(\x7b\x7d + x);".toList := by
  have htext : (Stmt.expr {} functionalSum).render 0 = "functional(\x7b\x7d) + x;" := by
    decide +kernel
  have hfront : functionalSum.leftmost.Spells fun cs => ¬ Misread .ascii cs :=
    functional_not_misread
  have hobject : (Stmt.expr {} objectSum).render 0 = "(\x7b\x7d + x);" := by decide +kernel
  have hbrace : Misread .ascii (objectSum.render 0).toList := .inl (by decide +kernel)
  obtain ⟨hwrapped, hknown⟩ := @statement_opens_unambiguously .ascii objectSum trivial {} 0
  exact ⟨hfront, htext, htext ▸ (statement_opens_unambiguously hfront {} 0).1, hbrace,
    hknown hbrace, hobject ▸ hwrapped⟩

/-! ## Results of arrow functions -/

theorem ofOpening_brace : OfOpening fun cs => cs.head? ≠ some '\x7b' where
  cons c hc cs := by
    have hopeners : openers.all fun c => c ≠ '\x7b' := by decide
    simpa using all_eq_true.1 hopeners c hc
  append cs rest hcs hrest := by
    cases cs with
    | nil =>
      intro hhead
      exact absurd (hrest _ (by simpa using hhead)) (by decide)
    | cons c cs => exact hcs
  falsehood := by decide

/-- The text begins with a brace exactly if an object literal opens it. -/
theorem head_render_eq_brace_iff (depth : Nat)
    (hfront : e.leftmost.Spells fun cs => cs.head? ≠ some '\x7b') :
    (e.render depth).toList.head? = some '\x7b' ↔ e.opensBare ∧ e.leftmost.isObject := by
  have hopens := render_opens depth e
  unfold Opens at hopens
  cases hbare : e.opensBare with
  | false =>
    have hopen : (e.render depth).toList.head? = some '(' := by simpa [hbare] using hopens
    simp [hopen]
  | true =>
    obtain ⟨rest, htext, hrest⟩ := by simpa [hbare] using hopens
    rw [htext]
    cases hobject : e.leftmost.isObject with
    | true => simp [head?_append, head_render_object depth hobject]
    | false =>
      cases hfunction : e.leftmost.isFunction with
      | true => simp [head?_append, head_render_function depth hfunction]
      | false =>
        simpa using ofOpening_brace.render depth hrest hfront (leftmost_beginsWithOperand e) hobject
          hfunction

/-- Behind the arrow of an arrow function stands its result, and the text of that begins with a
brace exactly if an object literal opens it that is not the whole result. -/
theorem concise_body_opens_block_iff {e : Expr}
    (hfront : e.leftmost.Spells fun cs => cs.head? ≠ some '\x7b') (i : Info) (ps : List Param)
    (depth : Nat) :
    ∃ body : String, (Expr.arrow i ps .missing e).render depth =
        parenthesized (commaSeparated (Param.renders depth ps)) ++ " => " ++ body ∧
      (body.toList.head? = some '\x7b' ↔ e.opensBlock) := by
  refine ⟨_, Expr.render_arrow, ?_⟩
  cases hobject : e.isObject with
  | true =>
    cases e with
    | object j members => simp [resultText, Expr.opensBlock, Expr.isObject]
    | _ => cases hobject
  | false =>
    have hresult : resultText e (e.render depth) = e.fit Level.assignment (e.render depth) := by
      cases e with
      | object => cases hobject
      | _ => rfl
    rw [hresult, Expr.fit_eq, Expr.opensBlock, hobject]
    cases e.fitsBare Level.assignment with
    | false => simp
    | true => simpa using head_render_eq_brace_iff depth hfront

/-- An object literal with a default, which is tested. -/
def testedRecord : Expr :=
  let name (s : String) : Expr := .ident { name := s }
  .cond {} (.binary {} {} (.object {} []) "??" (name "d")) (name "a") (name "b")

theorem concise_body_opens_block_iff_tested :
    (testedRecord.leftmost.Spells fun cs => cs.head? ≠ some '\x7b') ∧ testedRecord.opensBlock ∧
    ∃ body : String, (Expr.thunk testedRecord).render 0 = "() => " ++ body ∧
      body.toList.head? = some '\x7b' := by
  have hfront : testedRecord.leftmost.Spells fun cs => cs.head? ≠ some '\x7b' := trivial
  have hopens : testedRecord.opensBlock := by decide
  obtain ⟨body, htext, hbody⟩ := concise_body_opens_block_iff hfront (.synthetic "=>") [] 0
  exact ⟨hfront, hopens, body, htext, hbody.2 hopens⟩

/-- What is delayed around an object literal with a default is read as an empty block. -/
theorem delayed_record_opens_block :
    let record : Expr := .binary {} {} (.object {} []) "??" (.ident { name := "d" })
    (record.leftmost.Spells fun cs => cs.head? ≠ some '\x7b') ∧
    (Node.expr (.thunk record)).print? = some ("() => " ++ "\x7b\x7d ?? d") ∧
    "\x7b\x7d ?? d".toList.head? = some '\x7b' :=
  ⟨trivial, by decide +kernel, by decide⟩

end Grammar

end ExtensionLowering
