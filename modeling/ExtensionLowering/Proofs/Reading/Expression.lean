import ExtensionLowering.Proofs.Reading.Printed
import ExtensionLowering.Tree.Complete
/-!
# Printed expressions are read back

The text that is printed for a plain expression is an expression of the grammar, with one tree, and
this tree differs from the printed one in parentheses only: the binding levels of the printer put
parentheses wherever the grammar would group in another way.

## Main definitions

* `Expr.bare`: a tree without its parentheses and without what is not printed.
* `Plain`: the expressions without blocks and type arguments that the grammar has a place for.
-/
namespace ExtensionLowering

open List

/-- A parameter without its token. -/
def Param.bare : Param → Param
  | .mk _ name type optional rest init =>
    .mk {} (name.map fun id => { name := id.name }) type optional rest init

mutual

/-- The expression without parentheses, tokens, marks and facts. Blocks and object literals stay. -/
@[simp] def Expr.bare : Expr → Expr
  | .missing => .missing
  | .ident id => .ident { name := id.name }
  | .number _ s => .number {} s
  | .string _ v => .string {} v
  | .bool _ b => .bool {} b
  | .this _ => .this {}
  | .super _ => .super {}
  | .prop _ _ o name optional =>
    .prop {} {} o.bare (name.map fun id => { name := id.name }) optional
  | .elem _ _ o x => .elem {} {} o.bare x.bare
  | .call _ _ c ts as => .call {} {} c.bare ts (Expr.bares as)
  | .new _ c ts as => .new {} c.bare ts (Expr.bares as)
  | .binary _ _ l op r => .binary {} {} l.bare op r.bare
  | .unary _ op e => .unary {} op e.bare
  | .cond _ c t e => .cond {} c.bare t.bare e.bare
  | .paren _ e => e.bare
  | .void _ e => .void {} e.bare
  | .spread _ e => .spread {} e.bare
  | .array _ es => .array {} (Expr.bares es)
  | .object i ps => .object i ps
  | .arrow _ ps b e => .arrow {} (ps.map Param.bare) b e.bare
  | .func i name ps b => .func i name ps b

@[simp] def Expr.bares : List Expr → List Expr
  | [] => []
  | e :: es => e.bare :: Expr.bares es

end

/-! ## The text of each construct -/

namespace Expr

variable {depth : Nat} {i : Info} {f : SiteFacts} {c e l o r t x : Expr} {op : String}

theorem render_prop {name : Option Ident} {optional : Bool} :
    (Expr.prop i f o name optional).render depth =
      o.asTarget (o.render depth) ++ (if optional then "?." else ".") ++ nameText name := rfl

theorem render_elem : (Expr.elem i f o x).render depth =
    o.asTarget (o.render depth) ++ "[" ++ x.render depth ++ "]" := rfl

theorem render_call {f : CallFacts} {ts : List TypeRef} {as : List Expr} :
    (Expr.call i f c ts as).render depth =
      c.asTarget (c.render depth) ++ angled (TypeRef.renders ts) ++
        parenthesized (commaSeparated (Expr.renders depth as)) := rfl

theorem render_array {es : List Expr} : (Expr.array i es).render depth =
    "[" ++ commaSeparated (Expr.renders depth es) ++ "]" := rfl

theorem render_void :
    (Expr.void i e).render depth = "void " ++ e.fit Level.unary (e.render depth) := rfl

theorem render_spread :
    (Expr.spread i e).render depth = "..." ++ e.fit Level.assignment (e.render depth) := rfl

theorem render_unary : (Expr.unary i op e).render depth =
    op ++ unaryGap op e ++ e.fit Level.unary (e.render depth) := rfl

theorem render_cond : (Expr.cond i c t e).render depth =
    c.fit (Level.conditional + 1) (c.render depth) ++ " ? " ++
      t.fit Level.assignment (t.render depth) ++ " : " ++
      e.fit Level.assignment (e.render depth) := rfl

theorem render_arrow {ps : List Param} : (Expr.arrow i ps .missing e).render depth =
    parenthesized (commaSeparated (Param.renders depth ps)) ++ " => " ++
      resultText e (e.render depth) := rfl

/-- The levels that the printer asks for in the operands of an operator. -/
def leftLevel (op : String) : Nat :=
  if isRightAssoc op then Level.ofOperator op + 1 else Level.ofOperator op

def rightLevel (op : String) : Nat :=
  if isRightAssoc op then Level.ofOperator op else Level.ofOperator op + 1

theorem render_binary : (Expr.binary i f l op r).render depth =
    l.fit (leftLevel op) (l.render depth) ++ (if op = "," then ", " else " " ++ op ++ " ") ++
      r.fit (rightLevel op) (r.render depth) := by
  have hrender : (Expr.binary i f l op r).render depth =
      (let levels := if isRightAssoc op then (Level.ofOperator op + 1, Level.ofOperator op)
        else (Level.ofOperator op, Level.ofOperator op + 1)
      l.fit levels.1 (l.render depth) ++ (if op = "," then ", " else " " ++ op ++ " ") ++
        r.fit levels.2 (r.render depth)) := rfl
  rw [hrender]
  cases h : isRightAssoc op <;> simp [leftLevel, rightLevel, h]

end Expr

namespace Grammar

open Category

variable {A : Alphabet}
variable {e : Expr}

/-! ## Plain expressions -/

/-- The binary operators that the printer knows. -/
def binaryOperators : List String :=
  [",", "=", "+=", "-=", "??", "||", "&&", "|", "^", "&", "==", "!=", "===", "!==", "<", ">", "<=",
    ">=", "instanceof", "in", "<<", ">>", ">>>", "+", "-", "*", "/", "%", "**"]

/-- A name or a member access, perhaps in parentheses. -/
def isAssignable : Expr → Bool
  | .ident _ | .prop .. | .elem .. => true
  | .paren _ e => isAssignable e
  | _ => false

def isPrefixed : Expr → Bool
  | .unary .. | .void .. => true
  | _ => false

def isLogical : Expr → Bool
  | .binary _ _ _ op _ => op = "||" || op = "&&"
  | _ => false

/-- What the grammar asks of the operands of a binary operator, beyond what parentheses settle. -/
structure Admits (l : Expr) (op : String) (r : Expr) : Prop where
  operator : op ∈ binaryOperators
  target : op ∈ ["=", "+=", "-="] → isAssignable l
  power : op = "**" → isPrefixed l = false
  coalesce : op = "??" → isLogical l = false ∧ isLogical r = false

/-- A parameter that is a name. -/
inductive PlainParam (A : Alphabet) : Param → Prop
  | mk {token : Token} {id : Ident} (hword : A.IsWord id.name) (hname : id.name ∉ reserved) :
      PlainParam A (.mk token (some id) .missing false false .missing)

mutual

/-- The expressions without blocks and type arguments that the grammar has a place for. -/
inductive Plain (A : Alphabet) : Expr → Prop
  | ident {id : Ident} (hword : A.IsWord id.name) (hname : id.name ∉ reserved) : Plain A (.ident id)
  | number {i : Info} {s : String} (hs : IsNumeral s.toList) : Plain A (.number i s)
  | string {i : Info} {v : String} : Plain A (.string i v)
  | bool {i : Info} {b : Bool} : Plain A (.bool i b)
  | this {i : Info} : Plain A (.this i)
  | prop {i : Info} {f : SiteFacts} {o : Expr} {id : Ident} {optional : Bool} (ho : Plain A o)
      (hword : A.IsWord id.name) : Plain A (.prop i f o (some id) optional)
  | elem {i : Info} {f : SiteFacts} {o x : Expr} (ho : Plain A o) (hx : Plain A x) :
      Plain A (.elem i f o x)
  | call {i : Info} {f : CallFacts} {c : Expr} {as : List Expr} (hc : Plain A c)
      (has : ∀ e ∈ as, PlainElement A e) : Plain A (.call i f c [] as)
  | binary {i : Info} {f : SiteFacts} {l r : Expr} {op : String} (hl : Plain A l) (hr : Plain A r)
      (hop : Admits l op r) : Plain A (.binary i f l op r)
  | unary {i : Info} {op : String} {e : Expr} (hop : op ∈ unaryOperators) (he : Plain A e) :
      Plain A (.unary i op e)
  | cond {i : Info} {c t e : Expr} (hc : Plain A c) (ht : Plain A t) (he : Plain A e) :
      Plain A (.cond i c t e)
  | paren {i : Info} {e : Expr} (he : Plain A e) : Plain A (.paren i e)
  | void {i : Info} {e : Expr} (he : Plain A e) : Plain A (.void i e)
  | array {i : Info} {es : List Expr} (hes : ∀ e ∈ es, PlainElement A e) : Plain A (.array i es)
  | arrow {i : Info} {ps : List Param} {e : Expr} (hps : ∀ p ∈ ps, PlainParam A p)
      (he : Plain A e) : Plain A (.arrow i ps .missing e)

/-- A plain expression, or one that is spread. -/
inductive PlainElement (A : Alphabet) : Expr → Prop
  | plain {e : Expr} (he : Plain A e) : PlainElement A e
  | spread {i : Info} {e : Expr} (he : Plain A e) : PlainElement A (.spread i e)

end

/-! ## What is printed for an expression -/

/-- The text begins with nothing that a prefix operator could run into. -/
def Unsigned (cs : List Char) : Prop :=
  ∃ d ds, cs = d :: ds ∧ d ∉ ['=', '!', '-', '+', '~']

theorem Unsigned.cons {d : Char} (hd : d ∉ ['=', '!', '-', '+', '~']) (ds : List Char) :
    Unsigned (d :: ds) :=
  ⟨d, ds, rfl, hd⟩

theorem Unsigned.append {cs : List Char} (h : Unsigned cs) (ds : List Char) :
    Unsigned (cs ++ ds) := by
  obtain ⟨d, ds', rfl, hd⟩ := h
  exact .cons hd (ds' ++ ds)

theorem Unsigned.word {s : String} (h : A.IsWord s) : Unsigned s.toList := by
  obtain ⟨d, ds, htext, hd, -⟩ := h
  rw [htext]
  refine .cons (fun hmem => ?_) ds
  simp [A.start_eq_false _ (by decide) d hmem] at hd

theorem Unsigned.numeral {cs : List Char} (h : IsNumeral cs) : Unsigned cs := by
  have hdigits : ['=', '!', '-', '+', '~'].all fun d => !d.isDigit := by decide
  obtain ⟨d, ds, rfl, hd | ⟨rfl, -⟩⟩ := h.head
  · refine .cons (fun hmem => ?_) ds
    simpa [hd] using all_eq_true.1 hdigits d hmem
  · exact .cons (by decide) ds

/-- The expression is printed at its level, and as the target of a chain if it needs no parentheses
there. -/
structure Legible (A : Alphabet) (depth : Nat) (e : Expr) : Prop where
  level : e.level ∈ levels
  whole : ∃ t, t.bare = e.bare ∧ Printed A loose (ofLevel e.level) (e.render depth).toList t
  target : 18 ≤ e.level → e.isWrappedTarget = false → ∃ c ∈ [member, call], ∃ t, t.bare = e.bare ∧
    Printed A tight c (e.render depth).toList t
  unsigned : 18 ≤ e.level → Unsigned (e.render depth).toList

/-- The expression is printed as an element of a list. -/
def LegibleElement (A : Alphabet) (depth : Nat) (e : Expr) : Prop :=
  ∃ t, t.bare = e.bare ∧ Printed A loose element (e.fit Level.spread (e.render depth)).toList t

namespace Legible

variable {i : Info} {op : String}
variable {A : Alphabet} {depth : Nat} {e o x : Expr}
variable {l r t : Expr} {f : SiteFacts}

theorem parenthesized (h : Legible A depth e) : ∃ t, t.bare = e.bare ∧
    Printed A tight primary (ExtensionLowering.parenthesized (e.render depth)).toList t := by
  obtain ⟨t, hbare, hprinted⟩ := h.whole
  have hexpr := hprinted.widen (c := expression) (by decide) h.level (Nat.zero_le _)
  exact ⟨.paren {} t, hbare, by simpa [ExtensionLowering.parenthesized] using hexpr.paren⟩

/-- The text of an operand is of any category that binds as loosely as its place. -/
theorem fit (h : Legible A depth e) {c : Category} (least : Nat) (hc : c ∈ wide)
    (hle : least ≤ e.level → c.rank ≤ e.level) : ∃ t, t.bare = e.bare ∧
      Printed A loose c (e.fit least (e.render depth)).toList t := by
  unfold Expr.fit
  split
  · have hrank : ∀ c ∈ wide, c.rank ≤ 20 := by decide
    obtain ⟨t, hbare, hprinted⟩ := h.parenthesized
    exact ⟨t, hbare, hprinted.loosen.widen (l := 20) hc (by decide) (hrank c hc)⟩
  · obtain ⟨t, hbare, hprinted⟩ := h.whole
    exact ⟨t, hbare, hprinted.widen hc h.level (hle (by omega))⟩

theorem asTarget (h : Legible A depth e) : ∃ c ∈ [member, call], ∃ t, t.bare = e.bare ∧
    Printed A tight c (e.asTarget (e.render depth)).toList t := by
  obtain ⟨t, hbare, hprinted⟩ := h.parenthesized
  have hmember := hprinted.wider (c := member) (by decide)
  unfold Expr.asTarget Expr.fit
  split
  · exact ⟨member, by simp, t, hbare, hmember⟩
  · split
    · exact ⟨member, by simp, t, hbare, hmember⟩
    · exact h.target (by simp_all [Level.call]) (by simp_all)

theorem unsigned_parenthesized (s : String) :
    Unsigned (ExtensionLowering.parenthesized s).toList := by
  simpa [ExtensionLowering.parenthesized] using Unsigned.cons (by decide) _

theorem unsigned_asTarget (h : Legible A depth e) :
    Unsigned (e.asTarget (e.render depth)).toList := by
  unfold Expr.asTarget Expr.fit
  split
  · exact unsigned_parenthesized _
  · split
    · exact unsigned_parenthesized _
    · exact h.unsigned (by simp_all [Level.call])

/-! One lemma for each construct, from those of its parts. -/

theorem of_primary (hlevel : e.level = Level.primary) (hbare : t.bare = e.bare)
    (hunsigned : Unsigned (e.render depth).toList)
    (h : Printed A tight primary (e.render depth).toList t) : Legible A depth e where
  level := by rw [hlevel]; decide
  whole := ⟨t, hbare, by rw [hlevel]; exact h.loosen⟩
  target _ _ := ⟨member, by simp, t, hbare, h.wider (by decide)⟩
  unsigned _ := hunsigned

theorem of_chain {c : Category} {rest : List Char} (hlevel : e.level = Level.call)
    (hbare : t.bare = e.bare) (hc : c ∈ [member, call])
    (htext : (e.render depth).toList = (o.asTarget (o.render depth)).toList ++ rest)
    (ho : Legible A depth o)
    (h : Printed A tight c ((o.asTarget (o.render depth)).toList ++ rest) t) :
    Legible A depth e where
  level := by rw [hlevel]; decide
  whole := by
    have hreach : ∀ c ∈ [member, Category.call], leftHandSide.reaches 3 c := by decide
    obtain ⟨ps, hw, hd⟩ := h.loosen
    rw [hlevel, htext]
    exact ⟨t, hbare, ps, hw, .of_reaches (hreach c hc) hd⟩
  target _ _ := ⟨c, hc, t, hbare, htext ▸ h⟩
  unsigned _ := htext ▸ ho.unsigned_asTarget.append rest

theorem of_loose {l : Nat} (hlevel : e.level = l) (hl : l ∈ levels) (hlow : l < 18)
    (hbare : t.bare = e.bare) (h : Printed A loose (ofLevel l) (e.render depth).toList t) :
    Legible A depth e where
  level := hlevel ▸ hl
  whole := ⟨t, hbare, hlevel ▸ h⟩
  target hhigh := by omega
  unsigned hhigh := by omega

theorem ident {id : Ident} (hword : A.IsWord id.name) (hname : id.name ∉ reserved) :
    Legible A depth (.ident id) :=
  .of_primary (t := .ident { name := id.name }) rfl rfl (.word hword) (.name hword hname)

theorem number {s : String} (hs : IsNumeral s.toList) : Legible A depth (.number i s) where
  level := by simp [Expr.level, levels, Level.primary]
  whole := ⟨.number {} s, rfl, .number hs⟩
  target _ hwrapped := by cases hwrapped
  unsigned _ := .numeral hs

theorem string {v : String} : Legible A depth (.string i v) := by
  refine .of_primary (t := .string {} v) rfl rfl ?_ (.string v)
  exact quote_toList v ▸ .cons (by decide) _

theorem bool {b : Bool} : Legible A depth (.bool i b) := by
  have hword : A.IsWord (if b then "true" else "false") := isWord_keyword A (by cases b <;> simp)
  exact .of_primary (t := .bool {} b) rfl rfl (.word hword) (.bool b)

theorem this : Legible A depth (.this i) := by
  have hword : A.IsWord "this" := isWord_keyword A (by simp)
  exact .of_primary (t := .this {}) rfl rfl (.word hword) .this

theorem paren (h : Legible A depth e) : Legible A depth (.paren i e) := by
  obtain ⟨t, hbare, hprinted⟩ := h.parenthesized
  exact .of_primary (t := t) rfl hbare (unsigned_parenthesized _) hprinted

theorem prop {id : Ident} {optional : Bool} (h : Legible A depth o) (hword : A.IsWord id.name) :
    Legible A depth (.prop i f o (some id) optional) := by
  obtain ⟨c, hc, t, hbare, hprinted⟩ := h.asTarget
  cases optional with
  | true =>
    refine .of_chain rfl ?_ (by simp) ?_ h (hprinted.optional hc hword)
    · simp [hbare]
    · simp [Expr.render_prop, nameText]
  | false =>
    refine .of_chain rfl ?_ hc ?_ h (hprinted.access hc hword)
    · simp [hbare]
    · simp [Expr.render_prop, nameText]

theorem elem (h : Legible A depth o) (hx : Legible A depth x) :
    Legible A depth (.elem i f o x) := by
  obtain ⟨c, hc, t, hbare, hprinted⟩ := h.asTarget
  obtain ⟨u, hbare', hprinted'⟩ := hx.whole
  have hexpr := hprinted'.widen (c := expression) (by decide) hx.level (Nat.zero_le _)
  refine .of_chain rfl ?_ hc ?_ h (hprinted.index hc hexpr)
  · simp [hbare, hbare']
  · simp [Expr.render_elem]

/-- The elements of a list, printed one by one. -/
theorem elements {es : List Expr} (h : ∀ e ∈ es, LegibleElement A depth e) :
    ∃ ts, Expr.bares ts = Expr.bares es ∧
      PrintedList A (commaSeparated (Expr.renders depth es)).toList ts := by
  suffices hlist : ∃ ts, Expr.bares ts = Expr.bares es ∧ List.Forall₂
      (fun s t => Printed A loose element s.toList t) (Expr.renders depth es) ts by
    obtain ⟨ts, hbare, hts⟩ := hlist
    exact ⟨ts, hbare, .commaSeparated hts⟩
  induction es with
  | nil => exact ⟨[], rfl, .nil⟩
  | cons e es ih =>
    obtain ⟨t, hbare, ht⟩ := h e (by simp)
    obtain ⟨ts, hbares, hts⟩ := ih fun x hx => h x (by simp [hx])
    exact ⟨t :: ts, by simp [hbare, hbares], .cons ht hts⟩

theorem call {f : CallFacts} {as : List Expr} (h : Legible A depth o)
    (has : ∀ e ∈ as, LegibleElement A depth e) : Legible A depth (.call i f o [] as) := by
  obtain ⟨c, hc, t, hbare, hprinted⟩ := h.asTarget
  obtain ⟨ts, hbares, hlist⟩ := elements has
  refine .of_chain rfl ?_ (by simp) ?_ h (hprinted.call hc hlist)
  · simp [hbare, hbares]
  · simp [Expr.render_call, TypeRef.renders, angled, ExtensionLowering.parenthesized]

theorem array {es : List Expr} (hes : ∀ e ∈ es, LegibleElement A depth e) :
    Legible A depth (.array i es) := by
  obtain ⟨ts, hbares, hlist⟩ := elements hes
  have htext : (Expr.render depth (.array i es)).toList =
      '[' :: ((commaSeparated (Expr.renders depth es)).toList ++ [']']) := by
    simp [Expr.render_array]
  refine .of_primary (t := .array {} ts) rfl ?_ ?_ ?_
  · simp [hbares]
  · rw [htext]
    exact .cons (by decide) _
  · rw [htext]
    exact .array hlist

theorem void (h : Legible A depth e) : Legible A depth (.void i e) := by
  obtain ⟨t, hbare, hprinted⟩ := h.fit (c := Category.unary) Level.unary (by decide) id
  refine .of_loose (t := .void {} t) (l := 16) rfl (by decide) (by decide) ?_ ?_
  · simp [hbare]
  · simpa [Expr.render_void, ofLevel] using hprinted.void

theorem cond {c : Expr} (hc : Legible A depth c) (ht : Legible A depth t) (he : Legible A depth e) :
    Legible A depth (.cond i c t e) := by
  obtain ⟨c', hbare, hprinted⟩ :=
    hc.fit (c := shortCircuit) (Level.conditional + 1) (by decide) id
  obtain ⟨t', hbare', hprinted'⟩ := ht.fit (c := assignment) Level.assignment (by decide) id
  obtain ⟨e', hbare'', hprinted''⟩ := he.fit (c := assignment) Level.assignment (by decide) id
  refine .of_loose (t := .cond {} c' t' e') (l := 3) rfl (by decide) (by decide) ?_ ?_
  · simp [hbare, hbare', hbare'']
  · simpa [Expr.render_cond, ofLevel] using hprinted.cond hprinted' hprinted''

theorem isPrefixed_of_level (h : e.level = 16) : isPrefixed e := by
  have hop (op : String) : Level.ofOperator op ≤ 15 := by
    unfold Level.ofOperator
    split <;> decide
  cases e with
  | binary i f l op r =>
    have := hop op
    simp only [Expr.level] at h
    omega
  | unary => rfl
  | void => rfl
  | _ => cases h

/-- Between a prefix operator and an operand without one nothing is needed. -/
theorem unsigned_fit (h : Legible A depth e) (hunary : ∀ j op x, e ≠ .unary j op x) :
    Unsigned (e.fit Level.unary (e.render depth)).toList := by
  unfold Expr.fit
  split
  · exact unsigned_parenthesized _
  · by_cases hlevel : e.level = 16
    · have hprefixed := isPrefixed_of_level hlevel
      cases e with
      | unary j op x => exact absurd rfl (hunary j op x)
      | void j x =>
        rw [Expr.render_void, String.toList_append]
        exact .append (.cons (by decide) _) _
      | _ => cases hprefixed
    · have hlevels : ∀ l ∈ levels, Level.unary ≤ l → l ≠ 16 → 18 ≤ l := by decide
      exact h.unsigned (hlevels _ h.level (by omega) hlevel)

/-- What follows a prefix operator does not run into it: equal operators have a gap between them. -/
theorem begins_operand (hop : op ∈ unaryOperators) (h : Legible A depth e)
    (hinner : ∀ j inner x, e = .unary j inner x → inner ∈ unaryOperators) :
    ∃ d ds, (unaryGap op e ++ e.fit Level.unary (e.render depth)).toList = d :: ds ∧ d ≠ '=' ∧
      [d] ≠ op.toList := by
  have hany : ∀ op ∈ unaryOperators, ['!', '-', '+', '~'].any fun c => op.toList = [c] := by decide
  have hchar (op : String) (hop : op ∈ unaryOperators) :
      ∃ c ∈ ['!', '-', '+', '~'], op.toList = [c] := by
    simpa only [any_eq_true, decide_eq_true_eq] using hany op hop
  obtain ⟨c, hc, htext⟩ := hchar op hop
  by_cases hunary : ∃ j inner x, e = .unary j inner x
  · obtain ⟨j, inner, x, rfl⟩ := hunary
    by_cases hsame : inner = op
    · -- The gap keeps two equal operators apart.
      refine ⟨' ', _, by simp [unaryGap, hsame]; rfl, by decide, ?_⟩
      rw [htext]
      rintro ⟨⟩
      exact absurd hc (by decide)
    · obtain ⟨d, hd, hinnerText⟩ := hchar inner (hinner j inner x rfl)
      have hdc : d ≠ c := by
        rintro rfl
        exact hsame (String.toList_injective (hinnerText.trans htext.symm))
      have hne : d ≠ '=' := by
        rintro rfl
        exact absurd hd (by decide)
      have hapart : [d] ≠ op.toList := by simpa [htext] using hdc
      exact ⟨d, _, by
        simp [unaryGap, hsame, Expr.fit, Expr.level, Expr.render_unary, hinnerText]
        rfl, hne, hapart⟩
  · obtain ⟨d, ds, hds, hd⟩ := h.unsigned_fit fun j inner x heq => hunary ⟨j, inner, x, heq⟩
    have hgap : unaryGap op e = "" := by
      cases e with
      | unary j inner x => exact absurd ⟨j, inner, x, rfl⟩ hunary
      | _ => rfl
    refine ⟨d, ds, by simpa [hgap] using hds, ?_, ?_⟩
    · rintro rfl
      exact hd (by decide)
    · rw [htext]
      rintro ⟨⟩
      exact hd (mem_cons_of_mem _ hc)

theorem unary (hop : op ∈ unaryOperators) (h : Legible A depth e)
    (hinner : ∀ j inner x, e = .unary j inner x → inner ∈ unaryOperators) :
    Legible A depth (.unary i op e) := by
  obtain ⟨t, hbare, hprinted⟩ := h.fit (c := Category.unary) Level.unary (by decide) id
  have hgap : Printed A loose Category.unary
      (unaryGap op e ++ e.fit Level.unary (e.render depth)).toList t := by
    rw [String.toList_append]
    have hcases : unaryGap op e = "" ∨ unaryGap op e = " " := by
      unfold unaryGap
      split
      · split <;> simp
      · simp
    rcases hcases with hempty | hspace
    · simpa [hempty] using hprinted
    · simpa [hspace] using hprinted.gap
  obtain ⟨d, ds, hds, heq, hsame⟩ := h.begins_operand hop hinner
  rw [hds] at hgap
  refine .of_loose (t := .unary {} op t) (l := 16) rfl (by decide) (by decide) ?_ ?_
  · simp [hbare]
  · rw [Expr.render_unary, String.append_assoc, String.toList_append, hds]
    exact hgap.unary hop heq hsame

/-- The parameters that are names print as these. -/
theorem params (depth : Nat) {ps : List Param} (hps : ∀ p ∈ ps, PlainParam A p) :
    ∃ ss : List String, (∀ s ∈ ss, A.IsWord s ∧ s ∉ reserved) ∧ Param.renders depth ps = ss ∧
      (ss.map nameParam).map Param.bare = ps.map Param.bare := by
  induction ps with
  | nil => exact ⟨[], by simp, rfl, rfl⟩
  | cons p ps ih =>
    obtain ⟨ss, hss, htexts, hbare⟩ := ih fun q hq => hps q (by simp [hq])
    cases hps p (by simp) with
    | @mk token id hword hname =>
      refine ⟨id.name :: ss, ?_, ?_, ?_⟩
      · simpa using ⟨⟨hword, hname⟩, hss⟩
      · simp [Param.renders, Param.render, htexts, nameText, annotationText, initText,
          TypeRef.isMissing, Expr.isMissing]
      · simp only [map_cons, hbare]
        rfl

theorem arrow {ps : List Param} (hps : ∀ p ∈ ps, PlainParam A p) (h : Legible A depth e)
    (hobject : ∀ text, resultText e text = e.fit Level.assignment text) :
    Legible A depth (.arrow i ps .missing e) := by
  obtain ⟨t, hbare, hprinted⟩ := h.fit (c := assignment) Level.assignment (by decide) id
  obtain ⟨ss, hss, htexts, hbares⟩ := params depth hps
  refine .of_loose (t := .arrow {} (ss.map nameParam) .missing t) (l := 2) rfl (by decide)
    (by decide) ?_ ?_
  · simp only [Expr.bare, hbare, hbares]
  · simpa [Expr.render_arrow, htexts, hobject, ExtensionLowering.parenthesized, ofLevel]
      using hprinted.arrow hss

/-- Whether an operand of level `l` without parentheses may stand on the left of the operator. -/
def leftAdmits (op : String) (l : Nat) : Bool :=
  Expr.leftLevel op ≤ l && (!(contains ["=", "+=", "-="] op) || 18 ≤ l) &&
    !(op = "**" && l = 16) && !(op = "??" && [4, 5, 6].contains l)

/-- The same on the right. -/
def rightAdmits (op : String) (l : Nat) : Bool :=
  Expr.rightLevel op ≤ l && !(op = "??" && [5, 6].contains l)

/-- For each operator, a rule of the grammar takes what the printer leaves without parentheses. -/
theorem rule_operator : ∀ op ∈ binaryOperators, ∃ o ∈ operations, op ∈ o.ops ∧
    o.result = ofLevel (Level.ofOperator op) ∧ (o.left ∈ wide ∧ o.right ∈ wide) ∧
    (∀ l ∈ levels, leftAdmits op l → o.left.rank ≤ l) ∧
    ∀ l ∈ levels, rightAdmits op l → o.right.rank ≤ l := by
  decide +kernel

theorem level_of_isAssignable (h : isAssignable e) : 18 ≤ e.level := by
  cases e with
  | ident | prop | elem | paren => simp [Expr.level, Level.primary, Level.call]
  | _ => cases h

theorem isLogical_of_level (h : e.level ∈ [5, 6]) : isLogical e := by
  have hop (op : String) (h : Level.ofOperator op ∈ [5, 6]) : op = "||" ∨ op = "&&" := by
    unfold Level.ofOperator at h
    split at h <;> simp_all [Level.comma, Level.assignment]
  cases e with
  | binary i f l op r => simpa [isLogical] using hop op h
  | _ => simp_all [Expr.level, Level.conditional, Level.assignment, Level.spread, Level.unary,
      Level.call, Level.primary]

/-- The left operand of an admitted operator needs no more than the printer's parentheses. -/
theorem leftAdmits_of_admits (hop : Admits l op r) (hlevel : Expr.leftLevel op ≤ l.level)
    (hfour : ¬ (op = "??" ∧ l.level = 4)) : leftAdmits op l.level := by
  have htarget : op ∈ ["=", "+=", "-="] → 18 ≤ l.level := fun h =>
    level_of_isAssignable (hop.target h)
  have hpower : ¬ (op = "**" ∧ l.level = 16) := fun ⟨h, h16⟩ => by
    simpa [hop.power h] using isPrefixed_of_level h16
  have hlogical : ¬ (op = "??" ∧ l.level ∈ [5, 6]) := fun ⟨h, hmem⟩ => by
    simpa [(hop.coalesce h).1] using isLogical_of_level hmem
  grind [leftAdmits]

theorem rightAdmits_of_admits (hop : Admits l op r) (hlevel : Expr.rightLevel op ≤ r.level) :
    rightAdmits op r.level := by
  have hlogical : ¬ (op = "??" ∧ r.level ∈ [5, 6]) := fun ⟨h, hmem⟩ => by
    simpa [(hop.coalesce h).2] using isLogical_of_level hmem
  grind [rightAdmits]

/-- The operands of an admitted operator are printed as a rule of the grammar asks for. -/
theorem operands (hl : Legible A depth l) (hr : Legible A depth r) (hop : Admits l op r) :
    ∃ o ∈ operations, op ∈ o.ops ∧
      o.result = ofLevel (Level.ofOperator op) ∧
      (∃ t, t.bare = l.bare ∧
        Printed A loose o.left (l.fit (Expr.leftLevel op) (l.render depth)).toList t) ∧
      ∃ u, u.bare = r.bare ∧
        Printed A loose o.right (r.fit (Expr.rightLevel op) (r.render depth)).toList u := by
  by_cases hfour : op = "??" ∧ l.level = 4
  · -- A chain of coalescing operators has a rule of its own: it includes no looser category.
    obtain ⟨rfl, hlevel⟩ := hfour
    have hfit : l.fit (Expr.leftLevel "??") (l.render depth) = l.render depth := by
      simp [Expr.fit, hlevel, Expr.leftLevel, isRightAssoc, Level.ofOperator]
    have hright : Expr.rightLevel "??" ≤ r.level → bitOr.rank ≤ r.level := fun hle => by
      have hrank : ∀ l ∈ levels, rightAdmits "??" l → bitOr.rank ≤ l := by decide
      exact hrank _ hr.level (rightAdmits_of_admits hop hle)
    refine ⟨⟨Category.coalesce, Category.coalesce, ["??"], bitOr⟩, by simp [operations], by simp,
      rfl, ?_, hr.fit (Expr.rightLevel "??") (by decide) hright⟩
    obtain ⟨t, hbare, hprinted⟩ := hl.whole
    rw [hlevel] at hprinted
    exact ⟨t, hbare, hfit.symm ▸ hprinted⟩
  · obtain ⟨o, ho, hmem, hresult, ⟨hleft, hright⟩, hadmitsLeft, hadmitsRight⟩ :=
      rule_operator op hop.operator
    exact ⟨o, ho, hmem, hresult,
      hl.fit (Expr.leftLevel op) hleft fun hle =>
        hadmitsLeft _ hl.level (leftAdmits_of_admits hop hle hfour),
      hr.fit (Expr.rightLevel op) hright fun hle =>
        hadmitsRight _ hr.level (rightAdmits_of_admits hop hle)⟩

theorem binary (hl : Legible A depth l) (hr : Legible A depth r) (hop : Admits l op r) :
    Legible A depth (.binary i f l op r) := by
  obtain ⟨o, ho, hmem, hresult, ⟨t, hbare, hleft⟩, u, hbare', hright⟩ := operands hl hr hop
  have hlevels : ∀ op ∈ binaryOperators,
      Level.ofOperator op ∈ levels ∧ Level.ofOperator op < 18 := by
    decide
  obtain ⟨hlevel, hlow⟩ := hlevels op hop.operator
  refine .of_loose (t := .binary {} {} t op u) (l := Level.ofOperator op) rfl hlevel hlow ?_ ?_
  · simp [hbare, hbare']
  · rw [Expr.render_binary, String.append_assoc, String.toList_append, String.toList_append,
      ← hresult]
    exact .binary ho hmem hleft hright

end Legible

theorem LegibleElement.plain {depth : Nat} (h : Legible A depth e) : LegibleElement A depth e :=
  h.fit Level.spread (by decide) id

theorem LegibleElement.spread {depth : Nat} {i : Info} (h : Legible A depth e) :
    LegibleElement A depth (.spread i e) := by
  obtain ⟨t, hbare, hprinted⟩ := h.fit (c := assignment) Level.assignment (by decide) id
  refine ⟨.spread {} t, by simp [hbare], ?_⟩
  simpa [Expr.fit, Expr.level, Expr.render_spread] using hprinted.spread

mutual

theorem Plain.legible {A : Alphabet} (depth : Nat) {e : Expr} : Plain A e → Legible A depth e
  | .ident hword hname => .ident hword hname
  | .number hs => .number hs
  | .string => .string
  | .bool => .bool
  | .this => .this
  | .prop ho hword => (ho.legible depth).prop hword
  | .elem ho hx => (ho.legible depth).elem (hx.legible depth)
  | .call hc has => (hc.legible depth).call fun e he => (has e he).legible depth
  | .binary hl hr hop => (hl.legible depth).binary (hr.legible depth) hop
  | .unary hop he => (he.legible depth).unary hop fun j inner x heq => by
      subst heq
      cases he with
      | unary hinner _ => exact hinner
  | .cond hc ht he => (hc.legible depth).cond (ht.legible depth) (he.legible depth)
  | .paren he => (he.legible depth).paren
  | .void he => (he.legible depth).void
  | .array hes => .array fun e he => (hes e he).legible depth
  | .arrow hps he => (he.legible depth).arrow hps fun text => by
      cases he <;> rfl

theorem PlainElement.legible {A : Alphabet} (depth : Nat) {e : Expr} :
    PlainElement A e → LegibleElement A depth e
  | .plain he => .plain (he.legible depth)
  | .spread he => .spread (he.legible depth)

end

/-! ## Complete trees -/

theorem allComplete_of_forall {es : List Expr} (h : ∀ e ∈ es, e.isComplete) :
    Expr.allComplete es := by
  induction es with
  | nil => rfl
  | cons e es ih =>
    simp [Expr.allComplete, h e (by simp), ih fun x hx => h x (by simp [hx])]

theorem allComplete_params {ps : List Param} (h : ∀ p ∈ ps, PlainParam A p) :
    Param.allComplete ps := by
  induction ps with
  | nil => rfl
  | cons p ps ih =>
    cases h p (by simp) with
    | mk _ _ =>
      simp [Param.allComplete, Param.isComplete, ih fun q hq => h q (by simp [hq]),
        TypeRef.isCompleteAnnotation, TypeRef.isMissing, Expr.isComplete]

attribute [local simp] Expr.isComplete

mutual

theorem Plain.isComplete {A : Alphabet} {e : Expr} : Plain A e → e.isComplete
  | .ident .. | .number _ | .string | .bool | .this => rfl
  | .prop ho _ => by simp [ho.isComplete]
  | .elem ho hx | .binary ho hx _ => by simp [ho.isComplete, hx.isComplete]
  | .call hc has => by
    simp [hc.isComplete, TypeRef.allComplete,
      allComplete_of_forall fun e he => (has e he).isComplete]
  | .unary _ he | .paren he | .void he => by simp [he.isComplete]
  | .cond hc ht he => by simp [hc.isComplete, ht.isComplete, he.isComplete]
  | .array hes => by simp [allComplete_of_forall fun e he => (hes e he).isComplete]
  | .arrow hps he => by simp [allComplete_params hps, Block.isMissing, he.isComplete]

theorem PlainElement.isComplete {A : Alphabet} {e : Expr} : PlainElement A e → e.isComplete
  | .plain he => he.isComplete
  | .spread he => by simp [he.isComplete]

end

theorem Plain.print (h : Plain A e) : (Node.expr e).print? = some (e.render 0) := by
  have hmissing : e.isMissing = false := by cases h <;> rfl
  simp [Node.print?, Node.isComplete, Node.render, hmissing, h.isComplete]

/-! ## Reading back -/

/-- The text of a plain expression is read as its tree, up to parentheses. -/
theorem Plain.reads (h : Plain A e) (depth : Nat) :
    ∃ t, Reads A (e.render depth) t ∧ t.bare = e.bare := by
  have hlegible := h.legible depth
  obtain ⟨t, hbare, hprinted⟩ := hlegible.whole
  obtain ⟨ps, ⟨htext, hfits⟩, hderives⟩ :=
    hprinted.widen (c := expression) (by decide) hlegible.level (Nat.zero_le _)
  have hlexes : Lexes A (texts ps ++ []) (lexemes ps ++ []) := (hfits [] (by simp)).lexes .nil
  simp only [append_nil, htext] at hlexes
  exact ⟨t, ⟨lexemes ps, hlexes, hderives⟩, hbare⟩

/-- A plain expression is printed, and wherever it stands its text is read as one tree only, which
is its own up to parentheses. -/
theorem render_reads_back {A : Alphabet} {e : Expr} (h : Plain A e) :
    (Node.expr e).print? = some (e.render 0) ∧
      ∀ depth, ∃ t, (∀ u, Reads A (e.render depth) u ↔ u = t) ∧ t.bare = e.bare := by
  refine ⟨h.print, fun depth => ?_⟩
  obtain ⟨t, ht, hbare⟩ := h.reads depth
  refine ⟨t, fun u => ⟨fun hu => hu.unique ht, ?_⟩, hbare⟩
  rintro rfl
  exact ht

/-- The alphabet of ASCII texts. -/
def Alphabet.ascii : Alphabet where
  start c := c.isAlpha || c ∈ ['_', '$']
  part c := c.isAlphanum || c ∈ ['_', '$']
  blank c := decide (c ∈ [' ', '\t', '\x0b', '\x0c'])
  part_of_start c h := by
    simp only [Char.isAlphanum, Bool.or_eq_true] at h ⊢
    tauto
  part_of_blank c h := by
    have hblanks : [' ', '\t', '\x0b', '\x0c'].all fun c =>
        !(c.isAlphanum || c ∈ ['_', '$']) := by
      decide
    simpa only [Bool.not_eq_true'] using all_eq_true.1 hblanks c (by simpa using h)
  start_ascii _ _ := rfl
  part_ascii _ _ := rfl
  blank_ascii _ _ := rfl

/-- An assignment to a member of what an arrow function returns, of a power negated twice. -/
def negatedPower : Expr :=
  let name (s : String) : Expr := .ident { name := s }
  let same : Expr := .arrow {} [nameParam "x"] .missing (name "x")
  let called : Expr :=
    .call {} {} same [] [.spread {} (name "xs"), .binary {} {} (name "a") "," (name "b")]
  let power : Expr := .binary {} {} (name "a") "**" (.number {} "2")
  .binary {} {} (.prop {} {} called (some { name := "y" }) false) "="
    (.unary {} "-" (.unary {} "-" power))

theorem negatedPower_plain : Plain .ascii negatedPower := by
  have hword : ∀ s ∈ ["x", "xs", "a", "b", "y"], Alphabet.ascii.IsWord s ∧ s ∉ reserved := by
    intro s hs
    simp only [mem_cons, not_mem_nil, or_false] at hs
    rcases hs with rfl | rfl | rfl | rfl | rfl <;>
      exact ⟨⟨_, _, rfl, by decide, all_eq_true.1 (by decide)⟩, by decide⟩
  have hname (s : String) (hs : s ∈ ["x", "xs", "a", "b", "y"]) :
      Plain .ascii (.ident { name := s }) :=
    .ident (hword s hs).1 (hword s hs).2
  have hparam : PlainParam .ascii (nameParam "x") :=
    .mk (hword "x" (by simp)).1 (hword "x" (by simp)).2
  have hsame : Plain .ascii (.arrow {} [nameParam "x"] .missing (.ident { name := "x" })) :=
    .arrow (by simpa using hparam) (hname "x" (by simp))
  have hspread : PlainElement .ascii (.spread {} (.ident { name := "xs" })) :=
    .spread (hname "xs" (by simp))
  have hpair : PlainElement .ascii
      (.binary {} {} (.ident { name := "a" }) "," (.ident { name := "b" })) :=
    .plain (.binary (hname "a" (by simp)) (hname "b" (by simp))
      ⟨by decide, by decide, by decide, by decide⟩)
  have htwo : IsNumeral "2".toList := .decimal (.digits (.one rfl) (by decide)) .nil
  have hpower : Plain .ascii (.binary {} {} (.ident { name := "a" }) "**" (.number {} "2")) :=
    .binary (hname "a" (by simp)) (.number htwo) ⟨by decide, by decide, by decide, by decide⟩
  exact .binary (.prop (.call hsame (by simpa using ⟨hspread, hpair⟩)) (hword "y" (by simp)).1)
    (.unary (by decide) (.unary (by decide) hpower)) ⟨by decide, by decide, by decide, by decide⟩

theorem render_reads_back_negatedPower : Plain .ascii negatedPower ∧
    (Node.expr negatedPower).print? = some "((x) => x)(...xs, (a, b)).y = - -(a ** 2)" ∧
    ∃ t, (∀ u, Reads .ascii "((x) => x)(...xs, (a, b)).y = - -(a ** 2)" u ↔ u = t) ∧
      t.bare = negatedPower.bare := by
  have htext : negatedPower.render 0 = "((x) => x)(...xs, (a, b)).y = - -(a ** 2)" := by
    decide +kernel
  have hback := render_reads_back negatedPower_plain
  rw [htext] at hback
  exact ⟨negatedPower_plain, hback.1, by simpa [htext] using hback.2 0⟩

end Grammar

end ExtensionLowering
