import ExtensionLowering.Proofs.Reading.Expression
import ExtensionLowering.Proofs.Reading.Pending
import ExtensionLowering.Proofs.Tree.Idents
/-!
# Constructor calls

A constructor takes the first argument list behind it. What is printed for the callee of one is not
put into parentheses when it is a call, so the arguments of that call are taken by the constructor
when the text is read. The main statement says exactly which constructor calls are read back: those
in which no callee of a constructor has a call, or an optional access, on its chain of targets.

## Main definitions

* `Expr.callFree`: an expression whose chain of targets has no call.
* `Expr.KeepsCallees`: no callee of a constructor loses its arguments.
* `Built`: expressions that are built from names, accesses, calls and constructor calls.
* `Expr.regroup`: what the text of an expression is read as.

## Main statements

* `constructor_reads_back_iff`: which constructor calls are read back.
-/
namespace ExtensionLowering

open List

/-- Whether a constructor in front of the expression takes none of its arguments: on its chain of
targets there is no call, and no optional access, which ends the callee of a constructor. -/
def Expr.callFree : Expr → Bool
  | .call .. => false
  | .prop _ _ o _ optional => !optional && o.callFree
  | .elem _ _ o _ => o.callFree
  | .new _ c _ _ => c.callFree
  | _ => true

/-- No constructor in the expression takes the arguments of its callee. -/
def Expr.KeepsCallees (e : Expr) : Prop :=
  ∀ i c ts as, .expr (.new i c ts as) ∈ (Node.expr e).nodes → c.callFree

/-- What becomes of a callee with constructors that wait in front of it when arguments follow: the
innermost of them takes the arguments. If there is none, it is a call. -/
def Expr.passTo (args : List Expr) : Expr × Nat → Expr × Nat
  | (t, 0) => (.call {} {} t [] args, 0)
  | (t, j + 1) => (.new {} t [] args, j)

mutual

/-- What the text of an expression is read as behind some constructors that wait for arguments, and
how many of them still wait at its end. The tree has no parentheses. -/
def Expr.regroup (k : Nat) : Expr → Expr × Nat
  | .prop _ _ o name optional =>
    let (t, j) := o.regroup k
    let name := name.map fun id => { name := id.name }
    if optional then (.prop {} {} (Grammar.constructed j t) name true, 0)
    else (.prop {} {} t name false, j)
  | .elem _ _ o x =>
    let (t, j) := o.regroup k
    (.elem {} {} t (x.regroup 0).1, j)
  | .call _ _ c _ as => Expr.passTo (Expr.regroups as) (c.regroup k)
  | .new _ c _ as => Expr.passTo (Expr.regroups as) (c.regroup (k + 1))
  | .paren _ e => ((e.regroup 0).1, k)
  | .spread _ e => (.spread {} (e.regroup 0).1, k)
  | e => (e.bare, k)

def Expr.regroups : List Expr → List Expr
  | [] => []
  | e :: es => (e.regroup 0).1 :: Expr.regroups es

end

namespace Grammar

/-- The expression is a link of a chain or stands in parentheses. -/
def isLink : Expr → Bool
  | .prop .. | .elem .. | .call .. | .paren .. => true
  | _ => false

mutual

/-- The expressions that are built from plain ones by accesses, calls, constructor calls and
parentheses. -/
inductive Built (A : Alphabet) : Expr → Prop
  | leaf {e : Expr} (he : Plain A e) (hlink : isLink e = false) : Built A e
  | prop {i : Info} {f : SiteFacts} {o : Expr} {id : Ident} {optional : Bool} (ho : Built A o)
      (hword : A.IsWord id.name) : Built A (.prop i f o (some id) optional)
  | elem {i : Info} {f : SiteFacts} {o x : Expr} (ho : Built A o) (hx : Built A x) :
      Built A (.elem i f o x)
  | call {i : Info} {f : CallFacts} {c : Expr} {as : List Expr} (hc : Built A c)
      (has : ∀ e ∈ as, BuiltElement A e) : Built A (.call i f c [] as)
  | new {i : Info} {c : Expr} {as : List Expr} (hc : Built A c)
      (has : ∀ e ∈ as, BuiltElement A e) : Built A (.new i c [] as)
  | paren {i : Info} {e : Expr} (he : Built A e) : Built A (.paren i e)

/-- A built expression, or one that is spread. -/
inductive BuiltElement (A : Alphabet) : Expr → Prop
  | built {e : Expr} (he : Built A e) : BuiltElement A e
  | spread {i : Info} {e : Expr} (he : Built A e) : BuiltElement A (.spread i e)

end

end Grammar

/-! ## Callees -/

namespace Expr

variable {i : Info} {f : SiteFacts} {c e o x : Expr} {name : Option Ident} {q : Bool}
  {ts : List TypeRef} {as : List Expr}

theorem render_new {depth : Nat} : (new i c ts as).render depth =
    "new " ++ c.asTarget (c.render depth) ++ angled (TypeRef.renders ts) ++
      parenthesized (commaSeparated (Expr.renders depth as)) := rfl

theorem asTarget_eq (hlevel : Level.call ≤ e.level) (hwrapped : e.isWrappedTarget = false)
    (text : String) : e.asTarget text = text := by
  rw [asTarget, hwrapped, if_neg Bool.false_ne_true, fit, if_neg (Nat.not_lt.2 hlevel)]

theorem keepsCallees_iff_below {below : List Node} (hnew : ∀ i c ts as, e ≠ .new i c ts as)
    (hwalk : (Node.expr e).nodes = visited (fun _ => true) (.expr e) below) :
    e.KeepsCallees ↔ ∀ i c ts as, .expr (.new i c ts as) ∈ below → c.callFree := by
  have hhead : ∀ i c ts as, Node.expr (.new i c ts as) ≠ .expr e := fun i c ts as heq =>
    hnew i c ts as (Node.expr.inj heq).symm
  simp only [KeepsCallees, hwalk, visited, if_true, mem_cons, hhead, false_or]

theorem new_not_mem_identNodes : .expr (.new i c ts as) ∉ identNodes name := by
  cases name <;> simp [identNodes]

theorem keepsCallees_prop : (prop i f o name q).KeepsCallees ↔ o.KeepsCallees := by
  rw [keepsCallees_iff_below (by simp) rfl]
  simp only [mem_append, new_not_mem_identNodes, or_false]
  rfl

theorem keepsCallees_elem : (elem i f o x).KeepsCallees ↔ o.KeepsCallees ∧ x.KeepsCallees := by
  rw [keepsCallees_iff_below (by simp) rfl]
  simp only [mem_append, or_imp, forall_and]
  rfl

theorem walks_keepCallees (as : List Expr) :
    (∀ i c ts xs, .expr (.new i c ts xs) ∈ Expr.walks (fun _ => true) as → c.callFree) ↔
      ∀ e ∈ as, e.KeepsCallees := by
  rw [Expr.walks_eq_flatMap]
  simp only [mem_flatMap]
  exact ⟨fun h e he i c ts xs hmem => h i c ts xs ⟨e, he, hmem⟩,
    fun h i c ts xs ⟨e, he, hmem⟩ => h e he i c ts xs hmem⟩

theorem keepsCallees_call {f : CallFacts} :
    (call i f c ts as).KeepsCallees ↔ c.KeepsCallees ∧ ∀ e ∈ as, e.KeepsCallees := by
  rw [keepsCallees_iff_below (by simp) rfl]
  simp only [mem_append, or_imp, forall_and, walks_keepCallees]
  rfl

theorem keepsCallees_new : (new i c ts as).KeepsCallees ↔
    c.callFree ∧ c.KeepsCallees ∧ ∀ e ∈ as, e.KeepsCallees := by
  have hnodes : (Node.expr (new i c ts as)).nodes = .expr (new i c ts as) ::
      ((Node.expr c).nodes ++ Expr.walks (fun _ => true) as) := rfl
  rw [← walks_keepCallees]
  simp only [KeepsCallees, hnodes, mem_cons, mem_append]
  constructor
  · intro h
    exact ⟨h i c ts as (.inl rfl), fun j d us bs hmem => h j d us bs (.inr (.inl hmem)),
      fun j d us bs hmem => h j d us bs (.inr (.inr hmem))⟩
  · rintro ⟨hc, hcallee, has⟩ j d us bs (heq | hmem | hmem)
    · cases heq
      exact hc
    · exact hcallee j d us bs hmem
    · exact has j d us bs hmem

theorem keepsCallees_paren : (paren i e).KeepsCallees ↔ e.KeepsCallees := by
  rw [keepsCallees_iff_below (by simp) rfl]
  rfl

theorem keepsCallees_spread : (spread i e).KeepsCallees ↔ e.KeepsCallees := by
  rw [keepsCallees_iff_below (by simp) rfl]
  rfl

end Expr

namespace Grammar

open Category

variable {A : Alphabet} {e : Expr} {depth : Nat} {as : List Expr}
variable {c t : Expr} {i : Info} {s : String}

attribute [local simp] Expr.regroup Expr.walk visited

mutual

/-- Plain expressions have no constructor. -/
theorem Plain.new_not_mem {A : Alphabet} {i : Info} {c : Expr} {ts : List TypeRef}
    {as : List Expr} {e : Expr} : Plain A e → .expr (.new i c ts as) ∉ e.walk fun _ => true
  | .ident .. | .number _ | .string | .bool | .this => by simp
  | .prop ho _ => by simp [ho.new_not_mem, Expr.new_not_mem_identNodes]
  | .elem ho hx | .binary ho hx _ => by simp [ho.new_not_mem, hx.new_not_mem]
  | .call hc has => by simpa [hc.new_not_mem] using fun e he => (has e he).new_not_mem
  | .unary _ he | .paren he | .void he => by simp [he.new_not_mem]
  | .cond hc ht he => by simp [hc.new_not_mem, ht.new_not_mem, he.new_not_mem]
  | .array hes => by simpa using fun e he => (hes e he).new_not_mem
  | @Plain.arrow _ _ ps _ hps he => by
    have hparams : ∀ p ∈ ps, .expr (.new i c ts as) ∉ p.walk fun _ => true := by
      intro p hp
      cases hps p hp with
      | mk => simp [Param.walk, identNodes]
    simpa [Block.walk, he.new_not_mem] using hparams

theorem PlainElement.new_not_mem {A : Alphabet} {i : Info} {c : Expr} {ts : List TypeRef}
    {as : List Expr} {e : Expr} : PlainElement A e → .expr (.new i c ts as) ∉ e.walk fun _ => true
  | .plain he => he.new_not_mem
  | .spread he => by simp [he.new_not_mem]

end

theorem Plain.keepsCallees (h : Plain A e) : e.KeepsCallees :=
  fun _ _ _ _ hmem => absurd hmem h.new_not_mem

theorem Plain.callFree_of_leaf (h : Plain A e) (hlink : isLink e = false) : e.callFree := by
  cases h with
  | prop | elem | call | paren => cases hlink
  | ident | number | string | bool | this | binary | unary | cond | void | array | arrow => rfl

/-! ## Callees that are read back -/

/-- The expression is printed as the callee of a constructor. -/
def LegibleCallee (A : Alphabet) (depth : Nat) (e : Expr) : Prop :=
  ∃ t, t.bare = e.bare ∧ Printed A tight member (e.asTarget (e.render depth)).toList t

namespace LegibleCallee

variable {A : Alphabet} {depth : Nat} {e o x : Expr}
variable {i : Info}

theorem of_parenthesized (h : Legible A depth e)
    (hwrapped : e.isWrappedTarget ∨ e.level < Level.call) : LegibleCallee A depth e := by
  obtain ⟨t, hbare, hprinted⟩ := h.parenthesized
  have htext : e.asTarget (e.render depth) = parenthesized (e.render depth) := by
    unfold Expr.asTarget Expr.fit
    grind
  exact ⟨t, hbare, htext ▸ hprinted.wider (by decide)⟩

theorem of_primary {t : Expr} (hlevel : e.level = Level.primary)
    (hwrapped : e.isWrappedTarget = false) (hbare : t.bare = e.bare)
    (h : Printed A tight primary (e.render depth).toList t) : LegibleCallee A depth e := by
  refine ⟨t, hbare, ?_⟩
  rw [Expr.asTarget_eq (by rw [hlevel]; decide) hwrapped]
  exact h.wider (by decide)

theorem paren (h : Legible A depth e) : LegibleCallee A depth (.paren i e) := by
  obtain ⟨t, hbare, hprinted⟩ := h.parenthesized
  exact .of_primary (t := t) rfl rfl hbare hprinted

theorem prop {f : SiteFacts} {id : Ident} (h : LegibleCallee A depth o) (hword : A.IsWord id.name) :
    LegibleCallee A depth (.prop i f o (some id) false) := by
  obtain ⟨t, hbare, hprinted⟩ := h
  refine ⟨.prop {} {} t (some { name := id.name }) false, by simp [hbare], ?_⟩
  rw [Expr.asTarget_eq (Nat.le_refl _) rfl]
  simpa [Expr.render_prop, nameText] using hprinted.access (by simp) hword

theorem elem {f : SiteFacts} (h : LegibleCallee A depth o) (hx : Legible A depth x) :
    LegibleCallee A depth (.elem i f o x) := by
  obtain ⟨t, hbare, hprinted⟩ := h
  obtain ⟨u, hbare', hprinted'⟩ := hx.whole
  have hexpr := hprinted'.widen (c := expression) (by decide) hx.level (Nat.zero_le _)
  refine ⟨.elem {} {} t u, by simp [hbare, hbare'], ?_⟩
  rw [Expr.asTarget_eq (Nat.le_refl _) rfl]
  simpa [Expr.render_elem] using hprinted.index (by simp) hexpr

end LegibleCallee

theorem Printed.of_member {es cs : List Char} (h : Printed A es member cs t) :
    Printed A es leftHandSide cs t := by
  obtain ⟨ps, hw, hd⟩ := h
  exact ⟨ps, hw, .of_reaches (n := 3) (by decide) hd⟩

/-- A constructor call whose callee is printed as one. -/
theorem printed_new (hc : LegibleCallee A depth c) (has : ∀ e ∈ as, LegibleElement A depth e) :
    ∃ t ts, t.bare = c.bare ∧ Expr.bares ts = Expr.bares as ∧
      Printed A tight member ((Expr.new i c [] as).render depth).toList (.new {} t [] ts) := by
  obtain ⟨t, hbare, hprinted⟩ := hc
  obtain ⟨ts, hbares, hlist⟩ := Legible.elements has
  refine ⟨t, ts, hbare, hbares, ?_⟩
  simpa [Expr.render_new, TypeRef.renders, angled, parenthesized] using hprinted.new hlist

theorem Legible.new (hc : LegibleCallee A depth c) (has : ∀ e ∈ as, LegibleElement A depth e) :
    Legible A depth (.new i c [] as) := by
  obtain ⟨t, ts, hbare, hbares, hprinted⟩ := printed_new (i := i) hc has
  have hsame : (Expr.new {} t [] ts).bare = (Expr.new i c [] as).bare := by simp [hbare, hbares]
  refine ⟨by simp [Expr.level, Level.call, levels], ⟨_, hsame, ?_⟩,
    fun _ _ => ⟨member, by simp, _, hsame, hprinted⟩, fun _ => ?_⟩
  · exact hprinted.loosen.of_member
  · rw [Expr.render_new, String.append_assoc, String.append_assoc, String.toList_append]
    exact .append (.cons (by decide) _) _

theorem LegibleCallee.new (hc : LegibleCallee A depth c) (has : ∀ e ∈ as, LegibleElement A depth e) :
    LegibleCallee A depth (.new i c [] as) := by
  obtain ⟨t, ts, hbare, hbares, hprinted⟩ := printed_new (i := i) hc has
  refine ⟨.new {} t [] ts, by simp [hbare, hbares], ?_⟩
  rw [Expr.asTarget_eq (Nat.le_refl _) rfl]
  exact hprinted

theorem Plain.legibleCallee (depth : Nat) (h : Plain A e)
    (hlink : isLink e = false) : LegibleCallee A depth e := by
  by_cases hwrapped : e.isWrappedTarget ∨ e.level < Level.call
  · exact .of_parenthesized (h.legible depth) hwrapped
  cases h with
  | ident hword hname =>
    exact .of_primary (t := .ident { name := _ }) rfl rfl rfl (.name hword hname)
  | string => exact .of_primary (t := .string {} _) rfl rfl rfl (.string _)
  | bool => exact .of_primary (t := .bool {} _) rfl rfl rfl (.bool _)
  | this => exact .of_primary (t := .this {}) rfl rfl rfl .this
  | array hes =>
    obtain ⟨ts, hbares, hlist⟩ := Legible.elements fun e he => (hes e he).legible depth
    refine .of_primary (t := .array {} ts) rfl rfl (by simp [hbares]) ?_
    simpa [Expr.render_array] using Printed.array hlist
  | number => exact absurd (.inl rfl) hwrapped
  | unary | cond | void | arrow =>
    simp [Expr.level, Level.call, Level.unary, Level.conditional, Level.assignment] at hwrapped
  | @binary _ _ _ _ op =>
    have hop : Level.ofOperator op < Level.call := by
      unfold Level.ofOperator
      split <;> decide
    exact absurd (.inr hop) hwrapped
  | prop | elem | call | paren => cases hlink

mutual

/-- Built expressions whose constructors keep their callees are read back, also as callees if their
chains of targets have no call. -/
theorem Built.legible {A : Alphabet} (depth : Nat) {e : Expr} :
    Built A e → e.KeepsCallees → Legible A depth e ∧ (e.callFree → LegibleCallee A depth e)
  | .leaf he hlink, _ => ⟨he.legible depth, fun _ => he.legibleCallee depth hlink⟩
  | .prop ho hword, h => by
    obtain ⟨hlegible, hcallee⟩ := ho.legible depth (Expr.keepsCallees_prop.1 h)
    refine ⟨hlegible.prop hword, fun hfree => ?_⟩
    simp only [Expr.callFree, Bool.and_eq_true, Bool.not_eq_true'] at hfree
    obtain ⟨rfl, hfree⟩ := hfree
    exact (hcallee hfree).prop hword
  | .elem ho hx, h => by
    obtain ⟨h, h'⟩ := Expr.keepsCallees_elem.1 h
    obtain ⟨hlegible, hcallee⟩ := ho.legible depth h
    obtain ⟨hlegible', -⟩ := hx.legible depth h'
    exact ⟨hlegible.elem hlegible', fun hfree => (hcallee hfree).elem hlegible'⟩
  | .call hc has, h => by
    obtain ⟨h, h'⟩ := Expr.keepsCallees_call.1 h
    obtain ⟨hlegible, -⟩ := hc.legible depth h
    exact ⟨hlegible.call fun e he => (has e he).legible depth (h' e he), nofun⟩
  | .new hc has, h => by
    obtain ⟨hfree, h, h'⟩ := Expr.keepsCallees_new.1 h
    obtain ⟨-, hcallee⟩ := hc.legible depth h
    have hargs := fun e he => (has e he).legible depth (h' e he)
    exact ⟨.new (hcallee hfree) hargs, fun _ => .new (hcallee hfree) hargs⟩
  | .paren he, h => by
    obtain ⟨hlegible, -⟩ := he.legible depth (Expr.keepsCallees_paren.1 h)
    exact ⟨hlegible.paren, fun _ => .paren hlegible⟩

theorem BuiltElement.legible {A : Alphabet} (depth : Nat) {e : Expr} :
    BuiltElement A e → e.KeepsCallees → LegibleElement A depth e
  | .built he, h => .plain (he.legible depth h).1
  | .spread he, h => .spread (he.legible depth (Expr.keepsCallees_spread.1 h)).1

end

/-! ## How a text is read -/

theorem Plain.regroup_of_leaf (h : Plain A e) (hlink : isLink e = false)
    (k : Nat) : e.regroup k = (e.bare, k) := by
  cases h with
  | prop | elem | call | paren => cases hlink
  | ident | number | string | bool | this | binary | unary | cond | void | array | arrow => rfl

theorem passTo_le (args : List Expr) (p : Expr × Nat) : (Expr.passTo args p).2 ≤ p.2 - 1 := by
  obtain ⟨t, j⟩ := p
  cases j <;> simp [Expr.passTo]

/-- No constructor waits that did not wait before. -/
theorem regroup_le (k : Nat) : ∀ e : Expr, (e.regroup k).2 ≤ k
  | .prop _ _ o _ optional => by
    have := regroup_le k o
    cases optional <;> simp [this]
  | .elem _ _ o _ => regroup_le k o
  | .call _ _ c _ as => by
    have := passTo_le (Expr.regroups as) (c.regroup k)
    have := regroup_le k c
    rw [Expr.regroup]
    omega
  | .new _ c _ as => by
    have := passTo_le (Expr.regroups as) (c.regroup (k + 1))
    have := regroup_le (k + 1) c
    rw [Expr.regroup]
    omega
  | .missing | .ident _ | .number .. | .string .. | .bool .. | .this _ | .super _ | .binary ..
  | .unary .. | .cond .. | .paren .. | .void .. | .spread .. | .array .. | .object .. | .arrow ..
  | .func .. => Nat.le_refl k

/-- A text between brackets. -/
theorem Written.enclosed {es cs : List Char} {ps : List Piece} {o c : String}
    (hpair : (o, c) ∈ [("(", ")"), ("[", "]")]) (h : Written A loose cs ps) :
    Written A es (o.toList ++ (cs ++ c.toList))
      (.lexeme (.punct o) :: (ps ++ [.lexeme (.punct c)])) := by
  simp only [mem_cons, Prod.mk.injEq, not_mem_nil, or_false] at hpair
  obtain ⟨rfl, rfl⟩ | ⟨rfl, rfl⟩ := hpair
  · exact .free (by simp) (h.append (.cons (by decide) _) (.free (s := ")") (by simp) .nil))
  · exact .free (by simp) (h.append (.cons (by decide) _) (.free (s := "]") (by simp) .nil))

theorem lexemes_enclosed (ps : List Piece) (o c : String) :
    lexemes (.lexeme (.punct o) :: (ps ++ [.lexeme (.punct c)])) =
      .punct o :: (lexemes ps ++ [.punct c]) := by
  simp

/-- An expression of a tighter category is one of a looser one. -/
theorem Parses.weaken {c d : Category} {a : List Lexeme} (h : Parses d a t)
    (hrank : c.rank ≤ d.rank) (hbound : c.bound ≤ d.bound) : Parses c a t :=
  ⟨h.opens, fun n r hn hr => h.reads n r (Nat.le_trans hn hrank) (hr.mono hbound)⟩

/-- The text is read as the expression is regrouped. -/
structure Heard (A : Alphabet) (depth : Nat) (e : Expr) : Prop where
  level : e.level ∈ levels
  whole : ∃ ps t, Written A loose (e.render depth).toList ps ∧ t.bare = (e.regroup 0).1 ∧
    Parses (ofLevel e.level) (lexemes ps) t

/-- The same for an element of a list. -/
def HeardElement (A : Alphabet) (depth : Nat) (e : Expr) : Prop :=
  ∃ ps t, Written A loose (e.fit Level.spread (e.render depth)).toList ps ∧
    t.bare = (e.regroup 0).1 ∧ Parses element (lexemes ps) t

/-- Behind `k` constructors that wait for their arguments, the text is read as the tree and leaves
some of them waiting. -/
def HeardBehind (A : Alphabet) (k : Nat) (cs : List Char) (p : Expr × Nat) : Prop :=
  ∃ ps t, Written A tight cs ps ∧ t.bare = p.1 ∧ (∃ x xs, lexemes ps = x :: xs ∧ x ∉ closers) ∧
    ∀ n ≤ 18, ∀ r, Closed 19 r → parse n (pending k ++ (lexemes ps ++ r)) = resume n p.2 t r

/-- The text of a target is read as the expression is regrouped. -/
def HeardTarget (A : Alphabet) (depth k : Nat) (e : Expr) : Prop :=
  HeardBehind A k (e.asTarget (e.render depth)).toList (e.regroup k)

namespace Heard

variable {A : Alphabet} {depth : Nat} {e : Expr}

theorem parenthesized (h : Heard A depth e) : ∃ ps t,
    Written A tight (ExtensionLowering.parenthesized (e.render depth)).toList ps ∧
      t.bare = (e.regroup 0).1 ∧ Parses primary (lexemes ps) t := by
  obtain ⟨ps, t, hw, hbare, hparses⟩ := h.whole
  have hexpr : Parses expression (lexemes ps) t :=
    hparses.weaken (Nat.zero_le _) (Nat.zero_le _)
  have hparen : Written A tight _ _ := hw.enclosed (o := "(") (c := ")") (by simp)
  exact ⟨_, .paren {} t, by simpa [ExtensionLowering.parenthesized] using hparen, hbare,
    by simpa using hexpr.paren⟩

theorem fit (h : Heard A depth e) {c : Category} (hc : c ∈ [element, assignment]) :
    ∃ ps t, Written A loose (e.fit c.rank (e.render depth)).toList ps ∧
      t.bare = (e.regroup 0).1 ∧ Parses c (lexemes ps) t := by
  have hweaker : ∀ c ∈ [element, assignment], ∀ l ∈ levels, c.rank ≤ l →
      c.rank ≤ (ofLevel l).rank ∧ c.bound ≤ (ofLevel l).bound := by decide
  unfold Expr.fit
  split
  · obtain ⟨ps, t, hw, hbare, hparses⟩ := h.parenthesized
    obtain ⟨hrank, hbound⟩ := hweaker c hc 20 (by decide) (by
      have hrank : ∀ c ∈ [element, assignment], c.rank ≤ 20 := by decide
      exact hrank c hc)
    exact ⟨ps, t, hw.mono (by decide), hbare, hparses.weaken hrank hbound⟩
  · obtain ⟨ps, t, hw, hbare, hparses⟩ := h.whole
    obtain ⟨hrank, hbound⟩ := hweaker c hc e.level h.level (by omega)
    exact ⟨ps, t, hw, hbare, hparses.weaken hrank hbound⟩

theorem of_plain (he : Plain A e) (hlink : isLink e = false) : Heard A depth e := by
  have hlegible := he.legible depth
  obtain ⟨t, hbare, ps, hw, hd⟩ := hlegible.whole
  exact ⟨hlegible.level, ps, t, hw, by rw [he.regroup_of_leaf hlink, hbare], hd.parses⟩

/-- A chain is read by itself as it is when no constructor waits. -/
theorem of_target (hlevel : e.level = Level.call) (hwrapped : e.isWrappedTarget = false)
    (h : HeardTarget A depth 0 e) : Heard A depth e := by
  obtain ⟨ps, t, hw, hbare, hopens, hreads⟩ := h
  rw [Expr.asTarget_eq (Nat.le_of_eq hlevel.symm) hwrapped] at hw
  refine ⟨by rw [hlevel]; decide, ps, t, hw.mono (by decide), hbare, ?_⟩
  rw [hlevel]
  refine ⟨hopens, fun n r hn hr => ?_⟩
  have hread := hreads n hn r (hr.mono (by decide))
  rw [Nat.le_zero.1 (regroup_le 0 e)] at hread
  exact hread

end Heard

theorem HeardElement.built (h : Heard A depth e) : HeardElement A depth e :=
  h.fit (c := element) (by simp)

theorem HeardElement.spread (h : Heard A depth e) : HeardElement A depth (.spread i e) := by
  obtain ⟨ps, t, hw, hbare, hparses⟩ := h.fit (c := assignment) (by simp)
  have hspread : Written A loose ("...".toList ++ (e.fit Level.assignment (e.render depth)).toList)
      (.lexeme (.punct "...") :: ps) := hw.free (by simp)
  refine ⟨.lexeme (.punct "...") :: ps, .spread {} t, ?_, by simp [hbare],
    hparses.spread⟩
  simpa [Expr.fit, Expr.level, Expr.render_spread] using hspread

/-- The elements of a list, one by one. -/
theorem HeardElement.elements {es : List Expr} (h : ∀ e ∈ es, HeardElement A depth e) :
    ∃ ps ts, Written A loose (commaSeparated (Expr.renders depth es)).toList ps ∧
      Expr.bares ts = Expr.regroups es ∧ ParsesList (lexemes ps) ts := by
  suffices hlist : ∃ ts, Expr.bares ts = Expr.regroups es ∧ List.Forall₂
      (fun s t => ∃ ps, Written A loose s.toList ps ∧ Parses element (lexemes ps) t)
      (Expr.renders depth es) ts by
    obtain ⟨ts, hbares, hts⟩ := hlist
    obtain ⟨ps, hw, hparses⟩ :=
      Written.separated ParsesList.nil (fun _ _ => .one) (fun _ _ _ _ => .cons) hts
    exact ⟨ps, ts, hw, hbares, hparses⟩
  induction es with
  | nil => exact ⟨[], rfl, .nil⟩
  | cons e es ih =>
    obtain ⟨ps, t, hw, hbare, hparses⟩ := h e (by simp)
    obtain ⟨ts, hbares, hts⟩ := ih fun x hx => h x (by simp [hx])
    exact ⟨t :: ts, by simp [Expr.regroups, hbare, hbares], .cons ⟨ps, hw, hparses⟩ hts⟩

namespace HeardBehind

variable {qs : List Piece}
variable {A : Alphabet} {k : Nat} {cs : List Char} {p : Expr × Nat}

/-- A callee that no constructor takes anything from. -/
theorem of_member {ps : List Piece} {t : Expr} (hw : Written A tight cs ps)
    (hparses : Parses member (lexemes ps) t) : HeardBehind A k cs (t.bare, k) :=
  ⟨ps, t, hw, rfl, hparses.opens, fun _ hn r hr =>
    parse_pending (fun m hm => hparses.reads m r hm hr) (Nat.le_succ_of_le hn) k⟩

/-- One more constructor waits in front of the text. -/
theorem construct (h : HeardBehind A (k + 1) cs p) :
    HeardBehind A k ("new".toList ++ ' ' :: cs) p := by
  obtain ⟨ps, t, hw, hbare, -, hreads⟩ := h
  refine ⟨_, t, .keyword (isWord_keyword A (by simp)) hw, hbare, ⟨_, _, rfl, by simp [closers]⟩,
    fun n hn r hr => ?_⟩
  rw [← hreads n hn r hr, ← pending_append]
  rfl

/-- The text goes on with a link of a chain. -/
theorem link {d : Char} {rest : List Char} {x : Lexeme} {xs : List Lexeme} {m : Nat}
    {p' : Expr × Nat} (h : HeardBehind A k cs p) (hd : d ∈ tight)
    (hrest : Written A tight (d :: rest) qs) (hqs : lexemes qs = x :: xs) (hx : reach x = some m)
    (hm : m ≤ 19) (hstep : ∀ t, t.bare = p.1 → ∃ t', t'.bare = p'.1 ∧
      ∀ n ≤ 18, ∀ r, resume n p.2 t (x :: (xs ++ r)) = resume n p'.2 t' r) :
    HeardBehind A k (cs ++ d :: rest) p' := by
  obtain ⟨ps, t, hw, hbare, ⟨y, ys, hys, hy⟩, hreads⟩ := h
  obtain ⟨t', hbare', hresume⟩ := hstep t hbare
  refine ⟨ps ++ qs, t', hw.append (.cons hd _) hrest, hbare', ⟨y, ys ++ lexemes qs, ?_, hy⟩,
    fun n hn r _ => ?_⟩
  · rw [lexemes_append, hys, cons_append]
  · rw [lexemes_append, hqs, append_assoc, cons_append,
      hreads n hn _ (.cons hx hm _), hresume n hn]

theorem access {s : String} (h : HeardBehind A k cs p) (hs : A.IsWord s) :
    HeardBehind A k (cs ++ '.' :: s.toList) (.prop {} {} p.1 (some { name := s }) false, p.2) := by
  refine h.link (by decide) (Printed.written_member (p := ".") (by simp) hs) rfl reach_point
    (by decide) fun t hbare => ⟨.prop {} {} t (some { name := s }) false, by simp [hbare], ?_⟩
  exact fun n hn r => resume_access (Nat.le_succ_of_le hn) p.2 t s r

theorem constructed_bare (k : Nat) (t : Expr) : (constructed k t).bare = constructed k t.bare := by
  induction k with
  | zero => rfl
  | succ k ih => simp [constructed, ih]

theorem optional {s : String} (h : HeardBehind A k cs p) (hs : A.IsWord s) :
    HeardBehind A k (cs ++ '?' :: '.' :: s.toList)
      (.prop {} {} (constructed p.2 p.1) (some { name := s }) true, 0) := by
  refine h.link (by decide) (Printed.written_member (p := "?.") (by simp) hs) rfl reach_optional
    (by decide) fun t hbare =>
      ⟨.prop {} {} (constructed p.2 t) (some { name := s }) true, ?_, ?_⟩
  · simp [constructed_bare, hbare]
  · exact fun n hn r => resume_optional hn p.2 t s r

theorem index {ds : List Char} {u : Expr} (h : HeardBehind A k cs p) (hw : Written A loose ds qs)
    (hu : Parses expression (lexemes qs) u) :
    HeardBehind A k (cs ++ '[' :: (ds ++ [']'])) (.elem {} {} p.1 u.bare, p.2) := by
  refine h.link (by decide) (hw.enclosed (o := "[") (c := "]") (by simp))
    (lexemes_enclosed ..) reach_index (by decide) fun t hbare =>
      ⟨.elem {} {} t u, by simp [hbare], fun n hn r => ?_⟩
  simpa using resume_index (Nat.le_succ_of_le hn) p.2 t hu r

/-- Arguments behind a callee. -/
theorem arguments {ds : List Char} {us : List Expr} (h : HeardBehind A k cs p)
    (hw : Written A loose ds qs) (hus : ParsesList (lexemes qs) us) :
    HeardBehind A k (cs ++ '(' :: (ds ++ [')'])) (Expr.passTo (Expr.bares us) p) := by
  obtain ⟨u, j⟩ := p
  refine h.link (by decide) (hw.enclosed (o := "(") (c := ")") (by simp))
    (lexemes_enclosed ..) reach_call (by decide) fun t hbare => ?_
  cases j with
  | zero =>
    refine ⟨.call {} {} t [] us, by simpa [Expr.passTo] using hbare, fun n hn r => ?_⟩
    simpa [Expr.passTo] using resume_call hn t hus r
  | succ j =>
    refine ⟨.new {} t [] us, by simpa [Expr.passTo] using hbare, fun n hn r => ?_⟩
    simpa [Expr.passTo] using resume_arguments n j t hus r

end HeardBehind

namespace HeardTarget

variable {i : Info}
variable {A : Alphabet} {depth k : Nat} {c e o x : Expr}

theorem leaf (he : Plain A e) (hlink : isLink e = false) : HeardTarget A depth k e := by
  obtain ⟨t, hbare, ps, hw, hd⟩ := he.legibleCallee depth hlink
  rw [HeardTarget, he.regroup_of_leaf hlink, ← hbare]
  exact .of_member hw hd.parses

theorem paren (h : Heard A depth e) : HeardTarget A depth k (.paren i e) := by
  obtain ⟨ps, t, hw, hbare, hparses⟩ := h.parenthesized
  rw [HeardTarget, Expr.regroup, ← hbare]
  exact .of_member hw (hparses.wider (by decide))

theorem prop {f : SiteFacts} {id : Ident} {optional : Bool} (h : HeardTarget A depth k o)
    (hword : A.IsWord id.name) : HeardTarget A depth k (.prop i f o (some id) optional) := by
  rw [HeardTarget, Expr.asTarget_eq (Nat.le_refl _) rfl]
  cases optional with
  | false => simpa [Expr.render_prop, nameText] using h.access hword
  | true => simpa [Expr.render_prop, nameText] using h.optional hword

theorem elem {f : SiteFacts} (h : HeardTarget A depth k o) (hx : Heard A depth x) :
    HeardTarget A depth k (.elem i f o x) := by
  obtain ⟨ps, u, hw, hbare, hparses⟩ := hx.whole
  have hexpr : Parses expression (lexemes ps) u := hparses.weaken (Nat.zero_le _) (Nat.zero_le _)
  rw [HeardTarget, Expr.asTarget_eq (Nat.le_refl _) rfl]
  simpa [Expr.render_elem, hbare] using h.index hw hexpr

theorem call {f : CallFacts} (h : HeardTarget A depth k c) (has : ∀ e ∈ as, HeardElement A depth e) :
    HeardTarget A depth k (.call i f c [] as) := by
  obtain ⟨ps, us, hw, hbares, hparses⟩ := HeardElement.elements has
  rw [HeardTarget, Expr.asTarget_eq (Nat.le_refl _) rfl]
  simpa [Expr.render_call, TypeRef.renders, angled, parenthesized, hbares] using
    h.arguments hw hparses

theorem new (h : HeardTarget A depth (k + 1) c) (has : ∀ e ∈ as, HeardElement A depth e) :
    HeardTarget A depth k (.new i c [] as) := by
  obtain ⟨ps, us, hw, hbares, hparses⟩ := HeardElement.elements has
  rw [HeardTarget, Expr.asTarget_eq (Nat.le_refl _) rfl]
  simpa [Expr.render_new, TypeRef.renders, angled, parenthesized, hbares] using
    (h.arguments hw hparses).construct

end HeardTarget

mutual

/-- Every built expression is read as it is regrouped, also as a target behind constructors. -/
theorem Built.heard {A : Alphabet} (depth : Nat) {e : Expr} :
    Built A e → Heard A depth e ∧ ∀ k, HeardTarget A depth k e
  | .leaf he hlink => ⟨.of_plain he hlink, fun _ => .leaf he hlink⟩
  | .prop ho hword =>
    have h := fun k => ((ho.heard depth).2 k).prop hword
    ⟨.of_target rfl rfl (h 0), h⟩
  | .elem ho hx =>
    have h := fun k => ((ho.heard depth).2 k).elem (hx.heard depth).1
    ⟨.of_target rfl rfl (h 0), h⟩
  | .call hc has =>
    have h := fun k => ((hc.heard depth).2 k).call fun e he => (has e he).heard depth
    ⟨.of_target rfl rfl (h 0), h⟩
  | .new hc has =>
    have h := fun k => ((hc.heard depth).2 (k + 1)).new fun e he => (has e he).heard depth
    ⟨.of_target rfl rfl (h 0), h⟩
  | .paren he => by
    obtain ⟨hheard, -⟩ := he.heard depth
    obtain ⟨ps, t, hw, hbare, hparses⟩ := hheard.parenthesized
    refine ⟨⟨?_, ps, t, hw.mono (by decide), hbare, hparses⟩, fun _ => .paren hheard⟩
    simp [Expr.level, Level.primary, levels]

theorem BuiltElement.heard {A : Alphabet} (depth : Nat) {e : Expr} :
    BuiltElement A e → HeardElement A depth e
  | .built he => .built (he.heard depth).1
  | .spread he => .spread (he.heard depth).1

end

/-! ## Which expressions are regrouped -/

section Regrouped

variable {i : Info} {f : SiteFacts} {c e o x : Expr} {name : Option Ident} {as : List Expr}
  {k : Nat}

theorem regroup_zero_iff : e.regroup 0 = (e.bare, 0) ↔ (e.regroup 0).1 = e.bare := by
  have hzero := Nat.le_zero.1 (regroup_le 0 e)
  exact ⟨congrArg Prod.fst, fun h => Prod.ext h hzero⟩

theorem regroup_access_iff : (Expr.prop i f o name false).regroup k =
    ((Expr.prop i f o name false).bare, k) ↔ o.regroup k = (o.bare, k) := by
  simp [Prod.ext_iff]

theorem regroup_optional_iff : (Expr.prop i f o name true).regroup k =
    ((Expr.prop i f o name true).bare, k) ↔ k = 0 ∧ o.regroup 0 = (o.bare, 0) := by
  cases k with
  | zero =>
    have hzero := Nat.le_zero.1 (regroup_le 0 o)
    simp [Prod.ext_iff, hzero, constructed]
  | succ k => simp

theorem regroup_elem_iff : (Expr.elem i f o x).regroup k = ((Expr.elem i f o x).bare, k) ↔
    o.regroup k = (o.bare, k) ∧ (x.regroup 0).1 = x.bare := by
  simp only [Expr.regroup, Expr.bare, Prod.ext_iff, Expr.elem.injEq]
  tauto

theorem regroup_call_iff {f : CallFacts} : (Expr.call i f c [] as).regroup k =
    ((Expr.call i f c [] as).bare, k) ↔
      k = 0 ∧ c.regroup 0 = (c.bare, 0) ∧ Expr.regroups as = Expr.bares as := by
  have hle := regroup_le k c
  rcases hp : c.regroup k with ⟨t, j⟩
  rw [Expr.regroup, hp]
  cases j with
  | zero =>
    simp only [Expr.passTo, Expr.bare, Prod.ext_iff, Expr.call.injEq]
    constructor
    · rintro ⟨⟨-, -, rfl, -, has⟩, rfl⟩
      exact ⟨rfl, by simp [hp], has⟩
    · rintro ⟨rfl, ⟨hc, -⟩, has⟩
      simp_all
  | succ j =>
    simp only [Expr.passTo, Expr.bare, Prod.mk.injEq, reduceCtorEq, false_and, false_iff]
    rintro ⟨rfl, -⟩
    simp [hp] at hle

theorem regroup_new_iff : (Expr.new i c [] as).regroup k = ((Expr.new i c [] as).bare, k) ↔
    c.regroup (k + 1) = (c.bare, k + 1) ∧ Expr.regroups as = Expr.bares as := by
  rw [Expr.regroup]
  obtain ⟨t, j⟩ := c.regroup (k + 1)
  cases j with
  | zero => simp [Expr.passTo]
  | succ j =>
    simp only [Expr.passTo, Expr.bare, Prod.mk.injEq, Expr.new.injEq]
    grind

theorem regroups_eq_iff (h : ∀ e ∈ as, ((e.regroup 0).1 = e.bare ↔ e.KeepsCallees)) :
    Expr.regroups as = Expr.bares as ↔ ∀ e ∈ as, e.KeepsCallees := by
  induction as with
  | nil => simp [Expr.regroups]
  | cons e as ih =>
    have hrest := ih fun x hx => h x (mem_cons_of_mem _ hx)
    simp only [Expr.regroups, Expr.bares, cons.injEq, hrest, h e mem_cons_self,
      forall_mem_cons]

end Regrouped

mutual

/-- An expression is read as itself behind constructors if its own constructors keep their callees
and those in front find nothing to take. -/
theorem Built.regroup_eq_iff {A : Alphabet} {e : Expr} : Built A e → ∀ k,
    (e.regroup k = (e.bare, k) ↔ e.KeepsCallees ∧ (0 < k → e.callFree))
  | .leaf he hlink, k => by
    simp [he.regroup_of_leaf hlink, he.keepsCallees, he.callFree_of_leaf hlink]
  | @Built.prop _ _ _ _ _ false ho _, k => by
    rw [regroup_access_iff, ho.regroup_eq_iff k, Expr.keepsCallees_prop]
    simp [Expr.callFree]
  | @Built.prop _ _ _ _ _ true ho _, k => by
    rw [regroup_optional_iff, ho.regroup_eq_iff 0, Expr.keepsCallees_prop]
    simp [Expr.callFree, Nat.pos_iff_ne_zero, and_comm]
  | .elem ho hx, k => by
    rw [regroup_elem_iff, ho.regroup_eq_iff k, ← regroup_zero_iff, hx.regroup_eq_iff 0,
      Expr.keepsCallees_elem]
    simp only [Expr.callFree]
    tauto
  | .call hc has, k => by
    rw [regroup_call_iff, hc.regroup_eq_iff 0,
      regroups_eq_iff fun e he => (has e he).regroup_eq_iff, Expr.keepsCallees_call]
    simp [Expr.callFree, Nat.pos_iff_ne_zero]
    tauto
  | .new hc has, k => by
    rw [regroup_new_iff, hc.regroup_eq_iff (k + 1),
      regroups_eq_iff fun e he => (has e he).regroup_eq_iff, Expr.keepsCallees_new]
    simp only [Expr.callFree, Nat.succ_pos, true_imp_iff]
    tauto
  | .paren he, k => by
    have hinner := he.regroup_eq_iff 0
    rw [regroup_zero_iff] at hinner
    simp [Expr.keepsCallees_paren, Expr.callFree, hinner]

theorem BuiltElement.regroup_eq_iff {A : Alphabet} {e : Expr} :
    BuiltElement A e → ((e.regroup 0).1 = e.bare ↔ e.KeepsCallees)
  | .built he => by
    rw [← regroup_zero_iff, he.regroup_eq_iff 0]
    simp
  | .spread he => by
    have hinner := he.regroup_eq_iff 0
    rw [regroup_zero_iff] at hinner
    simp [Expr.keepsCallees_spread, hinner]

end

/-- A call on the chain of targets takes arguments from a constructor that waits in front. -/
theorem regroup_lt {k : Nat} (hk : 0 < k) : ∀ e : Expr, e.callFree = false → (e.regroup k).2 < k
  | .prop _ _ o _ optional, h => by
    cases optional with
    | true => exact hk
    | false => exact regroup_lt hk o (by simpa [Expr.callFree] using h)
  | .elem _ _ o _, h => regroup_lt hk o h
  | .call _ _ c _ as, _ => by
    have hargs := passTo_le (Expr.regroups as) (c.regroup k)
    have hcallee := regroup_le k c
    rw [Expr.regroup]
    omega
  | .new _ c _ as, h => by
    have hargs := passTo_le (Expr.regroups as) (c.regroup (k + 1))
    have hcallee := regroup_lt (k := k + 1) (Nat.succ_pos k) c h
    rw [Expr.regroup]
    omega
  | .missing, h | .ident _, h | .number .., h | .string .., h | .bool .., h | .this _, h
  | .super _, h | .binary .., h | .unary .., h | .cond .., h | .paren .., h | .void .., h
  | .spread .., h | .array .., h | .object .., h | .arrow .., h | .func .., h => by cases h

/-- A constructor that loses the arguments of its callee leaves its own to a call. -/
theorem regroup_new_called (i : Info) (as : List Expr) (h : c.callFree = false) :
    ∃ t, ((Expr.new i c [] as).regroup 0).1 = .call {} {} t [] (Expr.regroups as) := by
  have hnone := regroup_lt Nat.one_pos c h
  rcases hp : c.regroup 1 with ⟨t, j⟩
  obtain rfl : j = 0 := by simpa [hp] using hnone
  refine ⟨t, ?_⟩
  rw [Expr.regroup, hp]
  rfl

/-! ## Reading back -/

mutual

theorem Built.isComplete {A : Alphabet} {e : Expr} : Built A e → e.isComplete
  | .leaf he _ => he.isComplete
  | .prop ho _ | .paren ho => by simp [Expr.isComplete, ho.isComplete]
  | .elem ho hx => by simp [Expr.isComplete, ho.isComplete, hx.isComplete]
  | .call hc has | .new hc has => by
    simp [Expr.isComplete, hc.isComplete, TypeRef.allComplete,
      allComplete_of_forall fun e he => (has e he).isComplete]

theorem BuiltElement.isComplete {A : Alphabet} {e : Expr} : BuiltElement A e → e.isComplete
  | .built he => he.isComplete
  | .spread he => by simp [Expr.isComplete, he.isComplete]

end

/-- A text in which nothing runs into its end consists of its lexemes. -/
theorem Written.lexes {ps : List Piece} (h : Written A loose s.toList ps) :
    Lexes A s.toList (lexemes ps) := by
  obtain ⟨htext, hfits⟩ := h
  have hlexes : Lexes A (texts ps ++ []) (lexemes ps ++ []) := (hfits [] (by simp)).lexes .nil
  simpa only [append_nil, htext] using hlexes

theorem Printed.reads (h : Printed A loose leftHandSide s.toList t) : Reads A s t := by
  obtain ⟨ps, hw, hd⟩ := h.widen (c := expression) (l := 18) (by decide) (by decide) (Nat.zero_le _)
  exact ⟨lexemes ps, hw.lexes, hd⟩

/-- There is one way at most to read the text, and that is as the expression is regrouped. -/
theorem Heard.reads {u : Expr} (h : Heard A depth e) (hu : Reads A (e.render depth) u) :
    u.bare = (e.regroup 0).1 := by
  obtain ⟨ps, t, hw, hbare, hparses⟩ := h.whole
  obtain ⟨xs, hxs, hderives⟩ := hu
  obtain rfl := hxs.unique hw.lexes
  have hend : ∀ b, Closed b [] := by simp [Closed]
  have ht : parse 0 (lexemes ps ++ []) = some (t, []) := by
    rw [hparses.reads 0 [] (Nat.zero_le _) (hend _), climb_stop t (by simp)]
  have hread : parse 0 (lexemes ps ++ []) = some (u, []) := by
    rw [hderives.parses.reads 0 [] (Nat.zero_le _) (hend _), climb_stop u (by simp)]
  obtain rfl : u = t := by simpa using hread.symm.trans ht
  exact hbare

/-- A constructor call is printed. Its text is read as a constructor call with the same callee and
the same arguments if and only if every constructor in it keeps its callee. If its own constructor
does not, all that the text can be read as is a call. -/
theorem constructor_reads_back_iff {A : Alphabet} {i : Info} {c : Expr} {as : List Expr}
    (h : Built A (.new i c [] as)) :
    (Node.expr (.new i c [] as)).print? = some ((Expr.new i c [] as).render 0) ∧
    ∀ depth,
      ((∃ t ts, (∀ u, Reads A ((Expr.new i c [] as).render depth) u ↔ u = .new {} t [] ts) ∧
          t.bare = c.bare ∧ Expr.bares ts = Expr.bares as) ↔
        (Expr.new i c [] as).KeepsCallees) ∧
      (c.callFree = false → ∀ u, Reads A ((Expr.new i c [] as).render depth) u →
        ∃ t ts, u.bare = .call {} {} t [] ts) := by
  refine ⟨by simp [Node.print?, Node.isComplete, Node.render, Expr.isMissing, h.isComplete],
    fun depth => ⟨⟨?_, fun hkeeps => ?_⟩, fun hcall u hu => ?_⟩⟩
  · rintro ⟨t, ts, hreads, hbare, hbares⟩
    have hregroup := (h.heard depth).1.reads ((hreads _).2 rfl)
    have hsame : ((Expr.new i c [] as).regroup 0).1 = (Expr.new i c [] as).bare := by
      rw [← hregroup, Expr.bare, Expr.bare, hbare, hbares]
    exact ((h.regroup_eq_iff 0).1 (regroup_zero_iff.2 hsame)).1
  · obtain ⟨hfree, hcallee, hargs⟩ := Expr.keepsCallees_new.1 hkeeps
    cases h with
    | leaf he => cases he
    | new hc has =>
      obtain ⟨t, ts, hbare, hbares, hprinted⟩ := printed_new (i := i)
        ((hc.legible depth hcallee).2 hfree) fun e he => (has e he).legible depth (hargs e he)
      have hreads := (hprinted.loosen.of_member).reads
      refine ⟨t, ts, fun u => ⟨fun hu => hu.unique hreads, ?_⟩, hbare, hbares⟩
      rintro rfl
      exact hreads
  · obtain ⟨t, ht⟩ := regroup_new_called i as hcall
    exact ⟨t, Expr.regroups as, ((h.heard depth).1.reads hu).trans ht⟩

/-! ### A callee that is kept and one that is not -/

theorem isWord_letter : ∀ s ∈ ["a", "f", "g"], Alphabet.ascii.IsWord s ∧ s ∉ reserved := by
  simp only [forall_mem_cons]
  refine ⟨⟨?_, by decide⟩, ⟨?_, by decide⟩, ⟨?_, by decide⟩, nofun⟩ <;>
    exact ⟨_, _, rfl, by decide, nofun⟩

theorem plain_letter (hs : s ∈ ["a", "f", "g"]) : Plain .ascii (.ident { name := s }) :=
  .ident (isWord_letter s hs).1 (isWord_letter s hs).2

/-- A constructor call with a member of another constructor call as its callee. The callee of the
inner one is a call in parentheses. -/
def nestedConstructor : Expr :=
  let name (s : String) : Expr := .ident { name := s }
  let inner : Expr := .new {} (.paren {} (.call {} {} (name "f") [] [])) [] []
  .new {} (.prop {} {} inner (some { name := "a" }) false) [] [.call {} {} (name "g") [] []]

theorem nestedConstructor_built : Built .ascii nestedConstructor := by
  have hname (s : String) (hs : s ∈ ["a", "f", "g"]) : Built .ascii (.ident { name := s }) :=
    .leaf (plain_letter hs) rfl
  have hcall : BuiltElement .ascii (.call {} {} (.ident { name := "g" }) [] []) :=
    .built (.call (hname "g" (by simp)) nofun)
  exact .new (.prop (.new (.paren (.call (hname "f" (by simp)) nofun)) nofun)
    (isWord_letter "a" (by simp)).1) (by simpa using hcall)

theorem nestedConstructor_keepsCallees : nestedConstructor.KeepsCallees := by
  have hname (s : String) (hs : s ∈ ["a", "f", "g"]) : (Expr.ident { name := s }).KeepsCallees :=
    (plain_letter hs).keepsCallees
  simp [nestedConstructor, Expr.keepsCallees_new, Expr.keepsCallees_prop, Expr.keepsCallees_paren,
    Expr.keepsCallees_call, Expr.callFree, hname]

theorem constructor_reads_back_iff_nested :
    Built .ascii nestedConstructor ∧ nestedConstructor.KeepsCallees ∧
    (Node.expr nestedConstructor).print? = some "new new (f())().a(g())" ∧
    ∃ t ts, (∀ u, Reads .ascii "new new (f())().a(g())" u ↔ u = .new {} t [] ts) ∧
      (Expr.new {} t [] ts).bare = nestedConstructor.bare := by
  have htext : nestedConstructor.render 0 = "new new (f())().a(g())" := by decide +kernel
  obtain ⟨hprint, hback⟩ := constructor_reads_back_iff nestedConstructor_built
  obtain ⟨t, ts, hreads, hbare, hbares⟩ := (hback 0).1.2 nestedConstructor_keepsCallees
  refine ⟨nestedConstructor_built, nestedConstructor_keepsCallees, ?_, t, ts, ?_, ?_⟩
  · exact hprint.trans (congrArg some htext)
  · exact htext ▸ hreads
  · simp [nestedConstructor, hbare, hbares]

/-- A constructor call whose callee is a call. -/
def calledConstructor : Expr :=
  .new {} (.call {} {} (.ident { name := "f" }) [] []) [] []

/-- The constructor takes the arguments of the call, and what is read is a call. -/
theorem called_callee_lost : Built .ascii calledConstructor ∧
    (Node.expr calledConstructor).print? = some "new f()()" ∧
    ∀ u, Reads .ascii "new f()()" u ↔
      u = .call {} {} (.new {} (.ident { name := "f" }) [] []) [] [] := by
  have hname : Printed .ascii tight member "f".toList (.ident { name := "f" }) :=
    (Printed.name (isWord_letter "f" (by simp)).1 (by decide)).wider (by decide)
  have hnone : PrintedList .ascii [] [] := ⟨[], .nil, .nil⟩
  have hcall : Printed .ascii tight call "new f()()".toList
      (.call {} {} (.new {} (.ident { name := "f" }) [] []) [] []) :=
    (hname.new hnone).call (by simp) hnone
  have hreads := (hcall.loosen.wider (c := leftHandSide) (by decide)).reads
  refine ⟨.new (.call (.leaf (plain_letter (by simp)) rfl) nofun) nofun, by decide +kernel,
    fun u => ⟨fun hu => hu.unique hreads, ?_⟩⟩
  rintro rfl
  exact hreads

end Grammar

end ExtensionLowering
