import ExtensionLowering.Proofs.Reading.Clash
import ExtensionLowering.Proofs.Reading.Constructor
import ExtensionLowering.Proofs.Reading.PrefixOperator
/-!
# Mixed operators in printed expressions

Parentheses are printed where the binding levels ask for them, and the levels know nothing of the
two rules about operators side by side. So the text of an expression breaks such a rule exactly when
somewhere in the tree the base of a power begins with a sign, or an operand of the coalescing
operator is a logical expression.

## Main definitions

* `Expr.isSigned`: the text of an operand begins with a sign.
* `Expr.Mixes`: somewhere in the tree an operator has an operand that needs parentheses.
* `Formed`: expressions with any operators the printer knows.

## Main statements

* `mixed_operators_iff`: which printed expressions break a rule.
-/
namespace ExtensionLowering

namespace Expr

/-- Whether the text of the operand begins with a sign: with a prefix operator that is no update and
is not read as one together with what follows, or with the sign of a number. -/
def isSigned : Expr → Bool
  | .unary _ op e => op ∉ ["++", "--"] && !e.joins op
  | .void .. => true
  | .number _ s => s.toList.head?.any (· ∈ ['+', '-'])
  | _ => false

/-- Whether an operand of the operator at the root needs parentheses whatever its level. -/
def isMixture : Expr → Bool
  | .binary _ _ l op r =>
    op = "**" && l.isSigned || op = "??" && (Grammar.isLogical l || Grammar.isLogical r)
  | _ => false

/-- Among the nodes an operand needs parentheses whatever its level. -/
def MixedIn (ns : List Node) : Prop :=
  ∃ x, .expr x ∈ ns ∧ x.isMixture

/-- Somewhere in the expression an operand needs parentheses whatever its level. -/
def Mixes (e : Expr) : Prop :=
  MixedIn (Node.expr e).nodes

/-- The signs in front of an expression, as they are written. -/
def signText : Expr → List Char
  | .unary _ op e => op.toList ++ ((unaryGap op e).toList ++ e.signText)
  | .number _ s => (s.toList.head?.filter (· ∈ ['+', '-'])).toList
  | _ => []

/-! ## Where operators are mixed -/

variable {i : Info} {f : SiteFacts} {c e l o r t x : Expr} {op : String} {name : Option Ident}
  {q : Bool} {ts : List TypeRef} {as : List Expr}

theorem mixedIn_append {ms ns : List Node} : MixedIn (ms ++ ns) ↔ MixedIn ms ∨ MixedIn ns := by
  simp only [MixedIn, List.mem_append, or_and_right, exists_or]

theorem mixedIn_walks : MixedIn (Expr.walks (fun _ => true) as) ↔ ∃ e ∈ as, e.Mixes := by
  rw [Expr.walks_eq_flatMap]
  simp only [MixedIn, List.mem_flatMap]
  exact ⟨fun ⟨x, ⟨e, he, hx⟩, hmix⟩ => ⟨e, he, x, hx, hmix⟩,
    fun ⟨e, he, x, hx, hmix⟩ => ⟨x, ⟨e, he, hx⟩, hmix⟩⟩

theorem not_mixedIn_identNodes : ¬ MixedIn (identNodes name) := by
  cases name <;> simp [MixedIn, identNodes, isMixture]

theorem mixes_binary : (binary i f l op r).Mixes ↔
    (binary i f l op r).isMixture ∨ l.Mixes ∨ r.Mixes := by
  have hnodes : (Node.expr (binary i f l op r)).nodes =
      .expr (binary i f l op r) :: ((Node.expr l).nodes ++ (Node.expr r).nodes) := rfl
  rw [Mixes, Mixes, Mixes, ← mixedIn_append, hnodes]
  simp only [MixedIn, List.mem_cons, Node.expr.injEq, or_and_right, exists_or, exists_eq_left]

theorem mixes_of_isMixture (h : e.isMixture) : e.Mixes := by
  cases e with
  | binary => exact mixes_binary.2 (.inl h)
  | _ => cases h

/-- Only binary operators are mixed. -/
theorem mixes_iff_below {below : List Node} (hroot : e.isMixture = false)
    (hwalk : (Node.expr e).nodes = visited (fun _ => true) (.expr e) below) :
    e.Mixes ↔ MixedIn below := by
  simp only [Mixes, MixedIn, hwalk, visited, if_true, List.mem_cons, Node.expr.injEq, or_and_right,
    exists_or, exists_eq_left, hroot, Bool.false_eq_true, false_or]

theorem mixes_leaf (hroot : e.isMixture = false)
    (hwalk : (Node.expr e).nodes = visited (fun _ => true) (.expr e) []) : e.Mixes ↔ False := by
  rw [mixes_iff_below hroot hwalk]
  simp [MixedIn]

theorem mixes_prop : (prop i f o name q).Mixes ↔ o.Mixes := by
  rw [mixes_iff_below rfl rfl, mixedIn_append, or_iff_left not_mixedIn_identNodes]
  rfl

theorem mixes_elem : (elem i f o x).Mixes ↔ o.Mixes ∨ x.Mixes := by
  rw [mixes_iff_below rfl rfl, mixedIn_append]
  rfl

theorem mixes_call {f : CallFacts} : (call i f c ts as).Mixes ↔ c.Mixes ∨ ∃ e ∈ as, e.Mixes := by
  rw [mixes_iff_below rfl rfl, mixedIn_append, mixedIn_walks]
  rfl

theorem mixes_new : (new i c ts as).Mixes ↔ c.Mixes ∨ ∃ e ∈ as, e.Mixes := by
  rw [mixes_iff_below rfl rfl, mixedIn_append, mixedIn_walks]
  rfl

theorem mixes_unary : (unary i op e).Mixes ↔ e.Mixes :=
  mixes_iff_below rfl rfl

theorem mixes_void : (void i e).Mixes ↔ e.Mixes :=
  mixes_iff_below rfl rfl

theorem mixes_paren : (paren i e).Mixes ↔ e.Mixes :=
  mixes_iff_below rfl rfl

theorem mixes_spread : (spread i e).Mixes ↔ e.Mixes :=
  mixes_iff_below rfl rfl

theorem mixes_cond : (cond i c t e).Mixes ↔ c.Mixes ∨ t.Mixes ∨ e.Mixes := by
  rw [mixes_iff_below rfl rfl, mixedIn_append, mixedIn_append, or_assoc]
  rfl

theorem mixes_array : (array i as).Mixes ↔ ∃ e ∈ as, e.Mixes := by
  rw [mixes_iff_below rfl rfl, mixedIn_walks]

end Expr

namespace Grammar

open Category

variable {e : Expr} {body sg : List Char}
variable {A : Alphabet} {depth : Nat}

theorem mixes_arrow {i : Info} {ps : List Param} (hps : ∀ p ∈ ps, PlainParam A p) :
    (Expr.arrow i ps .missing e).Mixes ↔ e.Mixes := by
  have hparams : ¬ Expr.MixedIn (Param.walks (fun _ => true) ps) := by
    rw [Param.walks_eq_flatMap]
    rintro ⟨x, hmem, hmix⟩
    obtain ⟨p, hp, hmem⟩ := List.mem_flatMap.1 hmem
    cases hps p hp with
    | mk =>
      simp only [Param.walk, visited, if_true, identNodes, Expr.walk, List.append_nil,
        List.mem_cons, List.not_mem_nil, or_false, reduceCtorEq, false_or, Node.expr.injEq] at hmem
      simp [hmem, Expr.isMixture] at hmix
  rw [Expr.mixes_iff_below rfl rfl, Expr.mixedIn_append, Expr.mixedIn_append]
  simp only [hparams, false_or, Block.walk]
  rw [or_iff_right (by simp [Expr.MixedIn])]
  rfl

/-! ## Signs -/

/-- Signs are read from the left, two equal ones of a plus or a minus together. -/
def munch : List Char → List Piece
  | '+' :: '+' :: cs => .lexeme (.punct "++") :: munch cs
  | '-' :: '-' :: cs => .lexeme (.punct "--") :: munch cs
  | ' ' :: cs => .gap :: munch cs
  | c :: cs => .lexeme (.punct (String.singleton c)) :: munch cs
  | [] => []

/-- The characters that signs are written with. -/
def signChars : List Char :=
  [' ', '!', '~', '+', '-']

theorem punctuators_sign : ∀ c ∈ ['!', '~', '+', '-'], String.singleton c ∈ punctuators ∧
    (String.singleton c).toList = [c] ∧ String.singleton c ∉ [".", "?."] ∧
    ∀ p ∈ punctuators, [c] <+: p.toList → (p.toList.drop 1).head?.all fun d =>
      d = '=' || d = c && c ∈ ['+', '-'] := by
  simp only [List.forall_mem_cons]
  exact ⟨by decide +kernel, by decide +kernel, by decide +kernel, by decide +kernel, nofun⟩

theorem apart_sign {c d : Char} (hc : c ∈ ['!', '~', '+', '-']) (heq : d ≠ '=')
    (hsame : c ∈ ['+', '-'] → d ≠ c) : (Lexeme.punct (String.singleton c)).Apart A d := by
  obtain ⟨-, htext, hpoint, hnext⟩ := punctuators_sign c hc
  refine ⟨fun p hp ⟨r, hr⟩ => ?_, fun hmem => absurd hmem hpoint⟩
  rw [htext] at hr
  have hsecond := hnext p hp ⟨d :: r, by simpa using hr⟩
  have hhead : (p.toList.drop 1).head? = some d := by simp [← hr]
  simp only [hhead, Option.all_some, Bool.or_eq_true, Bool.and_eq_true, decide_eq_true_eq]
    at hsecond
  tauto

theorem apart_next_sign {c : Char} {cs : List Char} (hc : c ∈ ['!', '~', '+', '-'])
    (hcs : ∀ d ∈ cs, d ∈ signChars) (hbody : Unsigned body)
    (hsame : c ∈ ['+', '-'] → cs.head? ≠ some c) :
    ∀ d ∈ (cs ++ body).head?, (Lexeme.punct (String.singleton c)).Apart A d := by
  cases cs with
  | nil =>
    obtain ⟨d, ds, rfl, hd⟩ := hbody
    rintro d ⟨⟩
    have hmarks : ∀ c ∈ ['+', '-'], c ∈ ['=', '!', '-', '+', '~'] := by simp
    exact apart_sign hc (fun heq => hd (by simp [heq])) fun hpair heq => hd (heq ▸ hmarks c hpair)
  | cons e es =>
    have hmarks : ∀ e ∈ signChars, e ≠ '=' := by simp [signChars]
    rintro d ⟨⟩
    exact apart_sign hc (hmarks e (hcs e (by simp))) fun hpair heq => hsame hpair (by simp [heq])

theorem begins_signs {es : List Char} {p : Char → Prop} (hbody : Unsigned body)
    (hp : ∀ c ∈ (sg ++ body).head?, p c) : Begins es (sg ++ body) p := by
  obtain ⟨d, ds, rfl, -⟩ := hbody
  intro rest _ c hc
  refine hp c ?_
  cases sg with
  | nil => exact hc
  | cons e es => exact hc

theorem apart_double {s : String} (hs : s ∈ ["++", "--"]) (c : Char) :
    (Lexeme.punct s).Apart A c := by
  have hlong : ∀ s ∈ ["++", "--"], s ∉ [".", "?."] ∧ ∀ p ∈ punctuators, s.toList <+: p.toList →
      p.toList.length ≤ s.toList.length := by
    decide +kernel
  obtain ⟨hpoint, hlong⟩ := hlong s hs
  refine ⟨fun p hp hpre => ?_, fun hmem => absurd hmem hpoint⟩
  have hshort := hlong p hp ((List.prefix_append _ _).trans hpre)
  have hlonger := hpre.length_le
  rw [List.length_append, List.length_singleton] at hlonger
  omega

theorem Written.signs {es : List Char} {ps : List Piece} (hsg : ∀ c ∈ sg, c ∈ signChars)
    (hbody : Unsigned body) (h : Written A es body ps) :
    Written A es (sg ++ body) (munch sg ++ ps) := by
  fun_induction munch sg with
  | case1 cs ih =>
    exact .lexeme (x := .punct "++") (show "++" ∈ punctuators by decide)
      (.of_forall (apart_double (by decide))) (ih fun c hc => hsg c (by simp [hc]))
  | case2 cs ih =>
    exact .lexeme (x := .punct "--") (show "--" ∈ punctuators by decide)
      (.of_forall (apart_double (by decide))) (ih fun c hc => hsg c (by simp [hc]))
  | case3 cs ih => exact .gap (ih fun c hc => hsg c (by simp [hc]))
  | case4 c cs hplus hminus hgap ih =>
    obtain ⟨hc, hcs⟩ := List.forall_mem_cons.1 hsg
    have hsign : c ∈ ['!', '~', '+', '-'] := (List.mem_cons.1 hc).resolve_left hgap
    obtain ⟨hmem, htext, -⟩ := punctuators_sign c hsign
    have hsame : c ∈ ['+', '-'] → cs.head? ≠ some c := by
      intro hpair hhead
      obtain ⟨ds, rfl⟩ := List.head?_eq_some_iff.1 hhead
      simp only [List.mem_cons, List.not_mem_nil, or_false] at hpair
      rcases hpair with rfl | rfl
      · exact hplus ds rfl rfl
      · exact hminus ds rfl rfl
    have hwritten := Written.lexeme (x := .punct (String.singleton c)) hmem
      (begins_signs hbody (apart_next_sign hsign hcs hbody hsame)) (ih hcs)
    simpa [Lexeme.text] using hwritten
  | case5 => exact h

theorem munch_prefixes (hsg : ∀ c ∈ sg, c ∈ signChars) :
    ∀ x ∈ lexemes (munch sg), x ∈ prefixes := by
  have hsigns : ∀ c ∈ signChars, c ≠ ' ' → Lexeme.punct (String.singleton c) ∈ prefixes := by
    simp only [signChars, List.forall_mem_cons]
    exact ⟨fun hne => absurd rfl hne, by decide, by decide, by decide, by decide, nofun⟩
  fun_induction munch sg with
  | case1 cs ih | case2 cs ih =>
    rw [lexemes_cons]
    exact List.forall_mem_cons.2 ⟨by decide, ih fun c hc => hsg c (by simp [hc])⟩
  | case3 cs ih => exact ih fun c hc => hsg c (by simp [hc])
  | case4 c cs _ _ hgap ih =>
    rw [lexemes_cons]
    exact List.forall_mem_cons.2
      ⟨hsigns c (hsg c (by simp)) hgap, ih fun c hc => hsg c (by simp [hc])⟩
  | case5 => simp

/-- The first of several prefixes decides. -/
theorem Phrase.prefixed_all {s : Bool} {p : Prop} {xs zs : List Lexeme}
    (hzs : ∀ x ∈ zs, x ∈ prefixes) (h : Phrase unary.rank s p xs) :
    Phrase unary.rank ((zs.head?.map isSign).getD s) p (zs ++ xs) := by
  induction zs with
  | nil => exact h
  | cons z zs ih =>
    obtain ⟨hz, hzs⟩ := List.forall_mem_cons.1 hzs
    exact (ih hzs).prefixed hz (Nat.le_refl _)

attribute [local simp] isSign

/-- An operator is read as a sign unless it is an update or becomes one. -/
theorem isSign_munch {op : String} (hop : op ∈ prefixOperators) (rest : List Char) :
    (lexemes (munch (op.toList ++ rest))).head?.map isSign =
      some (op ∉ ["++", "--"] && !(op ∈ ["+", "-"] && rest.head? = op.toList.head?)) := by
  simp only [prefixOperators, List.mem_cons, List.not_mem_nil, or_false] at hop
  rcases hop with rfl | rfl | rfl | rfl | rfl | rfl
  · simp [munch]
  · simp [munch]
  · cases rest with
    | nil => decide
    | cons c cs => by_cases hc : c = '+' <;> simp [munch, hc]
  · cases rest with
    | nil => decide
    | cons c cs => by_cases hc : c = '-' <;> simp [munch, hc]
  · simp [munch]
  · simp [munch]

theorem joins_eq {op : String} (hop : op ∈ prefixOperators)
    (he : ∀ i inner x, e = .unary i inner x → inner ∈ prefixOperators) :
    e.joins op = (op ∈ ["+", "-"] &&
      ((unaryGap op e).toList ++ e.signText).head? = op.toList.head?) := by
  have htexts : ∀ op ∈ prefixOperators, op.toList ≠ [] := by decide
  cases e with
  | unary i inner x =>
    have hpairs : ∀ op ∈ prefixOperators, ∀ inner ∈ prefixOperators,
        (op ∈ ["+", "-"] && inner = op ++ op) = (op ∈ ["+", "-"] &&
          ((if inner = op then " " else "").toList ++ inner.toList).head? = op.toList.head?) := by
      decide
    have hinner := he i inner x rfl
    obtain ⟨c, cs, hcs⟩ := List.exists_cons_of_ne_nil (htexts inner hinner)
    have hpair := hpairs op hop inner hinner
    rw [Expr.joins, hpair, unaryGap, Expr.signText, hcs]
    split <;> rfl
  | number i s =>
    have hsigns : ∀ op ∈ ["+", "-"], ∃ c ∈ ['+', '-'], op.toList = [c] := by
      simp only [List.forall_mem_cons]
      exact ⟨⟨'+', by simp, rfl⟩, ⟨'-', by simp, rfl⟩, by simp⟩
    by_cases hpair : op ∈ ["+", "-"]
    · obtain ⟨c, hc, hcs⟩ := hsigns op hpair
      have hhead : [c].isPrefixOf s.toList = decide (s.toList.head? = some c) := by
        cases s.toList with
        | nil => rfl
        | cons d ds => simp [List.isPrefixOf, beq_eq_decide, eq_comm]
      have hkept : s.toList.head? = some c → c = '+' ∨ c = '-' := fun _ => by simpa using hc
      simpa [Expr.joins, hpair, hcs, unaryGap, Expr.signText, hhead] using hkept
    · simp [Expr.joins, hpair]
  | _ =>
    have hhead : op.toList.head? ≠ none := by simpa using htexts op hop
    simp [Expr.joins, unaryGap, Expr.signText, hhead.symm]

/-! ## Expressions with any operators -/

mutual

/-- The expressions without blocks and type arguments, with any of the operators that the printer
knows between operands of any kind. -/
inductive Formed (A : Alphabet) : Expr → Prop
  | ident {id : Ident} (hword : A.IsWord id.name) (hname : id.name ∉ reserved) :
      Formed A (.ident id)
  | number {i : Info} {s : String} (hs : A.IsFigure s.toList) : Formed A (.number i s)
  | string {i : Info} {v : String} : Formed A (.string i v)
  | bool {i : Info} {b : Bool} : Formed A (.bool i b)
  | this {i : Info} : Formed A (.this i)
  | prop {i : Info} {f : SiteFacts} {o : Expr} {id : Ident} {optional : Bool} (ho : Formed A o)
      (hword : A.IsWord id.name) : Formed A (.prop i f o (some id) optional)
  | elem {i : Info} {f : SiteFacts} {o x : Expr} (ho : Formed A o) (hx : Formed A x) :
      Formed A (.elem i f o x)
  | call {i : Info} {f : CallFacts} {c : Expr} {as : List Expr} (hc : Formed A c)
      (has : ∀ e ∈ as, FormedElement A e) : Formed A (.call i f c [] as)
  | new {i : Info} {c : Expr} {as : List Expr} (hc : Formed A c)
      (has : ∀ e ∈ as, FormedElement A e) : Formed A (.new i c [] as)
  | binary {i : Info} {f : SiteFacts} {l r : Expr} {op : String} (hop : op ∈ binaryOperators)
      (hl : Formed A l) (hr : Formed A r) : Formed A (.binary i f l op r)
  | unary {i : Info} {op : String} {e : Expr} (hop : op ∈ prefixOperators) (he : Formed A e) :
      Formed A (.unary i op e)
  | cond {i : Info} {c t e : Expr} (hc : Formed A c) (ht : Formed A t) (he : Formed A e) :
      Formed A (.cond i c t e)
  | paren {i : Info} {e : Expr} (he : Formed A e) : Formed A (.paren i e)
  | void {i : Info} {e : Expr} (he : Formed A e) : Formed A (.void i e)
  | array {i : Info} {es : List Expr} (hes : ∀ e ∈ es, FormedElement A e) : Formed A (.array i es)
  | arrow {i : Info} {ps : List Param} {e : Expr} (hps : ∀ p ∈ ps, PlainParam A p)
      (he : Formed A e) : Formed A (.arrow i ps .missing e)

/-- A formed expression, or one that is spread. -/
inductive FormedElement (A : Alphabet) : Expr → Prop
  | formed {e : Expr} (he : Formed A e) : FormedElement A e
  | spread {i : Info} {e : Expr} (he : Formed A e) : FormedElement A (.spread i e)

end

/-- The text of the expression is a phrase of its level, also as the target of a chain if it needs
no parentheses there. As an operand it is a phrase behind its signs. -/
structure Traced (A : Alphabet) (depth : Nat) (e : Expr) : Prop where
  whole : ∃ ps, Written A loose (e.render depth).toList ps ∧
    Phrase e.level e.isSigned e.Mixes (lexemes ps)
  target : Level.call ≤ e.level → e.isWrappedTarget = false → ∃ ps,
    Written A tight (e.render depth).toList ps ∧ Phrase Level.call false e.Mixes (lexemes ps)
  operand : Level.unary ≤ e.level → ∃ body ps s, (e.render depth).toList = e.signText ++ body ∧
    (∀ c ∈ e.signText, c ∈ signChars) ∧ Unsigned body ∧ Written A loose body ps ∧
    Phrase Level.unary s e.Mixes (lexemes ps)

/-- The text of an element of a list is a phrase. -/
def TracedElement (A : Alphabet) (depth : Nat) (e : Expr) : Prop :=
  ∃ ps, Written A loose (e.fit Level.spread (e.render depth)).toList ps ∧
    ∃ l s, Phrase l s e.Mixes (lexemes ps)

namespace Traced

variable {p : Prop} {ps : List Piece} {i : Info} {as : List Expr}
variable {e o x : Expr}
variable {f : SiteFacts}

theorem parenthesized (h : Traced A depth e) : ∃ ps,
    Written A tight (ExtensionLowering.parenthesized (e.render depth)).toList ps ∧
      Phrase Level.primary false e.Mixes (lexemes ps) := by
  obtain ⟨ps, hw, hphrase⟩ := h.whole
  have hwritten : Written A tight ("(".toList ++ ((e.render depth).toList ++ ")".toList)) _ :=
    hw.enclosed (by simp)
  refine ⟨_, by simpa [ExtensionLowering.parenthesized] using hwritten, ?_⟩
  rw [lexemes_enclosed]
  exact .enclosed (by decide) (by decide) hphrase.inside

theorem level_of_isSigned (h : e.isSigned) : Level.unary ≤ e.level := by
  cases e with
  | unary | void | number => simp [Expr.level, Level.unary, Level.primary]
  | _ => cases h

theorem isLogicalRank_iff : IsLogicalRank e.level ↔ isLogical e := by
  refine ⟨fun h => Legible.isLogical_of_level (by simpa [IsLogicalRank, Category.rank] using h),
    fun h => ?_⟩
  cases e with
  | binary i f l op r =>
    simp only [isLogical, Bool.or_eq_true, decide_eq_true_eq] at h
    rcases h with rfl | rfl
    · exact .inl rfl
    · exact .inr rfl
  | _ => cases h

/-- The text of an operand at a place that asks for some level. -/
theorem fit (h : Traced A depth e) (least : Nat) (hleast : least ≤ Level.primary) : ∃ l s ps,
    Written A loose (e.fit least (e.render depth)).toList ps ∧ Phrase l s e.Mixes (lexemes ps) ∧
      least ≤ l ∧ (least ≤ Level.unary → s = e.isSigned) ∧
      (least ≤ logicalOr.rank → (IsLogicalRank l ↔ isLogical e)) := by
  unfold Expr.fit
  split
  · rename_i hlow
    obtain ⟨ps, hw, hphrase⟩ := h.parenthesized
    refine ⟨_, _, ps, hw.mono (by decide), hphrase, hleast, fun hunary => ?_, fun hor => ?_⟩
    · have hunsigned : ¬ e.isSigned := fun hsigned =>
        absurd (level_of_isSigned hsigned) (Nat.not_le.2 (Nat.lt_of_lt_of_le hlow hunary))
      exact (Bool.eq_false_iff.2 hunsigned).symm
    · have hlogical : ¬ IsLogicalRank e.level := by
        have hlow := Nat.lt_of_lt_of_le hlow hor
        rintro (heq | heq) <;> rw [heq] at hlow <;> exact absurd hlow (by decide)
      have hprimary := not_logical_of_bitOr (l := Level.primary) (by decide)
      simpa [← isLogicalRank_iff, hlogical] using hprimary
  · rename_i hhigh
    obtain ⟨ps, hw, hphrase⟩ := h.whole
    exact ⟨_, _, ps, hw, hphrase, Nat.not_lt.1 hhigh, fun _ => rfl, fun _ => isLogicalRank_iff⟩

theorem asTarget (h : Traced A depth e) : ∃ ps,
    Written A tight (e.asTarget (e.render depth)).toList ps ∧
      Phrase Level.call false e.Mixes (lexemes ps) := by
  obtain ⟨ps, hw, hphrase⟩ := h.parenthesized
  have hcall := hphrase.of_unary (m := Level.call) (by decide) (by decide)
  unfold Expr.asTarget Expr.fit
  split
  · exact ⟨ps, hw, hcall⟩
  · split
    · exact ⟨ps, hw, hcall⟩
    · exact h.target (by simp_all) (by simp_all)

/-! One lemma for each construct, from those of its parts. -/

theorem of_loose {l : Nat} (hlevel : e.level = l) (hl : l < Level.unary) (hmixes : e.Mixes ↔ p)
    (h : ∃ ps, Written A loose (e.render depth).toList ps ∧ Phrase l false p (lexemes ps)) :
    Traced A depth e where
  whole := by
    obtain ⟨ps, hw, hphrase⟩ := h
    have hsigned : e.isSigned = false := by
      rw [Bool.eq_false_iff]
      exact fun hsigned => absurd (level_of_isSigned hsigned) (Nat.not_le.2 (hlevel ▸ hl))
    rw [hlevel, hsigned]
    exact ⟨ps, hw, hphrase.congr hmixes.symm⟩
  target hhigh := absurd (hlevel ▸ hl) (Nat.not_lt.2 (Nat.le_trans (by decide) hhigh))
  operand hhigh := absurd (hlevel ▸ hl) (Nat.not_lt.2 hhigh)

theorem of_target (hlevel : Level.call ≤ e.level) (hsigned : e.isSigned = false)
    (hsigns : e.signText = []) (hunsigned : Unsigned (e.render depth).toList) (hmixes : e.Mixes ↔ p)
    (hw : Written A tight (e.render depth).toList ps)
    (h : Phrase Level.call false p (lexemes ps)) : Traced A depth e where
  whole := by
    refine ⟨ps, hw.mono (by decide), ?_⟩
    rw [hsigned]
    exact (h.of_unary (by decide) (Nat.le_trans (by decide) hlevel)).congr hmixes.symm
  target _ _ := ⟨ps, hw, h.congr hmixes.symm⟩
  operand _ := by
    refine ⟨_, ps, false, by rw [hsigns]; rfl, by simp [hsigns], hunsigned, hw.mono (by decide), ?_⟩
    exact (h.of_unary (by decide) (by decide)).congr hmixes.symm

/-- An operand behind its signs, which is no target. -/
theorem of_operand {s : Bool} (hlevel : Level.unary ≤ e.level)
    (htarget : Level.call ≤ e.level → e.isWrappedTarget)
    (htext : (e.render depth).toList = e.signText ++ body)
    (hsigns : ∀ c ∈ e.signText, c ∈ signChars)
    (hsigned : ((lexemes (munch e.signText)).head?.map isSign).getD s = e.isSigned)
    (hunsigned : Unsigned body) (hmixes : e.Mixes ↔ p) (hw : Written A loose body ps)
    (h : Phrase Level.unary s p (lexemes ps)) : Traced A depth e where
  whole := by
    refine ⟨munch e.signText ++ ps, by rw [htext]; exact hw.signs hsigns hunsigned, ?_⟩
    have hphrase := h.prefixed_all (munch_prefixes hsigns)
    rw [lexemes_append, ← hsigned]
    exact (hphrase.of_unary (Nat.le_refl _) hlevel).congr hmixes.symm
  target hhigh hwrapped := by simp [htarget hhigh] at hwrapped
  operand _ := ⟨body, ps, s, htext, hsigns, hunsigned, hw, h.congr hmixes.symm⟩

theorem of_primary (hlevel : e.level = Level.primary) (hsigned : e.isSigned = false)
    (hsigns : e.signText = []) (hunsigned : Unsigned (e.render depth).toList) (hmixes : e.Mixes ↔ p)
    (hw : Written A tight (e.render depth).toList ps)
    (h : Phrase Level.primary false p (lexemes ps)) : Traced A depth e :=
  of_target (by rw [hlevel]; decide) hsigned hsigns hunsigned hmixes hw
    (h.of_unary (by decide) (by decide))

theorem ident {id : Ident} (hword : A.IsWord id.name) (hname : id.name ∉ reserved) :
    Traced A depth (.ident id) :=
  .of_primary rfl rfl rfl (.word hword) (Expr.mixes_leaf rfl rfl) (.word hword) (.name hname)

theorem string {v : String} : Traced A depth (.string i v) :=
  .of_primary rfl rfl rfl (quote_toList v ▸ .cons (by decide) _) (Expr.mixes_leaf rfl rfl)
    (.string v) (.string v)

theorem keyword {s : String} (hs : s ∈ ["this", "true", "false"]) (hlevel : e.level = Level.primary)
    (hsigned : e.isSigned = false) (hsigns : e.signText = []) (htext : e.render depth = s)
    (hmixes : e.Mixes ↔ False) : Traced A depth e := by
  have hwords : ∀ s ∈ ["this", "true", "false"],
      s ∈ ["this", "true", "false", "void", "new", "in", "instanceof"] ∧
        s ∉ ["void", "typeof", "delete", "new"] := by
    decide
  obtain ⟨hkeyword, hprefix⟩ := hwords s hs
  have hword : A.IsWord s := isWord_keyword A hkeyword
  subst htext
  exact .of_primary hlevel hsigned hsigns (.word hword) hmixes (.word hword) (.word hprefix)

theorem bool {b : Bool} : Traced A depth (.bool i b) :=
  .keyword (s := if b then "true" else "false") (by cases b <;> decide) rfl rfl rfl rfl
    (Expr.mixes_leaf rfl rfl)

theorem this : Traced A depth (.this i) :=
  .keyword (s := "this") (by decide) rfl rfl rfl rfl (Expr.mixes_leaf rfl rfl)

theorem paren (h : Traced A depth e) : Traced A depth (.paren i e) := by
  obtain ⟨ps, hw, hphrase⟩ := h.parenthesized
  exact .of_primary rfl rfl rfl (Legible.unsigned_parenthesized _) Expr.mixes_paren hw hphrase

/-- A number is a numeral or a word behind its sign. -/
theorem number {s : String} (hs : A.IsFigure s.toList) : Traced A depth (.number i s) := by
  obtain ⟨sign, hsign, t, htext, hbody⟩ := hs
  obtain ⟨hunsigned, ps, hw, hphrase⟩ : Unsigned t.toList ∧ ∃ ps, Written A loose t.toList ps ∧
      Phrase Level.primary false False (lexemes ps) := by
    rcases hbody with hnumeral | ⟨hword, hname⟩
    · exact ⟨.numeral hnumeral, _, .number hnumeral, .number t⟩
    · exact ⟨.word hword, _, (Written.word hword).mono (by decide), .name hname⟩
  have hhead : s.toList.head? = (sign ++ t.toList).head? := by rw [htext]
  obtain ⟨d, ds, hds, hd⟩ := hunsigned
  have hfirst : d ≠ '+' ∧ d ≠ '-' :=
    ⟨fun heq => hd (by simp [heq]), fun heq => hd (by simp [heq])⟩
  have hsigns : (Expr.number i s).signText = sign ∧ (Expr.number i s).isSigned = !sign.isEmpty := by
    simp only [List.mem_cons, List.not_mem_nil, or_false] at hsign
    rw [Expr.signText, Expr.isSigned, hhead]
    rcases hsign with rfl | rfl | rfl
    · simp [hds, hfirst]
    · simp
    · simp
  refine .of_operand (s := false) ?_ (fun _ => rfl) ?_ ?_ ?_ ⟨d, ds, hds, hd⟩
    (Expr.mixes_leaf rfl rfl) hw (hphrase.of_unary (by decide) (by decide))
  · exact Nat.le_of_ble_eq_true rfl
  · rw [hsigns.1, ← htext]
    rfl
  · have hchars : ∀ sign ∈ [[], ['+'], ['-']], ∀ c ∈ sign, c ∈ signChars := by simp [signChars]
    rw [hsigns.1]
    exact hchars sign hsign
  · have hread : ∀ sign ∈ [[], ['+'], ['-']],
        ((lexemes (munch sign)).head?.map isSign).getD false = !sign.isEmpty := by
      decide
    rw [hsigns.1, hsigns.2]
    exact hread sign hsign

theorem signText_of_target (hlevel : Level.call ≤ e.level) (hwrapped : e.isWrappedTarget = false) :
    e.signText = [] := by
  cases e with
  | unary => simp [Expr.level, Level.call, Level.unary] at hlevel
  | number => cases hwrapped
  | _ => rfl

theorem unsigned_asTarget (h : Traced A depth e) :
    Unsigned (e.asTarget (e.render depth)).toList := by
  unfold Expr.asTarget Expr.fit
  split
  · exact Legible.unsigned_parenthesized _
  · rename_i hwrapped
    split
    · exact Legible.unsigned_parenthesized _
    · rename_i hlow
      have hlevel := Nat.not_lt.1 hlow
      obtain ⟨body, _, _, htext, -, hunsigned, -⟩ := h.operand (Nat.le_trans (by decide) hlevel)
      rw [htext, signText_of_target hlevel (by simpa using hwrapped)]
      exact hunsigned

/-- A link of a chain, behind its target. -/
theorem of_chain {rest : List Char} (hlevel : e.level = Level.call) (hsigned : e.isSigned = false)
    (hsigns : e.signText = []) (ho : Traced A depth o)
    (htext : (e.render depth).toList = (o.asTarget (o.render depth)).toList ++ rest)
    (hmixes : e.Mixes ↔ p) (hw : Written A tight ((o.asTarget (o.render depth)).toList ++ rest) ps)
    (h : Phrase Level.call false p (lexemes ps)) : Traced A depth e := by
  rw [← htext] at hw
  refine .of_target (Nat.le_of_eq hlevel.symm) hsigned hsigns ?_ hmixes hw h
  rw [htext]
  exact ho.unsigned_asTarget.append rest

theorem prop {id : Ident} {optional : Bool} (h : Traced A depth o) (hword : A.IsWord id.name) :
    Traced A depth (.prop i f o (some id) optional) := by
  obtain ⟨ps, hw, hphrase⟩ := h.asTarget
  have hlink (d : String) (hd : d ∈ [".", "?."])
      (hbegins : Begins tight (d.toList ++ id.name.toList) (· ∈ tight))
      (htext : ((Expr.prop i f o (some id) optional).render depth).toList =
        (o.asTarget (o.render depth)).toList ++ (d.toList ++ id.name.toList)) :
      Traced A depth (.prop i f o (some id) optional) := by
    refine .of_chain rfl rfl rfl h htext Expr.mixes_prop
      (hw.append hbegins (Printed.written_member hd hword)) ?_
    simpa using hphrase.member hd (by decide) id.name
  cases optional with
  | true => exact hlink "?." (by simp) (.cons (by decide) _) (by simp [Expr.render_prop, nameText])
  | false => exact hlink "." (by simp) (.cons (by decide) _) (by simp [Expr.render_prop, nameText])

theorem elem (h : Traced A depth o) (hx : Traced A depth x) : Traced A depth (.elem i f o x) := by
  obtain ⟨ps, hw, hphrase⟩ := h.asTarget
  obtain ⟨qs, hw', hphrase'⟩ := hx.whole
  have hindex : Written A tight ('[' :: ((x.render depth).toList ++ [']'])) _ :=
    hw'.enclosed (o := "[") (c := "]") (by simp)
  refine .of_chain rfl rfl rfl h (by simp [Expr.render_elem]) Expr.mixes_elem
    (hw.append (.cons (by decide) _) hindex) ?_
  rw [lexemes_append, lexemes_enclosed]
  exact hphrase.bracket (by decide) (by decide) (by decide) hphrase'.inside

/-- The elements of a list, between brackets. -/
theorem elements {es : List Expr} (h : ∀ e ∈ es, TracedElement A depth e) : ∃ ps,
    Written A loose (commaSeparated (Expr.renders depth es)).toList ps ∧
      Inside (∃ e ∈ es, e.Mixes) (lexemes ps) := by
  refine Written.separated (P := fun a t => ∃ l s, Phrase l s t.Mixes a)
    (Q := fun a ts => Inside (∃ t ∈ ts, t.Mixes) a) ?_ ?_ ?_ ?_
  · simpa using Inside.nil
  · rintro a t ⟨_, _, hphrase⟩
    simpa using hphrase.inside
  · rintro a t b ts ⟨_, _, hphrase⟩ hinside
    simpa using Inside.cons hphrase hinside
  · induction es with
    | nil => exact .nil
    | cons e es ih => exact .cons (h e (by simp)) (ih fun x hx => h x (by simp [hx]))

/-- The arguments of a call, with their parentheses. -/
theorem arguments (has : ∀ e ∈ as, TracedElement A depth e) : ∃ ps xs,
    Written A tight (ExtensionLowering.parenthesized
      (commaSeparated (Expr.renders depth as))).toList ps ∧
      lexemes ps = .punct "(" :: xs ++ [.punct ")"] ∧ Inside (∃ e ∈ as, e.Mixes) xs := by
  obtain ⟨ps, hw, hinside⟩ := elements has
  have hlist : Written A tight ("(".toList ++
      ((commaSeparated (Expr.renders depth as)).toList ++ ")".toList)) _ :=
    hw.enclosed (by simp)
  exact ⟨_, lexemes ps, by simpa [ExtensionLowering.parenthesized] using hlist,
    lexemes_enclosed ps "(" ")", hinside⟩

theorem call {f : CallFacts} (h : Traced A depth o)
    (has : ∀ e ∈ as, TracedElement A depth e) : Traced A depth (.call i f o [] as) := by
  obtain ⟨ps, hw, hphrase⟩ := h.asTarget
  obtain ⟨qs, xs, hw', hlexemes, hinside⟩ := arguments has
  refine .of_chain rfl rfl rfl h ?_ Expr.mixes_call (hw.append ?_ hw') ?_
  · simp [Expr.render_call, TypeRef.renders, angled]
  · simpa [ExtensionLowering.parenthesized] using Begins.cons (by decide) _
  · rw [lexemes_append, hlexemes]
    exact hphrase.bracket (by decide) (by decide) (by decide) hinside

theorem new (h : Traced A depth o)
    (has : ∀ e ∈ as, TracedElement A depth e) : Traced A depth (.new i o [] as) := by
  obtain ⟨ps, hw, hphrase⟩ := h.asTarget
  obtain ⟨qs, xs, hw', hlexemes, hinside⟩ := arguments has
  have hcall : Written A tight _ (ps ++ qs) := hw.append
    (by simpa [ExtensionLowering.parenthesized] using Begins.cons (by decide) _) hw'
  have hnew := Written.keyword (s := "new") (isWord_keyword A (by simp)) hcall
  have hbracket := hphrase.bracket (o := .punct "(") (c := .punct ")") (by decide) (by decide)
    (by decide) hinside
  have htext : (Expr.render depth (.new i o [] as)).toList = "new".toList ++ ' ' ::
      ((o.asTarget (o.render depth)).toList ++
        (ExtensionLowering.parenthesized (commaSeparated (Expr.renders depth as))).toList) := by
    simp [Expr.render_new, TypeRef.renders, angled]
  rw [← htext] at hnew
  refine .of_target (Nat.le_refl _) rfl rfl ?_ Expr.mixes_new hnew ?_
  · rw [htext]
    exact .cons (by decide) _
  · have hprefix := hbracket.prefixed (x := .word "new") (by decide) (by decide)
    simpa [hlexemes] using hprefix.of_unary (m := Level.call) (Nat.le_refl _) (by decide)

theorem array {es : List Expr} (hes : ∀ e ∈ es, TracedElement A depth e) :
    Traced A depth (.array i es) := by
  obtain ⟨ps, hw, hinside⟩ := elements hes
  have hlist : Written A tight ("[".toList ++
      ((commaSeparated (Expr.renders depth es)).toList ++ "]".toList)) _ :=
    hw.enclosed (by simp)
  have htext : (Expr.render depth (.array i es)).toList =
      "[".toList ++ ((commaSeparated (Expr.renders depth es)).toList ++ "]".toList) := by
    simp [Expr.render_array]
  rw [← htext] at hlist
  refine .of_primary rfl rfl rfl ?_ Expr.mixes_array hlist ?_
  · rw [htext]
    exact .cons (by decide) _
  · rw [lexemes_enclosed]
    exact .enclosed (by decide) (by decide) hinside

theorem signText_of_loose (hlevel : e.level < Level.unary) : e.signText = [] := by
  cases e with
  | unary => simp [Expr.level] at hlevel
  | number => simp [Expr.level, Level.primary, Level.unary] at hlevel
  | _ => rfl

/-- The text of an operand of a prefix operator, behind its signs. -/
theorem asOperand (h : Traced A depth e) : ∃ body ps s,
    (e.fit Level.unary (e.render depth)).toList = e.signText ++ body ∧
    (∀ c ∈ e.signText, c ∈ signChars) ∧ Unsigned body ∧ Written A loose body ps ∧
    Phrase Level.unary s e.Mixes (lexemes ps) := by
  unfold Expr.fit
  split
  · rename_i hlow
    obtain ⟨ps, hw, hphrase⟩ := h.parenthesized
    rw [signText_of_loose hlow]
    exact ⟨_, ps, false, rfl, by simp, Legible.unsigned_parenthesized _, hw.mono (by decide),
      hphrase.of_unary (by decide) (by decide)⟩
  · rename_i hhigh
    exact h.operand (Nat.not_lt.1 hhigh)

theorem unary {op : String} (hop : op ∈ prefixOperators) (h : Traced A depth e)
    (hinner : ∀ j inner x, e = .unary j inner x → inner ∈ prefixOperators) :
    Traced A depth (.unary i op e) := by
  obtain ⟨body, ps, s, htext, hsigns, hunsigned, hw, hphrase⟩ := h.asOperand
  refine .of_operand (Nat.le_refl _) ?_ ?_ ?_ ?_ hunsigned Expr.mixes_unary hw hphrase
  · exact fun hhigh => absurd hhigh (by simp [Expr.level, Level.call, Level.unary])
  · simp [Expr.render_unary, htext, Expr.signText]
  · have hchars : ∀ op ∈ prefixOperators, op.toList.all (· ∈ signChars) := by decide
    have hgap : ∀ c ∈ (unaryGap op e).toList, c ∈ signChars := by
      unfold unaryGap
      split
      · split <;> simp [signChars]
      · simp
    have hop : ∀ c ∈ op.toList, c ∈ signChars := by
      simpa using List.all_eq_true.1 (hchars op hop)
    simpa [Expr.signText, or_imp, forall_and] using ⟨hop, hgap, hsigns⟩
  · rw [Expr.signText, isSign_munch hop, Expr.isSigned, joins_eq hop hinner]
    rfl

theorem void (h : Traced A depth e) : Traced A depth (.void i e) := by
  obtain ⟨l, s, ps, hw, hphrase, hlevel, -⟩ := h.fit Level.unary (by decide)
  have hvoid := Written.keyword (s := "void") (isWord_keyword A (by simp)) hw
  refine .of_operand (s := true) (Nat.le_refl _) ?_ ?_ (by simp [Expr.signText]) rfl ?_
    Expr.mixes_void hvoid ?_
  · exact fun hhigh => absurd hhigh (by simp [Expr.level, Level.call, Level.unary])
  · simp [Expr.render_void, Expr.signText]
  · exact .cons (by decide) _
  · exact hphrase.prefixed (x := .word "void") (by decide) hlevel

theorem cond {c t : Expr} (hc : Traced A depth c) (ht : Traced A depth t)
    (he : Traced A depth e) : Traced A depth (.cond i c t e) := by
  obtain ⟨_, _, ps, hw, hphrase, -⟩ := hc.fit (Level.conditional + 1) (by decide)
  obtain ⟨_, _, qs, hw', hphrase', -⟩ := ht.fit Level.assignment (by decide)
  obtain ⟨_, _, rs, hw'', hphrase'', -⟩ := he.fit Level.assignment (by decide)
  have hwritten := hw.append (.cons (by decide) _) (.gap (.spaced (s := "?") (by decide) (by decide)
    (hw'.append (.cons (by decide) _) (.gap (.free (s := ":") (by simp) (.gap hw''))))))
  refine .of_loose (l := conditional.rank) rfl (by decide) Expr.mixes_cond
    ⟨_, by simpa [Expr.render_cond] using hwritten, ?_⟩
  simpa using hphrase.cond hphrase' hphrase''

/-- What the levels of the printer settle for the operands of an operator. -/
theorem operation_levels : ∀ op ∈ binaryOperators, ∃ o ∈ operations, op ∈ o.ops ∧
    o.result.rank = Level.ofOperator op ∧
    (o.result.rank ≤ Expr.leftLevel op ∧ Expr.leftLevel op ≤ Level.unary) ∧
    (o.result.rank ≤ Expr.rightLevel op ∧ Expr.rightLevel op ≤ Level.unary) ∧
    (o.result.rank = exponent.rank ↔ op = "**") ∧ (o.result.rank = coalesce.rank ↔ op = "??") := by
  decide +kernel

theorem binary {l r : Expr} {op : String} (hop : op ∈ binaryOperators) (hl : Traced A depth l)
    (hr : Traced A depth r) : Traced A depth (.binary i f l op r) := by
  obtain ⟨o, ho, hmem, hrank, ⟨hleft, hleft'⟩, ⟨hright, hright'⟩, hpower, hcoalesce⟩ :=
    operation_levels op hop
  obtain ⟨l₁, s₁, ps, hw, hphrase, hl₁, hsigned, hlogical⟩ :=
    hl.fit _ (Nat.le_trans hleft' (by decide))
  obtain ⟨l₂, s₂, qs, hw', hphrase', hl₂, -, hlogical'⟩ :=
    hr.fit _ (Nat.le_trans hright' (by decide))
  obtain ⟨rs, hrs, hlexemes⟩ := Printed.written_operator ho hmem hw'
  have hbinary := Phrase.binary ho hmem hphrase hphrase' (Nat.le_trans hleft hl₁)
    (fun heq => by
      obtain rfl := hpower.1 heq
      exact hl₁) (Nat.le_trans hright hl₂)
    (fun heq => by
      obtain rfl := hcoalesce.1 heq
      exact hl₂)
  rw [hpower, hcoalesce, hrank] at hbinary
  have hmixture : (Expr.binary i f l op r).isMixture ↔
      op = "**" ∧ s₁ ∨ op = "??" ∧ (IsLogicalRank l₁ ∨ IsLogicalRank l₂) := by
    simp only [Expr.isMixture, Bool.or_eq_true, Bool.and_eq_true, decide_eq_true_eq]
    rw [hsigned hleft']
    refine or_congr .rfl (and_congr_right ?_)
    rintro rfl
    rw [hlogical (by decide), hlogical' (by decide)]
  have hmixes : (Expr.binary i f l op r).Mixes ↔ l.Mixes ∨ r.Mixes ∨
      op = "**" ∧ s₁ ∨ op = "??" ∧ (IsLogicalRank l₁ ∨ IsLogicalRank l₂) := by
    rw [Expr.mixes_binary, hmixture, or_comm, or_assoc]
  refine .of_loose rfl (ofOperator_lt_unary op) hmixes ⟨ps ++ rs, ?_, ?_⟩
  · rw [Expr.render_binary, String.append_assoc, String.toList_append, String.toList_append]
    exact hw.append (Printed.begins_operator op _) hrs
  · rw [lexemes_append, hlexemes]
    exact hbinary

theorem arrow {ps : List Param} (hps : ∀ p ∈ ps, PlainParam A p) (h : Traced A depth e)
    (hobject : ∀ text, resultText e text = e.fit Level.assignment text) :
    Traced A depth (.arrow i ps .missing e) := by
  obtain ⟨_, _, qs, hw, hphrase, -⟩ := h.fit Level.assignment (by decide)
  obtain ⟨ss, hss, htexts, -⟩ := Legible.params depth hps
  obtain ⟨rs, hw', hnames⟩ := Printed.written_names fun s hs => (hss s hs).1
  have hwritten := Written.free (s := "(") (by simp) (hw'.append (.cons (by decide) _) (.free
    (s := ")") (by simp) (.gap (.free (s := "=>") (by simp) (.gap hw)))))
  have htext : ((Expr.arrow i ps .missing e).render depth).toList = "(".toList ++
      ((commaSeparated ss).toList ++ (")".toList ++ ' ' :: ("=>".toList ++ ' ' ::
        (e.fit Level.assignment (e.render depth)).toList))) := by
    simp [Expr.render_arrow, htexts, hobject, ExtensionLowering.parenthesized]
  refine .of_loose (l := assignment.rank) rfl (by decide) (mixes_arrow hps)
    ⟨_, htext ▸ hwritten, ?_⟩
  simpa [hnames] using Phrase.arrow (.params fun s hs => (hss s hs).2) hphrase

end Traced

theorem TracedElement.formed (h : Traced A depth e) : TracedElement A depth e := by
  obtain ⟨l, s, ps, hw, hphrase, -⟩ := h.fit Level.spread (by decide)
  exact ⟨ps, hw, l, s, hphrase⟩

theorem TracedElement.spread {i : Info} (h : Traced A depth e) :
    TracedElement A depth (.spread i e) := by
  obtain ⟨l, s, ps, hw, hphrase, -⟩ := h.fit Level.assignment (by decide)
  have hwritten := Written.free (s := "...") (by simp) hw
  exact ⟨_, by simpa [Expr.fit, Expr.level, Expr.render_spread] using hwritten, _, _,
    hphrase.spread.congr Expr.mixes_spread.symm⟩

mutual

theorem Formed.traced (depth : Nat) {e : Expr} : Formed A e → Traced A depth e
  | .ident hword hname => .ident hword hname
  | .number hs => .number hs
  | .string => .string
  | .bool => .bool
  | .this => .this
  | .prop ho hword => (ho.traced depth).prop hword
  | .elem ho hx => (ho.traced depth).elem (hx.traced depth)
  | .call hc has => (hc.traced depth).call fun e he => (has e he).traced depth
  | .new hc has => (hc.traced depth).new fun e he => (has e he).traced depth
  | .binary hop hl hr => (hl.traced depth).binary hop (hr.traced depth)
  | .unary hop he => (he.traced depth).unary hop fun j inner x heq => by
      subst heq
      cases he with
      | unary hinner _ => exact hinner
  | .cond hc ht he => (hc.traced depth).cond (ht.traced depth) (he.traced depth)
  | .paren he => (he.traced depth).paren
  | .void he => (he.traced depth).void
  | .array hes => .array fun e he => (hes e he).traced depth
  | .arrow hps he => (he.traced depth).arrow hps fun text => by
      cases he <;> rfl

theorem FormedElement.traced (depth : Nat) {e : Expr} : FormedElement A e → TracedElement A depth e
  | .formed he => .formed (he.traced depth)
  | .spread he => .spread (he.traced depth)

end

/-! ## Printed expressions -/

attribute [local simp] Expr.isComplete

mutual

theorem Formed.isComplete {e : Expr} : Formed A e → e.isComplete
  | .ident .. | .number _ | .string | .bool | .this => rfl
  | .prop ho _ => by simp [ho.isComplete]
  | .elem ho hx | .binary _ ho hx => by simp [ho.isComplete, hx.isComplete]
  | .call hc has | .new hc has => by
    simp [hc.isComplete, TypeRef.allComplete,
      allComplete_of_forall fun e he => (has e he).isComplete]
  | .unary _ he | .paren he | .void he => by simp [he.isComplete]
  | .cond hc ht he => by simp [hc.isComplete, ht.isComplete, he.isComplete]
  | .array hes => by simp [allComplete_of_forall fun e he => (hes e he).isComplete]
  | .arrow hps he => by simp [allComplete_params hps, Block.isMissing, he.isComplete]

theorem FormedElement.isComplete {e : Expr} : FormedElement A e → e.isComplete
  | .formed he => he.isComplete
  | .spread he => by simp [he.isComplete]

end

theorem Formed.print (h : Formed A e) : (Node.expr e).print? = some (e.render 0) := by
  have hmissing : e.isMissing = false := by cases h <;> rfl
  simp [Node.print?, Node.isComplete, Node.render, hmissing, h.isComplete]

/-- The text of an expression is read as lexemes that break a rule if operators are mixed. -/
theorem Formed.lexes (h : Formed A e) (depth : Nat) :
    ∃ xs, Lexes A (e.render depth).toList xs ∧ (clashes [{}] xs ↔ e.Mixes) := by
  obtain ⟨ps, hw, hphrase⟩ := (h.traced depth).whole
  exact ⟨lexemes ps, hw.lexes, hphrase.inside.clashes_iff⟩

/-- An expression with any of the operators that the printer knows is printed, and its text breaks a
rule about operators side by side if and only if an operand in the tree needs parentheses whatever
its level. Then the text cannot be read. -/
theorem mixed_operators_iff {e : Expr} (h : Formed A e) :
    (Node.expr e).print? = some (e.render 0) ∧ ∀ depth, ∃ xs,
      Lexes A (e.render depth).toList xs ∧ (clashes [{}] xs ↔ e.Mixes) ∧
      (e.Mixes → ∀ t, ¬ Reads A (e.render depth) t) := by
  refine ⟨h.print, fun depth => ?_⟩
  obtain ⟨xs, hxs, hclashes⟩ := h.lexes depth
  exact ⟨xs, hxs, hclashes, fun hmixes => not_reads_of_clashes hxs (hclashes.2 hmixes)⟩

/-! ### Operators that may stand side by side, and some that may not -/

def letter (s : String) : Expr :=
  .ident { name := s }

theorem letter_formed {s : String} (hs : s ∈ ["a", "f", "g"]) : Formed .ascii (letter s) :=
  .ident (isWord_letter s hs).1 (isWord_letter s hs).2

/-- An updated base, a sign on the right of a power and a logical operand in parentheses. -/
def guarded : Expr :=
  .binary {} {} (.binary {} {} (.unary {} "++" (letter "a")) "**" (.unary {} "-" (letter "f"))) "??"
    (.paren {} (.binary {} {} (letter "a") "||" (letter "g")))

theorem guarded_formed : Formed .ascii guarded := by
  have hpower : Formed .ascii
      (.binary {} {} (.unary {} "++" (letter "a")) "**" (.unary {} "-" (letter "f"))) :=
    .binary (by decide) (.unary (by decide) (letter_formed (by simp)))
      (.unary (by decide) (letter_formed (by simp)))
  exact .binary (by decide) hpower
    (.paren (.binary (by decide) (letter_formed (by simp)) (letter_formed (by simp))))

theorem mixed_operators_iff_guarded : Formed .ascii guarded ∧ ¬ guarded.Mixes ∧
    (Node.expr guarded).print? = some "++a ** -f ?? (a || g)" ∧
    ∃ xs, Lexes .ascii "++a ** -f ?? (a || g)".toList xs ∧ clashes [{}] xs = false := by
  have htext : guarded.render 0 = "++a ** -f ?? (a || g)" := by decide +kernel
  have hletter (s : String) : (letter s).Mixes ↔ False := Expr.mixes_leaf rfl rfl
  have hmixes : ¬ guarded.Mixes := by
    simp [guarded, Expr.mixes_binary, Expr.mixes_unary, Expr.mixes_paren, hletter, Expr.isMixture,
      Expr.isSigned, isLogical]
  obtain ⟨hprint, hreads⟩ := mixed_operators_iff guarded_formed
  obtain ⟨xs, hxs, hclashes, -⟩ := hreads 0
  rw [htext] at hprint hxs
  exact ⟨guarded_formed, hmixes, hprint, xs, hxs, by simpa [hmixes] using hclashes⟩

/-- The text of the expression breaks a rule about operators side by side, and cannot be read. -/
def PrintsUnreadable (A : Alphabet) (e : Expr) (text : String) : Prop :=
  (Node.expr e).print? = some text ∧ (∃ xs, Lexes A text.toList xs ∧ clashes [{}] xs) ∧
    ∀ t, ¬ Reads A text t

theorem PrintsUnreadable.of_isMixture {text : String} (h : Formed A e) (hroot : e.isMixture)
    (htext : e.render 0 = text) : PrintsUnreadable A e text := by
  obtain ⟨xs, hxs, hclashes⟩ := h.lexes 0
  have hbreaks : clashes [{}] xs := hclashes.2 (Expr.mixes_of_isMixture hroot)
  subst htext
  exact ⟨h.print, ⟨xs, hxs, hbreaks⟩, not_reads_of_clashes hxs hbreaks⟩

/-- Powers of a negated name and of a number with a sign, and a logical operand of the coalescing
operator, are printed without parentheses. -/
theorem mixed_operands_unparenthesized :
    PrintsUnreadable .ascii
      (.binary {} {} (.unary {} "-" (letter "a")) "**" (letter "f")) "-a ** f" ∧
    PrintsUnreadable .ascii (.binary {} {} (.number {} "-1") "**" (letter "a")) "-1 ** a" ∧
    PrintsUnreadable .ascii
      (.binary {} {} (.binary {} {} (letter "a") "||" (letter "f")) "??" (letter "g"))
      "a || f ?? g" := by
  have hone : Alphabet.ascii.IsFigure "-1".toList :=
    ⟨['-'], by simp, "1", rfl, .inl (.decimal (.digits (.one rfl) (by decide)) .nil)⟩
  have ha : Formed .ascii (letter "a") := letter_formed (by simp)
  have hf : Formed .ascii (letter "f") := letter_formed (by simp)
  have hg : Formed .ascii (letter "g") := letter_formed (by simp)
  refine ⟨.of_isMixture ?_ (by decide) (by decide +kernel),
    .of_isMixture ?_ (by decide) (by decide +kernel),
    .of_isMixture ?_ (by decide) (by decide +kernel)⟩
  · exact .binary (by decide) (.unary (by decide) ha) hf
  · exact .binary (by decide) (.number hone) ha
  · exact .binary (by decide) (.binary (by decide) ha hf) hg

end Grammar

end ExtensionLowering
