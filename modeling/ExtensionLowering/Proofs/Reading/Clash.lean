import ExtensionLowering.Proofs.Reading.Unambiguous
/-!
# Operators that may not stand side by side

Two rules of the grammar are not about how tightly operators bind. The base of a power may not begin
with a sign, and a coalescing operator may not share its operands with a logical one, unless there
are parentheses. Lexemes that break such a rule are found from left to right, with a frame for each
pair of brackets that is open.

Each construct is a phrase: what it leaves in a frame depends on its level only. So no expression
of the grammar breaks the rules.

## Main definitions

* `Frame`, `Frame.next`, `clashes`: the search for operators that break a rule.
* `Phrase`: lexemes that are passed over like an expression of some level.

## Main statements

* `Derives.not_clashes`: expressions of the grammar break no rule.
-/
namespace ExtensionLowering.Grammar

open Category

variable {l : Nat} {xs : List Lexeme}

/-- What is expected: an operand, an operand behind prefix operators, what follows an operand, or
the name of a member. -/
inductive Phase where
  | start
  | signs
  | done
  | member
  deriving Repr, DecidableEq

/-- The short-circuit operators that the operand at hand belongs to. -/
inductive Chain where
  | plain
  | coalescing
  | logical
  deriving Repr, DecidableEq

/-- The chain that an expression of the level leaves behind. -/
def Chain.behind (c : Chain) (l : Nat) : Chain :=
  if l = coalesce.rank then .coalescing else if l < bitOr.rank then .logical else c

/-- What is known inside a pair of brackets: `signed` tells whether the operand at hand begins with
a sign. -/
structure Frame where
  phase : Phase := .start
  signed : Bool := false
  chain : Chain := .plain
  deriving Repr, DecidableEq

/-- The lexemes that stand in front of an operand. -/
def prefixes : List Lexeme :=
  [.punct "!", .punct "~", .punct "+", .punct "-", .punct "++", .punct "--", .word "void",
    .word "typeof", .word "delete", .word "new"]

/-- Whether an operand that begins with the prefix may not be the base of a power. -/
def isSign (x : Lexeme) : Bool :=
  x ∉ [.punct "++", .punct "--", .word "new"]

namespace Frame

/-- An operand has been read. -/
def read (f : Frame) : Frame :=
  { f with phase := .done }

/-- A prefix has been read. The first one decides whether the operand begins with a sign. -/
def sign (f : Frame) (x : Lexeme) : Frame :=
  { f with phase := .signs, signed := f.signed || f.phase = .start && isSign x }

/-- A binary operator of the rank has been read, unless it breaks a rule. -/
def combine (f : Frame) (rank : Nat) : Option Frame :=
  if rank < coalesce.rank then some {}
  else if rank = coalesce.rank then
    if f.chain = .logical then none else some { chain := .coalescing }
  else if rank < bitOr.rank then
    if f.chain = .coalescing then none else some { chain := .logical }
  else if rank = exponent.rank ∧ f.signed then none
  else some { chain := f.chain }

/-- What is known behind a lexeme that is no bracket. -/
def next (f : Frame) (x : Lexeme) : Option Frame :=
  match f.phase with
  | .start | .signs =>
    if x ∈ prefixes then some (f.sign x)
    else if x = .punct "..." then some {}
    else some f.read
  | .done =>
    match operator? x with
    | some (rank, _) => f.combine rank
    | none =>
      if x ∈ [.punct ".", .punct "?."] then some { f with phase := .member }
      else if x ∈ [.punct "?", .punct ":", .punct "=>"] then some {}
      else some f
  | .member => some f.read

end Frame

def openings : List Lexeme :=
  [.punct "(", .punct "["]

/-- Whether operators break a rule, with a frame for each pair of brackets that is open. -/
def clashes : List Frame → List Lexeme → Bool
  | f :: fs, x :: xs =>
    if x ∈ openings then clashes ({} :: f.read :: fs) xs
    else if x ∈ closers then clashes fs xs
    else (f.next x).elim true fun g => clashes (g :: fs) xs
  | _, _ => false

/-! ## Passing over lexemes -/

/-- From the frame `f` the lexemes break a rule if and only if `clash` holds, and if they do not
they lead to a frame with the property, whatever follows and whatever is around them. -/
def Runs (f : Frame) (xs : List Lexeme) (clash : Prop) (post : Frame → Prop) : Prop :=
  ∃ r : Option Frame, (r = none ↔ clash) ∧ (∀ g ∈ r, post g) ∧
    ∀ fs ys, clashes (f :: fs) (xs ++ ys) = r.elim true fun g => clashes (g :: fs) ys

namespace Runs

variable {f g : Frame} {x : Lexeme} {xs ys : List Lexeme} {p p' : Prop} {post post' : Frame → Prop}

theorem nil (h : post f) : Runs f [] False post :=
  ⟨some f, by simp, by simpa using h, fun _ _ => rfl⟩

theorem cons (ho : x ∉ openings) (hc : x ∉ closers) (hnext : f.next x = some g)
    (h : Runs g xs p post) : Runs f (x :: xs) p post := by
  obtain ⟨r, hnone, hsome, hruns⟩ := h
  refine ⟨r, hnone, hsome, fun fs ys => ?_⟩
  rw [List.cons_append, clashes, if_neg ho, if_neg hc, hnext]
  exact hruns fs ys

theorem clash (ho : x ∉ openings) (hc : x ∉ closers) (hnext : f.next x = none) (hp : p)
    (xs : List Lexeme) : Runs f (x :: xs) p post := by
  refine ⟨none, by simp [hp], nofun, fun fs ys => ?_⟩
  rw [List.cons_append, clashes, if_neg ho, if_neg hc, hnext]
  rfl

theorem imp (h : Runs f xs p post) (hp : p ↔ p') (hpost : ∀ g, ¬ p → post g → post' g) :
    Runs f xs p' post' := by
  obtain ⟨r, hnone, hsome, hruns⟩ := h
  refine ⟨r, hnone.trans hp, fun g hg => hpost g ?_ (hsome g hg), hruns⟩
  simpa [← hnone] using Option.ne_none_iff_exists'.2 ⟨g, hg⟩

theorem append (h : Runs f xs p post) (h' : ∀ g, post g → Runs g ys p' post') :
    Runs f (xs ++ ys) (p ∨ p') post' := by
  obtain ⟨r, hnone, hsome, hruns⟩ := h
  cases r with
  | none =>
    refine ⟨none, by simp [← hnone], nofun, fun fs zs => ?_⟩
    rw [List.append_assoc, hruns]
    rfl
  | some g =>
    obtain ⟨r', hnone', hsome', hruns'⟩ := h' g (hsome g rfl)
    have hp : ¬ p := by simp [← hnone]
    refine ⟨r', by simpa [hp] using hnone', hsome', fun fs zs => ?_⟩
    rw [List.append_assoc, hruns, Option.elim_some, hruns']

/-- Brackets and what is between them are passed over like an operand. -/
theorem enclosed {o c : Lexeme} (ho : o ∈ openings) (hc : c ∈ closers) (h : Runs {} xs p post) :
    Runs f (o :: xs ++ [c]) p (· = f.read) := by
  have hclosers : ∀ c ∈ closers, c ∉ openings := by decide
  obtain ⟨r, hnone, -, hruns⟩ := h
  refine ⟨r.map fun _ => f.read, by simpa using hnone, fun g hg => ?_, fun fs ys => ?_⟩
  · obtain ⟨-, -, rfl⟩ := Option.map_eq_some_iff.1 hg
    rfl
  · rw [List.append_assoc, List.cons_append, clashes, if_pos ho, hruns (f.read :: fs) ([c] ++ ys)]
    cases r with
    | none => rfl
    | some g =>
      rw [Option.elim_some, List.singleton_append, clashes, if_neg (hclosers c hc), if_pos hc]
      rfl

end Runs

/-! ## Phrases -/

namespace Frame

/-- An expression of the level may follow. -/
structure Admits (f : Frame) (l : Nat) : Prop where
  phase : f.phase = .start ∨ f.phase = .signs
  unsigned : f.phase = .start → f.signed = false
  start : l < unary.rank → f.phase = .start
  plain : l < logicalOr.rank → f.chain = .plain

/-- The frame `g` is left behind an expression of the level, which begins with a sign or not. -/
structure Leaves (f : Frame) (l : Nat) (signed : Bool) (g : Frame) : Prop where
  phase : g.phase = .done
  chain : coalesce.rank ≤ l → g.chain = f.chain.behind l
  signed : unary.rank ≤ l → g.signed = (f.signed || f.phase = .start && signed)

end Frame

/-- The levels of logical operators. -/
def IsLogicalRank (l : Nat) : Prop :=
  l = logicalOr.rank ∨ l = logicalAnd.rank

instance : DecidablePred IsLogicalRank :=
  fun _ => inferInstanceAs (Decidable (_ ∨ _))

/-- The lexemes are passed over like an expression of the level, which begins with a sign or not.
They break a rule if and only if `mixed` holds or the expression is a logical one between coalescing
operators. -/
def Phrase (l : Nat) (signed : Bool) (mixed : Prop) (xs : List Lexeme) : Prop :=
  ∀ f : Frame, f.Admits l →
    Runs f xs (mixed ∨ f.chain = .coalescing ∧ IsLogicalRank l) (f.Leaves l signed)

/-- The lexemes between brackets break a rule if and only if `mixed` holds. -/
def Inside (mixed : Prop) (xs : List Lexeme) : Prop :=
  Runs {} xs mixed fun _ => True

theorem Chain.behind_of_bitOr (c : Chain) (hl : bitOr.rank ≤ l) : c.behind l = c := by
  have hcoalesce : l ≠ coalesce.rank := by
    rintro rfl
    exact absurd hl (by decide)
  rw [Chain.behind, if_neg hcoalesce, if_neg (Nat.not_lt.2 hl)]

theorem Chain.behind_of_logical (c : Chain) (hl : IsLogicalRank l) : c.behind l = .logical := by
  rcases hl with rfl | rfl <;> rfl

theorem not_logical_of_bitOr (hl : bitOr.rank ≤ l) : ¬ IsLogicalRank l := by
  rintro (rfl | rfl) <;> exact absurd hl (by decide)

theorem Chain.behind_eq_logical_iff {c : Chain} (hl : coalesce.rank ≤ l)
    (hc : c ≠ .logical) : c.behind l = .logical ↔ IsLogicalRank l := by
  by_cases hbitOr : bitOr.rank ≤ l
  · simp [Chain.behind_of_bitOr c hbitOr, hc, not_logical_of_bitOr hbitOr]
  · have hranks : l = 4 ∨ l = 5 ∨ l = 6 := by
      simp only [Category.rank] at hl hbitOr
      omega
    rcases hranks with rfl | rfl | rfl <;> simp [Chain.behind, IsLogicalRank, Category.rank]

theorem logical_or_bitOr_le (hl : logicalOr.rank ≤ l) : IsLogicalRank l ∨ bitOr.rank ≤ l := by
  simp only [IsLogicalRank, Category.rank] at hl ⊢
  omega

theorem bitOr_le_of_unary (hl : unary.rank ≤ l) : bitOr.rank ≤ l :=
  Nat.le_trans (by decide) hl

namespace Frame

variable {f g : Frame} {l l' : Nat} {s : Bool} {x : Lexeme}
variable {n : Nat}

theorem admits_empty (l : Nat) : ({} : Frame).Admits l where
  phase := .inl rfl
  unsigned _ := rfl
  start _ := rfl
  plain _ := rfl

namespace Admits

/-- Where a loose expression may stand nothing is known yet. -/
theorem eq_empty (h : f.Admits l) (hl : l < logicalOr.rank) : f = {} := by
  have hstart := h.start (Nat.lt_trans hl (by decide))
  have hsigned := h.unsigned hstart
  have hplain := h.plain hl
  cases f
  simp_all

theorem mono (h : f.Admits l) (hl : l ≤ l') : f.Admits l' where
  phase := h.phase
  unsigned := h.unsigned
  start hlow := h.start (Nat.lt_of_le_of_lt hl hlow)
  plain hlow := h.plain (Nat.lt_of_le_of_lt hl hlow)

theorem of_unary (h : f.Admits l) (hl : unary.rank ≤ l') : f.Admits l' where
  phase := h.phase
  unsigned := h.unsigned
  start hlow := absurd hl (Nat.not_le.2 hlow)
  plain hlow := absurd hl (Nat.not_le.2 (Nat.lt_trans hlow (by decide)))

theorem next (h : f.Admits l) : f.next x =
    if x ∈ prefixes then some (f.sign x)
    else if x = .punct "..." then some {}
    else some f.read := by
  rcases h.phase with hphase | hphase <;> simp [Frame.next, hphase]

end Admits

theorem admits_sign (hl : unary.rank ≤ l) (f : Frame) (x : Lexeme) : (f.sign x).Admits l where
  phase := .inr rfl
  unsigned := nofun
  start hlow := absurd hl (Nat.not_le.2 hlow)
  plain hlow := absurd hl (Nat.not_le.2 (Nat.lt_trans hlow (by decide)))

theorem admits_chain (c : Chain) (hl : logicalOr.rank ≤ l) : ({ chain := c } : Frame).Admits l where
  phase := .inl rfl
  unsigned _ := rfl
  start _ := rfl
  plain hlow := absurd hl (Nat.not_le.2 hlow)

theorem leaves_binary (hl : l < unary.rank) (hphase : g.phase = .done)
    (hchain : g.chain = f.chain.behind l) : f.Leaves l s g where
  phase := hphase
  chain _ := hchain
  signed hhigh := absurd hl (Nat.not_lt.2 hhigh)

theorem read_of_done (hf : f.phase = .done) : f.read = f := by
  cases f
  simp_all [read]

theorem leaves_read (f : Frame) : f.Leaves primary.rank false f.read where
  phase := rfl
  chain _ := rfl
  signed _ := by simp [read]

theorem Leaves.chain_of_bitOr (h : f.Leaves l s g) (hl : bitOr.rank ≤ l) : g.chain = f.chain := by
  rw [h.chain (Nat.le_trans (by decide) hl), Chain.behind_of_bitOr _ hl]

theorem Leaves.chain_of_logical (h : f.Leaves l s g) (hl : IsLogicalRank l) :
    g.chain = .logical := by
  have hcoalesce : coalesce.rank ≤ l := by
    rcases hl with rfl | rfl <;> decide
  rw [h.chain hcoalesce, Chain.behind_of_logical _ hl]

/-! What an operator of each kind does. -/

theorem combine_loose (hn : n < coalesce.rank) : f.combine n = some {} := by
  rw [combine, if_pos hn]

theorem combine_coalesce : f.combine coalesce.rank =
    if f.chain = .logical then none else some { chain := .coalescing } := by
  rw [combine, if_neg (by decide), if_pos rfl]

theorem combine_logical (hn : IsLogicalRank n) :
    f.combine n = if f.chain = .coalescing then none else some { chain := .logical } := by
  rcases hn with rfl | rfl <;> rfl

theorem combine_tight (hn : bitOr.rank ≤ n) :
    f.combine n = if n = exponent.rank ∧ f.signed then none else some { chain := f.chain } := by
  have hcoalesce : coalesce.rank < n := Nat.lt_of_lt_of_le (by decide) hn
  rw [combine, if_neg (Nat.not_lt.2 (Nat.le_of_lt hcoalesce)), if_neg (Nat.ne_of_gt hcoalesce),
    if_neg (Nat.not_lt.2 hn)]

end Frame

namespace Phrase

variable {l m : Nat} {s : Bool} {p p' q : Prop} {x o c : Lexeme} {xs ys zs : List Lexeme}

/-- Above the binary operators the level does not matter. -/
theorem of_unary (h : Phrase l s p xs) (hl : unary.rank ≤ l) (hm : unary.rank ≤ m) :
    Phrase m s p xs := by
  intro f hf
  refine (h f (hf.of_unary hl)).imp ?_ fun g _ hg => ?_
  · simp only [not_logical_of_bitOr (bitOr_le_of_unary hl),
      not_logical_of_bitOr (bitOr_le_of_unary hm)]
  · refine ⟨hg.phase, fun _ => ?_, fun _ => hg.signed hl⟩
    rw [hg.chain_of_bitOr (bitOr_le_of_unary hl), Chain.behind_of_bitOr _ (bitOr_le_of_unary hm)]

theorem congr (h : Phrase l s p xs) (hp : p ↔ p') : Phrase l s p' xs :=
  fun f hf => (h f hf).imp (or_congr_left hp) fun _ _ hg => hg

/-- A phrase from a frame that knows nothing. -/
theorem inside (h : Phrase l s p xs) : Inside p xs :=
  (h {} (Frame.admits_empty l)).imp (by simp) fun _ _ _ => trivial

/-- What is passed over like an operand. -/
theorem of_read (h : ∀ f : Frame, f.Admits primary.rank → Runs f xs p (· = f.read)) :
    Phrase primary.rank false p xs := by
  intro f hf
  refine (h f hf).imp (by simp [not_logical_of_bitOr (l := primary.rank) (by decide)]) ?_
  rintro _ - rfl
  exact f.leaves_read

/-- A name, a literal or another lexeme that is an operand. -/
theorem operand (ho : x ∉ openings) (hc : x ∉ closers) (hp : x ∉ prefixes)
    (hs : x ≠ .punct "...") : Phrase primary.rank false False [x] :=
  of_read fun _ hf => .cons ho hc (by rw [hf.next, if_neg hp, if_neg hs]) (.nil rfl)

theorem enclosed (ho : o ∈ openings) (hc : c ∈ closers) (h : Inside p xs) :
    Phrase primary.rank false p (o :: xs ++ [c]) :=
  of_read fun _ _ => Runs.enclosed ho hc h

/-- What follows an operand and belongs to it. -/
theorem follow (h : Phrase l s p xs) (hl : unary.rank ≤ l)
    (hys : ∀ g : Frame, g.phase = .done → Runs g ys q (· = g)) : Phrase l s (p ∨ q) (xs ++ ys) := by
  intro f hf
  have hlogical := not_logical_of_bitOr (bitOr_le_of_unary hl)
  have hruns : Runs f (xs ++ ys) _ (f.Leaves l s) := (h f hf).append fun g hg =>
    (hys g hg.phase).imp .rfl fun _ _ heq => heq ▸ hg
  exact hruns.imp (by simp [hlogical]) fun _ _ hg => hg

/-- Brackets behind an operand. -/
theorem bracket (ho : o ∈ openings) (hc : c ∈ closers) (h : Phrase l s p xs) (hl : unary.rank ≤ l)
    (hys : Inside q ys) : Phrase l s (p ∨ q) (xs ++ (o :: ys ++ [c])) :=
  h.follow hl fun _ hg => (Runs.enclosed ho hc hys).imp .rfl fun _ _ heq =>
    heq.trans (Frame.read_of_done hg)

/-- The name of a member behind an operand. -/
theorem member {d : String} (hd : d ∈ [".", "?."]) (h : Phrase l s p xs) (hl : unary.rank ≤ l)
    (name : String) : Phrase l s p (xs ++ [.punct d, .word name]) := by
  have hpoints : ∀ d ∈ [".", "?."], Lexeme.punct d ∉ openings ∧ Lexeme.punct d ∉ closers ∧
      operator? (.punct d) = none ∧ Lexeme.punct d ∈ [.punct ".", .punct "?."] := by
    decide
  obtain ⟨ho, hc, hoperator, hpoint⟩ := hpoints d hd
  have hname : Lexeme.word name ∉ openings ∧ Lexeme.word name ∉ closers := by
    simp [openings, closers]
  have hruns (g : Frame) (hg : g.phase = .done) :
      Runs g [.punct d, .word name] False (· = g) := by
    have hpointed : g.next (.punct d) = some { g with phase := .member } := by
      simp only [Frame.next, hg, hoperator, if_pos hpoint]
    exact .cons ho hc hpointed (.cons hname.1 hname.2 rfl (.nil (Frame.read_of_done hg)))
  exact (h.follow hl hruns).congr (by simp)

/-- A prefix in front of an operand. -/
theorem prefixed (hx : x ∈ prefixes) (h : Phrase l s p xs) (hl : unary.rank ≤ l) :
    Phrase unary.rank (isSign x) p (x :: xs) := by
  have hprefixes : ∀ x ∈ prefixes, x ∉ openings ∧ x ∉ closers := by decide
  obtain ⟨ho, hc⟩ := hprefixes x hx
  intro f hf
  have hnext : f.next x = some (f.sign x) := by rw [hf.next, if_pos hx]
  have hlogical {l : Nat} (hl : unary.rank ≤ l) := not_logical_of_bitOr (bitOr_le_of_unary hl)
  refine .cons ho hc hnext ((h _ (Frame.admits_sign hl f x)).imp ?_ fun g _ hg => ?_)
  · simp only [hlogical hl, hlogical (Nat.le_refl _), and_false]
  · exact ⟨hg.phase, fun _ => hg.chain_of_bitOr (bitOr_le_of_unary hl), fun _ => by
      simp [hg.signed hl, Frame.sign]⟩

/-- The lexeme behind an expression that starts afresh. -/
theorem restart (hx : x ∈ [.punct "?", .punct ":", .punct "=>"]) {f : Frame}
    {post : Frame → Prop} (hf : f.phase = .done) (h : Runs {} xs p post) :
    Runs f (x :: xs) p post := by
  have hmarks : ∀ x ∈ [Lexeme.punct "?", .punct ":", .punct "=>"], x ∉ openings ∧ x ∉ closers ∧
      operator? x = none ∧ x ∉ [.punct ".", .punct "?."] := by
    decide
  obtain ⟨ho, hc, hoperator, hpoint⟩ := hmarks x hx
  refine .cons ho hc ?_ h
  simp only [Frame.next, hf, hoperator, if_neg hpoint, if_pos hx]

/-- A loose expression from a frame that knows nothing. -/
theorem loose (h : Phrase l s p xs) : Runs {} xs p fun g => g.phase = .done :=
  (h {} (Frame.admits_empty l)).imp (by simp) fun _ _ hg => hg.phase

/-- What is left behind a loose expression does not matter. -/
theorem of_loose (hl : l < coalesce.rank) (h : Runs {} xs p fun g => g.phase = .done) :
    Phrase l s p xs := by
  have hlogical : ¬ IsLogicalRank l := by
    rintro (rfl | rfl) <;> exact absurd hl (by decide)
  intro f hf
  rw [hf.eq_empty (Nat.lt_trans hl (by decide))]
  refine h.imp (by simp) fun _ _ hg =>
    ⟨hg, fun hhigh => absurd hl (Nat.not_lt.2 hhigh), fun hhigh => ?_⟩
  exact absurd hl (Nat.not_lt.2 (Nat.le_trans (by decide) hhigh))

theorem cond {l₁ l₂ l₃ : Nat} {s₁ s₂ s₃ : Bool} {p₁ p₂ p₃ : Prop} (h₁ : Phrase l₁ s₁ p₁ xs)
    (h₂ : Phrase l₂ s₂ p₂ ys) (h₃ : Phrase l₃ s₃ p₃ zs) :
    Phrase conditional.rank false (p₁ ∨ p₂ ∨ p₃) (xs ++ .punct "?" :: (ys ++ .punct ":" :: zs)) :=
  of_loose (by decide) (h₁.loose.append fun _ hf => restart (by simp) hf
    (h₂.loose.append fun _ hg => restart (by simp) hg h₃.loose))

theorem spread (h : Phrase l s p xs) : Phrase element.rank false p (.punct "..." :: xs) :=
  of_loose (by decide) (.cons (by decide) (by decide) (g := {}) (by decide) h.loose)

/-- A function: parameters, which are like an operand, and a result. -/
theorem arrow (h : Phrase primary.rank false False xs) (h' : Phrase l s p ys) :
    Phrase assignment.rank false p (xs ++ .punct "=>" :: ys) :=
  of_loose (by decide) ((h.loose.append fun _ hf => restart (by simp) hf h'.loose).imp
    (by simp) fun _ _ hg => hg)

/-! Binary operators, of each kind. -/

section Binary

variable {o : Operation} {op : String} {l₁ l₂ : Nat} {s₁ s₂ : Bool} {p₁ p₂ : Prop}
variable {post : Frame → Prop}

theorem operator_lexeme : ∀ o ∈ operations, ∀ op ∈ o.ops,
    Lexeme.ofOperator op ∉ openings ∧ Lexeme.ofOperator op ∉ closers := by
  decide

variable {f : Frame}

section

variable (ho : o ∈ operations)
include ho

theorem next_operator (hop : op ∈ o.ops) (hf : f.phase = .done) :
    f.next (.ofOperator op) = f.combine o.result.rank := by
  simp only [Frame.next, hf, operator?_ofOperator o ho op hop]

theorem combined {g : Frame} (hop : op ∈ o.ops)
    (hf : f.phase = .done) (hg : f.combine o.result.rank = some g) (h : Runs g xs p post) :
    Runs f (.ofOperator op :: xs) p post := by
  obtain ⟨hopen, hclose⟩ := operator_lexeme o ho op hop
  exact .cons hopen hclose ((next_operator ho hop hf).trans hg) h

theorem refused (hop : op ∈ o.ops)
    (hf : f.phase = .done) (hg : f.combine o.result.rank = none) (hp : p) (xs : List Lexeme) :
    Runs f (.ofOperator op :: xs) p post := by
  obtain ⟨hopen, hclose⟩ := operator_lexeme o ho op hop
  exact .clash hopen hclose ((next_operator ho hop hf).trans hg) hp xs

theorem binary_loose (hop : op ∈ o.ops) (h₁ : Phrase l₁ s₁ p₁ xs)
    (h₂ : Phrase l₂ s₂ p₂ ys) (hn : o.result.rank < coalesce.rank) :
    Phrase o.result.rank false (p₁ ∨ p₂) (xs ++ .ofOperator op :: ys) :=
  of_loose hn (h₁.loose.append fun _ hf =>
    combined ho hop hf (Frame.combine_loose hn) h₂.loose)

theorem binary_coalesce (hop : op ∈ o.ops) (h₁ : Phrase l₁ s₁ p₁ xs)
    (h₂ : Phrase l₂ s₂ p₂ ys) (hn : o.result.rank = coalesce.rank) (hl₁ : coalesce.rank ≤ l₁)
    (hl₂ : logicalOr.rank ≤ l₂) :
    Phrase o.result.rank false (p₁ ∨ p₂ ∨ IsLogicalRank l₁ ∨ IsLogicalRank l₂)
      (xs ++ .ofOperator op :: ys) := by
  intro f hf
  rw [hf.eq_empty (by rw [hn]; decide)]
  have hright (g : Frame) (hg : ({} : Frame).Leaves l₁ s₁ g) :
      Runs g (.ofOperator op :: ys) (IsLogicalRank l₁ ∨ p₂ ∨ IsLogicalRank l₂)
        (({} : Frame).Leaves o.result.rank false) := by
    by_cases hlogical : IsLogicalRank l₁
    · refine refused ho hop hg.phase ?_ (.inl hlogical) ys
      rw [hn, Frame.combine_coalesce, if_pos (hg.chain_of_logical hlogical)]
    · have hkept : g.chain ≠ .logical := by
        rw [hg.chain hl₁, ne_eq, Chain.behind_eq_logical_iff hl₁ (by decide)]
        exact hlogical
      have hcombine : g.combine o.result.rank = some { chain := .coalescing } := by
        rw [hn, Frame.combine_coalesce, if_neg hkept]
      refine combined ho hop hg.phase hcombine ?_
      refine (h₂ _ (Frame.admits_chain _ hl₂)).imp (by simp [hlogical]) fun k hk hleaves => ?_
      have hbitOr : bitOr.rank ≤ l₂ :=
        (logical_or_bitOr_le hl₂).resolve_left fun hlogical => hk (.inr ⟨rfl, hlogical⟩)
      refine Frame.leaves_binary (by rw [hn]; decide) hleaves.phase ?_
      rw [hleaves.chain_of_bitOr hbitOr, hn]
      rfl
  exact ((h₁ {} (Frame.admits_empty l₁)).append hright).imp (by simp; tauto) fun _ _ h => h

theorem binary_logical (hop : op ∈ o.ops) (h₁ : Phrase l₁ s₁ p₁ xs)
    (h₂ : Phrase l₂ s₂ p₂ ys) (hn : IsLogicalRank o.result.rank) (hl₁ : o.result.rank ≤ l₁)
    (hl₂ : o.result.rank ≤ l₂) :
    Phrase o.result.rank false (p₁ ∨ p₂) (xs ++ .ofOperator op :: ys) := by
  obtain ⟨hor, hlow⟩ : logicalOr.rank ≤ o.result.rank ∧ o.result.rank < unary.rank := by
    rcases hn with hn | hn <;> rw [hn] <;> decide
  have hor₁ := Nat.le_trans hor hl₁
  have hor₂ := Nat.le_trans hor hl₂
  intro f hf
  have hright (g : Frame) (hg : f.Leaves l₁ s₁ g) :
      Runs g (.ofOperator op :: ys) (bitOr.rank ≤ l₁ ∧ f.chain = .coalescing ∨ p₂)
        (f.Leaves o.result.rank false) := by
    by_cases hcoalescing : bitOr.rank ≤ l₁ ∧ f.chain = .coalescing
    · refine refused ho hop hg.phase ?_ (.inl hcoalescing) ys
      rw [Frame.combine_logical hn, hg.chain_of_bitOr hcoalescing.1, if_pos hcoalescing.2]
    · have hkept : g.chain ≠ .coalescing := by
        rcases logical_or_bitOr_le hor₁ with hlogical | hbitOr
        · rw [hg.chain_of_logical hlogical]
          decide
        · rw [hg.chain_of_bitOr hbitOr]
          exact fun h => hcoalescing ⟨hbitOr, h⟩
      have hcombine : g.combine o.result.rank = some { chain := .logical } := by
        rw [Frame.combine_logical hn, if_neg hkept]
      refine combined ho hop hg.phase hcombine ?_
      refine (h₂ _ (Frame.admits_chain _ hor₂)).imp (by simp [hcoalescing]) fun k _ hleaves => ?_
      refine Frame.leaves_binary hlow hleaves.phase ?_
      rw [Chain.behind_of_logical _ hn]
      rcases logical_or_bitOr_le hor₂ with hlogical | hbitOr
      · exact hleaves.chain_of_logical hlogical
      · exact hleaves.chain_of_bitOr hbitOr
  refine ((h₁ f (hf.mono hl₁)).append hright).imp ?_ fun _ _ h => h
  have hsplit := logical_or_bitOr_le hor₁
  have hexcl := not_logical_of_bitOr (l := l₁)
  tauto

theorem binary_tight (hop : op ∈ o.ops) (h₁ : Phrase l₁ s₁ p₁ xs)
    (h₂ : Phrase l₂ s₂ p₂ ys) (hn : bitOr.rank ≤ o.result.rank) (hlow : o.result.rank < unary.rank)
    (hl₁ : o.result.rank ≤ l₁) (hpower : o.result.rank = exponent.rank → unary.rank ≤ l₁)
    (hl₂ : o.result.rank ≤ l₂) :
    Phrase o.result.rank false (p₁ ∨ p₂ ∨ o.result.rank = exponent.rank ∧ s₁)
      (xs ++ .ofOperator op :: ys) := by
  have hbitOr₁ : bitOr.rank ≤ l₁ := Nat.le_trans hn hl₁
  have hbitOr₂ : bitOr.rank ≤ l₂ := Nat.le_trans hn hl₂
  intro f hf
  have hstart := hf.start hlow
  have hright (g : Frame) (hg : f.Leaves l₁ s₁ g) : Runs g (.ofOperator op :: ys)
      (o.result.rank = exponent.rank ∧ s₁ ∨ p₂) (f.Leaves o.result.rank false) := by
    have hsigned : o.result.rank = exponent.rank → g.signed = s₁ := fun h => by
      simp [hg.signed (hpower h), hf.unsigned hstart, hstart]
    have hsame : (o.result.rank = exponent.rank ∧ g.signed) ↔
        (o.result.rank = exponent.rank ∧ s₁) :=
      and_congr_right fun h => by rw [hsigned h]
    by_cases hmixed : o.result.rank = exponent.rank ∧ s₁
    · refine refused ho hop hg.phase ?_ (.inl hmixed) ys
      rw [Frame.combine_tight hn, if_pos (hsame.2 hmixed)]
    · have hcombine : g.combine o.result.rank = some { chain := f.chain } := by
        rw [Frame.combine_tight hn, if_neg (mt hsame.1 hmixed), hg.chain_of_bitOr hbitOr₁]
      refine combined ho hop hg.phase hcombine ?_
      have hadmits := Frame.admits_chain f.chain (Nat.le_trans (by decide) hbitOr₂)
      refine (h₂ _ hadmits).imp ?_ fun k _ hleaves => ?_
      · simp only [not_logical_of_bitOr hbitOr₂, hmixed]
        simp
      · refine Frame.leaves_binary hlow hleaves.phase ?_
        rw [hleaves.chain_of_bitOr hbitOr₂, Chain.behind_of_bitOr _ hn]
  refine ((h₁ f (hf.mono hl₁)).append hright).imp ?_ fun _ _ h => h
  simp only [not_logical_of_bitOr hbitOr₁, not_logical_of_bitOr hn]
  tauto

/-- An operator between operands that bind tightly enough breaks a rule if it is that of a power and
the base begins with a sign, or if it is the coalescing one and an operand is logical. -/
theorem binary (hop : op ∈ o.ops) (h₁ : Phrase l₁ s₁ p₁ xs)
    (h₂ : Phrase l₂ s₂ p₂ ys) (hl₁ : o.result.rank ≤ l₁)
    (hpower : o.result.rank = exponent.rank → unary.rank ≤ l₁) (hl₂ : o.result.rank ≤ l₂)
    (hcoalesce : o.result.rank = coalesce.rank → logicalOr.rank ≤ l₂) :
    Phrase o.result.rank false (p₁ ∨ p₂ ∨ o.result.rank = exponent.rank ∧ s₁ ∨
      o.result.rank = coalesce.rank ∧ (IsLogicalRank l₁ ∨ IsLogicalRank l₂))
      (xs ++ .ofOperator op :: ys) := by
  have hranks : ∀ o ∈ operations, o.result.rank < unary.rank := by decide
  rcases Nat.lt_trichotomy o.result.rank coalesce.rank with hn | hn | hn
  · have hexponent : o.result.rank ≠ exponent.rank :=
      Nat.ne_of_lt (Nat.lt_trans hn (by decide))
    exact (binary_loose ho hop h₁ h₂ hn).congr (by simp [hexponent, Nat.ne_of_lt hn])
  · have hexponent : coalesce.rank ≠ exponent.rank := by decide
    exact (binary_coalesce ho hop h₁ h₂ hn (hn ▸ hl₁) (hcoalesce hn)).congr
      (by simp [hn, hexponent])
  · rcases logical_or_bitOr_le hn with hlogical | hbitOr
    · have hexponent : o.result.rank ≠ exponent.rank := by
        rcases hlogical with hn | hn <;> rw [hn] <;> decide
      exact (binary_logical ho hop h₁ h₂ hlogical hl₁ hl₂).congr
        (by simp [hexponent, Nat.ne_of_gt hn])
    · exact (binary_tight ho hop h₁ h₂ hbitOr (hranks o ho) hl₁ hpower hl₂).congr
        (by simp [Nat.ne_of_gt hn])

end

end Binary

/-- A word that stands in front of no operand. -/
theorem word {name : String} (hname : name ∉ ["void", "typeof", "delete", "new"]) :
    Phrase primary.rank false False [.word name] := by
  refine operand (by simp [openings]) (by simp [closers]) ?_ (by simp)
  simpa [prefixes] using hname

theorem name {name : String} (hname : name ∉ reserved) :
    Phrase primary.rank false False [.word name] := by
  have hprefixes : ∀ s ∈ ["void", "typeof", "delete", "new"], s ∈ reserved := by decide
  exact word fun hmem => hname (hprefixes name hmem)

theorem number (t : String) : Phrase primary.rank false False [.number t] :=
  operand (by simp [openings]) (by simp [closers]) (by simp [prefixes]) (by simp)

theorem string (v : String) : Phrase primary.rank false False [.string v] :=
  operand (by simp [openings]) (by simp [closers]) (by simp [prefixes]) (by simp)

end Phrase

/-! ## Lists -/

theorem Runs.comma {f : Frame} {p : Prop} {post : Frame → Prop} (hf : f.phase = .done)
    (h : Runs {} xs p post) : Runs f (.punct "," :: xs) p post :=
  Phrase.combined (o := ⟨expression, expression, [","], assignment⟩) (by simp [operations])
    (show "," ∈ [","] by simp) hf (Frame.combine_loose (by decide)) h

namespace Inside

variable {l : Nat} {s : Bool} {p q : Prop} {xs ys : List Lexeme}

theorem nil : Inside False [] :=
  Runs.nil trivial

theorem cons (h : Phrase l s p xs) (h' : Inside q ys) : Inside (p ∨ q) (xs ++ .punct "," :: ys) :=
  h.loose.append fun _ hf => .comma hf h'

theorem names {ss : List String} (hss : ∀ s ∈ ss, s ∉ reserved) : Inside False (nameList ss) := by
  induction ss with
  | nil => exact nil
  | cons s ss ih =>
    have hs := Phrase.name (hss s (by simp))
    cases ss with
    | nil => exact hs.inside
    | cons s' ss =>
      have hrest := cons hs (ih fun r hr => hss r (by simp [hr]))
      simpa [nameList, Inside] using hrest

end Inside

theorem Phrase.params {ss : List String} (hss : ∀ s ∈ ss, s ∉ reserved) :
    Phrase primary.rank false False (.punct "(" :: nameList ss ++ [.punct ")"]) :=
  .enclosed (by decide) (by decide) (.names hss)

/-! ## Expressions of the grammar -/

/-- The expressions of the category are phrases of the level: it is no looser than the category, the
operands of coalescing operators are not logical, and only the loosest unary expressions begin with
a sign. -/
structure Category.Ranks (c : Category) (l : Nat) (s : Bool) : Prop where
  le : c.rank ≤ l
  coalescing : c = coalesce → ¬ IsLogicalRank l
  unsigned : update.rank ≤ l → s = false

namespace Category.Ranks

variable {c d : Category} {l : Nat} {s : Bool}

theorem wider (hc : (c, d) ∈ includes) (h : d.Ranks l s) : c.Ranks l s := by
  have hincludes : ∀ p ∈ includes, p.1.rank ≤ p.2.rank ∧ p.1 ≠ coalesce := by decide
  obtain ⟨hle, hne⟩ := hincludes _ hc
  exact ⟨Nat.le_trans hle h.le, fun heq => absurd heq hne, h.unsigned⟩

theorem self (hc : c ≠ coalesce) (hs : update.rank ≤ c.rank → s = false) : c.Ranks c.rank s :=
  ⟨Nat.le_refl _, fun heq => absurd heq hc, hs⟩

/-- The targets of chains. -/
theorem call (hc : c ∈ [Category.member, Category.call]) (h : c.Ranks l s) :
    Category.call.Ranks l s := by
  have hranks : ∀ c ∈ [Category.member, Category.call], Category.call.rank ≤ c.rank := by decide
  exact ⟨Nat.le_trans (hranks c hc) h.le, nofun, h.unsigned⟩

theorem unary_le (h : Category.call.Ranks l s) : unary.rank ≤ l :=
  Nat.le_trans (by decide) h.le

end Category.Ranks

/-- The lexemes are a phrase as the category asks for, and break no rule. -/
def Clear (c : Category) (xs : List Lexeme) : Prop :=
  ∃ l s, Phrase l s False xs ∧ c.Ranks l s

namespace Clear

variable {c d : Category} {xs ys zs : List Lexeme}

theorem wider (hc : (c, d) ∈ includes) (h : Clear d xs) : Clear c xs := by
  obtain ⟨l, s, hphrase, hranks⟩ := h
  exact ⟨l, s, hphrase, hranks.wider hc⟩

theorem of_phrase {s : Bool} (hc : c ≠ coalesce) (hs : update.rank ≤ c.rank → s = false)
    (h : Phrase c.rank s False xs) : Clear c xs :=
  ⟨c.rank, s, h, .self hc hs⟩

theorem primary (h : Phrase primary.rank false False xs) : Clear Category.primary xs :=
  .of_phrase (by decide) (fun _ => rfl) h

theorem inside (h : Clear c xs) : Inside False xs := by
  obtain ⟨_, _, hphrase, -⟩ := h
  exact hphrase.inside

theorem member {d s : String} (hd : d ∈ [".", "?."]) (hc : c ∈ [Category.member, Category.call])
    (h : Clear c xs) : Clear c (xs ++ [.punct d, .word s]) := by
  obtain ⟨l, s, hphrase, hranks⟩ := h
  exact ⟨l, s, hphrase.member hd (hranks.call hc).unary_le _, hranks⟩

theorem bracket {o e : Lexeme} (ho : o ∈ openings) (he : e ∈ closers)
    (hc : c ∈ [Category.member, Category.call]) (h : Clear c xs) (h' : Inside False ys) :
    Clear c (xs ++ (o :: ys ++ [e])) := by
  obtain ⟨l, s, hphrase, hranks⟩ := h
  exact ⟨l, s, (hphrase.bracket ho he (hranks.call hc).unary_le h').congr (by simp), hranks⟩

theorem call (hc : c ∈ [Category.member, Category.call]) (h : Clear c xs) :
    Clear Category.call xs := by
  obtain ⟨l, s, hphrase, hranks⟩ := h
  exact ⟨l, s, hphrase, hranks.call hc⟩

theorem prefixed {x : Lexeme} (hx : x ∈ prefixes) (hc : unary.rank ≤ c.rank)
    (hd : unary.rank ≤ d.rank) (hsign : update.rank ≤ d.rank → isSign x = false) (h : Clear c xs) :
    Clear d (x :: xs) := by
  obtain ⟨l, s, hphrase, hranks⟩ := h
  refine .of_phrase (s := isSign x) ?_ hsign
    ((hphrase.prefixed hx (Nat.le_trans hc hranks.le)).of_unary (Nat.le_refl _) hd)
  rintro rfl
  exact absurd hd (by decide)

theorem binary {o : Operation} {op : String} (ho : o ∈ operations) (hop : op ∈ o.ops)
    (h : Clear o.left xs) (h' : Clear o.right ys) :
    Clear o.result (xs ++ .ofOperator op :: ys) := by
  have hoperations : ∀ o ∈ operations, o.result.rank ≤ o.left.rank ∧
      (o.result.rank = exponent.rank → update.rank ≤ o.left.rank) ∧
      o.result.rank ≤ o.right.rank ∧ (o.result.rank = coalesce.rank →
        (o.left = coalesce ∨ bitOr.rank ≤ o.left.rank) ∧ bitOr.rank ≤ o.right.rank) := by
    decide
  obtain ⟨hleft, hpower, hright, hcoalesce⟩ := hoperations o ho
  obtain ⟨l₁, s₁, hphrase, hranks⟩ := h
  obtain ⟨l₂, s₂, hphrase', hranks'⟩ := h'
  have hupdate (heq : o.result.rank = exponent.rank) : update.rank ≤ l₁ :=
    Nat.le_trans (hpower heq) hranks.le
  have hbitOr (heq : o.result.rank = coalesce.rank) : bitOr.rank ≤ l₂ :=
    Nat.le_trans (hcoalesce heq).2 hranks'.le
  have hlogical (heq : o.result.rank = coalesce.rank) : ¬ IsLogicalRank l₁ := by
    rcases (hcoalesce heq).1 with hchain | hle
    · exact hranks.coalescing hchain
    · exact not_logical_of_bitOr (Nat.le_trans hle hranks.le)
  have hbinary := Phrase.binary ho hop hphrase hphrase' (Nat.le_trans hleft hranks.le)
    (fun heq => Nat.le_trans (by decide) (hupdate heq)) (Nat.le_trans hright hranks'.le)
    fun heq => Nat.le_trans (by decide) (hbitOr heq)
  have hresult : o.result = coalesce → ¬ IsLogicalRank o.result.rank := fun heq => by
    rw [heq]
    decide
  refine ⟨_, _, hbinary.congr ?_, Nat.le_refl _, hresult, fun _ => rfl⟩
  have hunsigned (heq : o.result.rank = exponent.rank) : s₁ = false := hranks.unsigned (hupdate heq)
  have hclear (heq : o.result.rank = coalesce.rank) := not_logical_of_bitOr (hbitOr heq)
  simp only [false_or, iff_false]
  rintro (⟨heq, hs⟩ | ⟨heq, h | h⟩)
  · simp [hunsigned heq] at hs
  · exact hlogical heq h
  · exact hclear heq h

theorem cond {c' c'' : Category} (h : Clear c xs) (h' : Clear c' ys) (h'' : Clear c'' zs) :
    Clear conditional (xs ++ .punct "?" :: (ys ++ .punct ":" :: zs)) := by
  obtain ⟨_, _, hphrase, -⟩ := h
  obtain ⟨_, _, hphrase', -⟩ := h'
  obtain ⟨_, _, hphrase'', -⟩ := h''
  exact .of_phrase (by decide) (fun _ => rfl) ((hphrase.cond hphrase' hphrase'').congr (by simp))

theorem arrow (h : Phrase Category.primary.rank false False xs) (h' : Clear c ys) :
    Clear assignment (xs ++ .punct "=>" :: ys) := by
  obtain ⟨_, _, hphrase, -⟩ := h'
  exact .of_phrase (by decide) (fun _ => rfl) (h.arrow hphrase)

theorem spread (h : Clear c xs) : Clear element (.punct "..." :: xs) := by
  obtain ⟨_, _, hphrase, -⟩ := h
  exact .of_phrase (by decide) (fun _ => rfl) hphrase.spread

end Clear

mutual

theorem Derives.clear {c : Category} {xs : List Lexeme} {t : Expr} : Derives c xs t → Clear c xs
  | .wider hc ha => ha.clear.wider hc
  | .name hs => .primary (.name hs)
  | .this => .primary (.word (by decide))
  | .bool b => .primary (.word (by cases b <;> decide))
  | .number s => .primary (.number s)
  | .string v => .primary (.string v)
  | .array ha => .primary (.enclosed (by decide) (by decide) ha.inside)
  | .paren ha => .primary (.enclosed (by decide) (by decide) ha.clear.inside)
  | .access hc ha => ha.clear.member (by simp) hc
  | .optional hc ha => (ha.clear.member (by simp) hc).call hc
  | .index hc ha hb => ha.clear.bracket (by decide) (by decide) hc hb.clear.inside
  | .call hc ha hb => (ha.clear.bracket (by decide) (by decide) hc hb.inside).call hc
  | .new ha hb => by
    have hnew := ha.clear.prefixed (x := .word "new") (d := member) (by decide) (by decide)
      (by decide) fun _ => rfl
    exact hnew.bracket (by decide) (by decide) (by simp) hb.inside
  | .newBare ha => ha.clear.prefixed (by decide) (by decide) (by decide) fun _ => rfl
  | .update hop ha => by
    have hupdates : ∀ op ∈ ["++", "--"], Lexeme.ofOperator op ∈ prefixes ∧
        isSign (.ofOperator op) = false := by
      decide
    exact ha.clear.prefixed (hupdates _ hop).1 (by decide) (by decide) fun _ =>
      (hupdates _ hop).2
  | .unary hop ha => by
    have hsigns : ∀ op ∈ ["!", "-", "+", "~", "typeof", "delete"],
        Lexeme.ofOperator op ∈ prefixes := by
      decide
    exact ha.clear.prefixed (hsigns _ hop) (by decide) (by decide) fun h =>
      absurd h (by decide)
  | .void ha => ha.clear.prefixed (by decide) (by decide) (by decide) fun h =>
      absurd h (by decide)
  | .binary ho hop ha hb => .binary ho hop ha.clear hb.clear
  | .cond ha hb hd => ha.clear.cond hb.clear hd.clear
  | .arrow hss ha => by simpa using Clear.arrow (.params hss) ha.clear
  | .arrowBare hs ha => Clear.arrow (.name hs) ha.clear
  | .spread ha => ha.clear.spread

theorem Elements.inside {xs : List Lexeme} {es : List Expr} : Elements xs es → Inside False xs
  | .nil => .nil
  | .one ha => ha.clear.inside
  | .cons ha hb => by
    obtain ⟨_, _, hphrase, -⟩ := ha.clear
    simpa using Inside.cons hphrase hb.inside

end

theorem Inside.clashes_iff {p : Prop} (h : Inside p xs) : clashes [{}] xs ↔ p := by
  obtain ⟨r, hnone, -, hruns⟩ := h
  have hend := hruns [] []
  rw [List.append_nil] at hend
  rw [hend, ← hnone]
  cases r <;> simp [clashes]

/-- An expression of the grammar breaks no rule. -/
theorem Derives.not_clashes {c : Category} {t : Expr} (h : Derives c xs t) :
    clashes [{}] xs = false := by
  simpa using h.clear.inside.clashes_iff

/-- A text whose operators break a rule cannot be read. -/
theorem not_reads_of_clashes {A : Alphabet} {s : String} (hxs : Lexes A s.toList xs)
    (h : clashes [{}] xs) (t : Expr) : ¬ Reads A s t := by
  rintro ⟨ys, hys, hderives⟩
  rw [hxs.unique hys, hderives.not_clashes] at h
  cases h

end ExtensionLowering.Grammar
