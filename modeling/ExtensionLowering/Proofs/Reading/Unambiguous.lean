import ExtensionLowering.Proofs.Reading.Grammar
/-!
# The grammar is unambiguous

A reader that climbs along the binding ranks takes the lexemes of every derived expression as its
tree. So lexemes have one tree at most in each category, and a text is read in one way only. The
reader is not a test of membership: it may also take lexemes that no rule derives.

## Main definitions

* `Category.rank`, `Category.bound`: how tightly the expressions of a category bind, and what may
  follow them.
* `parse`, `climb`, `parseElements`: the reader.
* `Parses`: the reader takes the lexemes as an expression, whatever follows.
-/
namespace ExtensionLowering.Grammar

open Category

variable {xs r : List Lexeme} {n : Nat} {t : Expr} {x : Lexeme}

namespace Category

/-- How tightly the loosest expressions of the category bind. -/
def rank : Category → Nat
  | expression => 0
  | element => 1
  | assignment => 2
  | conditional => 3
  | shortCircuit | coalesce => 4
  | logicalOr => 5
  | logicalAnd => 6
  | bitOr => 7
  | bitXor => 8
  | bitAnd => 9
  | equality => 10
  | relational => 11
  | shift => 12
  | additive => 13
  | multiplicative => 14
  | exponent => 15
  | unary => 16
  | update => 17
  | leftHandSide | call => 18
  | new | member => 19
  | primary => 20

/-- How tightly a lexeme behind an expression of the category may bind without becoming part of its
last operand. -/
def bound : Category → Nat
  | expression => 0
  | element | assignment | conditional => 1
  | shortCircuit | coalesce => 4
  | logicalOr => 5
  | logicalAnd => 6
  | bitOr => 7
  | bitXor => 8
  | bitAnd => 9
  | equality => 10
  | relational => 11
  | shift => 12
  | additive => 13
  | multiplicative | exponent => 14
  | unary | update => 15
  | leftHandSide | new => 17
  | call | member => 19
  | primary => 20

end Category

/-- The binary operator of a lexeme, with the ranks of its result and of its right operand. -/
def operator? (x : Lexeme) : Option (Nat × String × Nat) :=
  operations.findSome? fun o =>
    (o.ops.find? fun op => x = .ofOperator op).map fun op => (o.result.rank, op, o.right.rank)

/-- How tightly a lexeme binds to the expression before it, if it can follow one. -/
def reach (x : Lexeme) : Option Nat :=
  match x with
  | .punct "=>" => some 21
  | .punct "." | .punct "[" => some 19
  | .punct "?." | .punct "(" => some 18
  | .punct "?" => some 3
  | x => (operator? x).map (·.1)

/-- The names of a list in parentheses that turns out to be one of parameters. -/
def names? : Expr → Option (List String)
  | .ident id => some [id.name]
  | .binary _ _ l "," (.ident id) => (names? l).map (· ++ [id.name])
  | _ => none

/-- What closes a list or a pair of parentheses. -/
def closers : List Lexeme :=
  [.punct ")", .punct "]"]

/-- What was read and what follows it, if that is no longer than the lexemes. -/
def shrunk {α : Type} (xs : List Lexeme) (o : Option (α × List Lexeme)) :
    Option (α × { r : List Lexeme // r.length ≤ xs.length }) :=
  o.bind fun q => if h : q.2.length ≤ xs.length then some (q.1, ⟨q.2, h⟩) else none

@[simp] theorem shrunk_some {α : Type} {t : α} (h : r.length ≤ xs.length) :
    shrunk xs (some (t, r)) = some (t, ⟨r, h⟩) := by
  simp [shrunk, h]

mutual

/-- Reads an expression of at least the rank, and what follows it. -/
def parse (n : Nat) (xs : List Lexeme) : Option (Expr × List Lexeme) :=
  match xs with
  | [] => none
  | .number s :: r => climb n (.number {} s) r
  | .string v :: r => climb n (.string {} v) r
  | .word s :: r =>
    if s ∉ reserved then
      if r.head? = some (.punct "=>") then do
        let (t, ⟨r, _⟩) ← shrunk (r.drop 1) (parse 2 (r.drop 1))
        climb n (.arrow {} [nameParam s] .missing t) r
      else climb n (.ident { name := s }) r
    else if s = "this" then climb n (.this {}) r
    else if s = "true" then climb n (.bool {} true) r
    else if s = "false" then climb n (.bool {} false) r
    else if s = "new" then do
      let (t, ⟨r, _⟩) ← shrunk r (parse 19 r)
      if r.head? = some (.punct "(") then
        let (es, ⟨r, _⟩) ← shrunk (r.drop 1) (parseElements (r.drop 1))
        climb n (.new {} t [] es) (r.drop 1)
      else climb n (.new {} t [] []) r
    else if s = "void" then do
      let (t, ⟨r, _⟩) ← shrunk r (parse 16 r)
      climb n (.void {} t) r
    else do
      let (t, ⟨r, _⟩) ← shrunk r (parse 16 r)
      climb n (.unary {} s t) r
  | .punct p :: r =>
    if p = "(" then
      if r.head? = some (.punct ")") then do
        let (u, ⟨r, _⟩) ← shrunk (r.drop 2) (parse 2 (r.drop 2))
        climb n (.arrow {} [] .missing u) r
      else do
        let (t, ⟨r, _⟩) ← shrunk r (parse 0 r)
        if r.take 2 = [.punct ")", .punct "=>"] then
          let ss ← names? t
          let (u, ⟨r, _⟩) ← shrunk (r.drop 2) (parse 2 (r.drop 2))
          climb n (.arrow {} (ss.map nameParam) .missing u) r
        else climb n (.paren {} t) (r.drop 1)
    else if p = "[" then do
      let (es, ⟨r, _⟩) ← shrunk r (parseElements r)
      climb n (.array {} es) (r.drop 1)
    else if p = "..." then do
      let (t, ⟨r, _⟩) ← shrunk r (parse 2 r)
      climb n (.spread {} t) r
    else do
      let (t, ⟨r, _⟩) ← shrunk r (parse 16 r)
      climb n (.unary {} p t) r
termination_by 2 * xs.length
decreasing_by all_goals grind

/-- Reads on behind an expression, as long as what follows binds at least as tightly as the rank. -/
def climb (n : Nat) (t : Expr) (xs : List Lexeme) : Option (Expr × List Lexeme) :=
  match xs with
  | [] => some (t, [])
  | x :: r =>
    if (reach x).any (n ≤ ·) then
      match operator? x with
      | some (_, op, m) => do
        let (u, ⟨r, _⟩) ← shrunk r (parse m r)
        climb n (.binary {} {} t op u) r
      | none =>
        match x, r with
        | .punct ".", .word s :: r => climb n (.prop {} {} t (some { name := s }) false) r
        | .punct "?.", .word s :: r => climb n (.prop {} {} t (some { name := s }) true) r
        | .punct "[", r => do
          let (u, ⟨r, _⟩) ← shrunk r (parse 0 r)
          climb n (.elem {} {} t u) (r.drop 1)
        | .punct "(", r => do
          let (es, ⟨r, _⟩) ← shrunk r (parseElements r)
          climb n (.call {} {} t [] es) (r.drop 1)
        | .punct "?", r => do
          let (u, ⟨r, _⟩) ← shrunk r (parse 2 r)
          let (v, ⟨r, _⟩) ← shrunk (r.drop 1) (parse 2 (r.drop 1))
          climb n (.cond {} t u v) r
        | _, _ => none
    else some (t, xs)
termination_by 2 * xs.length
decreasing_by all_goals grind

def parseElements (xs : List Lexeme) : Option (List Expr × List Lexeme) :=
  if xs.head?.any (· ∈ closers) then some ([], xs)
  else do
    let (t, ⟨r, _⟩) ← shrunk xs (parse 1 xs)
    if _hcomma : r.head? = some (.punct ",") then
      let (ts, r) ← parseElements (r.drop 1)
      return (t :: ts, r)
    else return ([t], r)
termination_by 2 * xs.length + 1
decreasing_by
  · grind
  · have hne : r ≠ [] := by
      rintro rfl
      simp at _hcomma
    grind [List.length_pos_iff]

end

/-! ## Reading on -/

/-- Nothing at the front of the lexemes binds more tightly than `b`. -/
def Closed (b : Nat) (r : List Lexeme) : Prop :=
  ∀ x ∈ r.head?, ∀ m ∈ reach x, m ≤ b

theorem Closed.mono {b b' : Nat} (h : Closed b r) (hb : b ≤ b') : Closed b' r :=
  fun x hx m hm => Nat.le_trans (h x hx m hm) hb

theorem operator?_ofOperator : ∀ o ∈ operations, ∀ op ∈ o.ops,
    operator? (.ofOperator op) = some (o.result.rank, op, o.right.rank) := by
  decide

theorem reach_ofOperator : ∀ o ∈ operations, ∀ op ∈ o.ops,
    reach (.ofOperator op) = some o.result.rank := by
  decide

/-! How tightly single lexemes bind. -/

@[simp] theorem reach_point : reach (.punct ".") = some 19 := rfl

@[simp] theorem reach_optional : reach (.punct "?.") = some 18 := rfl

@[simp] theorem reach_index : reach (.punct "[") = some 19 := rfl

@[simp] theorem reach_call : reach (.punct "(") = some 18 := rfl

@[simp] theorem reach_question : reach (.punct "?") = some 3 := rfl

@[simp] theorem reach_comma : reach (.punct ",") = some 0 := rfl

@[simp] theorem reach_colon : reach (.punct ":") = none := rfl

@[simp] theorem reach_closeParen : reach (.punct ")") = none := rfl

@[simp] theorem reach_closeIndex : reach (.punct "]") = none := rfl

theorem operator?_chain : ∀ s ∈ [".", "?.", "[", "(", "?"], operator? (.punct s) = none := by
  decide

theorem climb_stop (t : Expr)
    (h : ∀ x ∈ r.head?, ∀ m ∈ reach x, m < n) : climb n t r = some (t, r) := by
  cases r with
  | nil => rw [climb.eq_def]
  | cons x r =>
    have hx : ¬ (reach x).any (n ≤ ·) := by
      rw [Option.any_eq_true]
      rintro ⟨m, hm, hn⟩
      have := h x rfl m hm
      simp only [decide_eq_true_eq] at hn
      omega
    rw [climb.eq_def]
    simp only [if_neg hx]

theorem climb_binary {o : Operation} {op : String} (t : Expr) (r : List Lexeme)
    (ho : o ∈ operations) (hop : op ∈ o.ops) (hn : n ≤ o.result.rank) :
    climb n t (.ofOperator op :: r) =
      (shrunk r (parse o.right.rank r)).bind fun q => climb n (.binary {} {} t op q.1) q.2 := by
  rw [climb.eq_def]
  simp [reach_ofOperator o ho op hop, operator?_ofOperator o ho op hop, hn]

theorem climb_access (t : Expr) (s : String) (r : List Lexeme) (hn : n ≤ 19) :
    climb n t (.punct "." :: .word s :: r) =
      climb n (.prop {} {} t (some { name := s }) false) r := by
  rw [climb.eq_def]
  simp [operator?_chain "." (by simp), hn]

theorem climb_optional (t : Expr) (s : String) (r : List Lexeme) (hn : n ≤ 18) :
    climb n t (.punct "?." :: .word s :: r) =
      climb n (.prop {} {} t (some { name := s }) true) r := by
  rw [climb.eq_def]
  simp [operator?_chain "?." (by simp), hn]

theorem climb_index (t : Expr) (r : List Lexeme) (hn : n ≤ 19) :
    climb n t (.punct "[" :: r) =
      (shrunk r (parse 0 r)).bind fun q => climb n (.elem {} {} t q.1) (q.2.val.drop 1) := by
  rw [climb.eq_def]
  simp [operator?_chain "[" (by simp), hn]

theorem climb_call (t : Expr) (r : List Lexeme) (hn : n ≤ 18) :
    climb n t (.punct "(" :: r) =
      (shrunk r (parseElements r)).bind fun q =>
        climb n (.call {} {} t [] q.1) (q.2.val.drop 1) := by
  rw [climb.eq_def]
  simp [operator?_chain "(" (by simp), hn]

theorem climb_cond (t : Expr) (r : List Lexeme) (hn : n ≤ 3) :
    climb n t (.punct "?" :: r) = (shrunk r (parse 2 r)).bind fun q =>
      (shrunk (q.2.val.drop 1) (parse 2 (q.2.val.drop 1))).bind fun p =>
        climb n (.cond {} t q.1 p.1) p.2 := by
  rw [climb.eq_def]
  simp [operator?_chain "?" (by simp), hn]

/-! ## Parentheses -/

theorem parse_group (hx : x ≠ .punct ")") (h : parse 0 (x :: xs) = some (t, .punct ")" :: r))
    (hlen : r.length ≤ xs.length) (hr : r.head? ≠ some (.punct "=>")) :
    parse n (.punct "(" :: x :: xs) = climb n (.paren {} t) r := by
  have hnot : ¬ r.take 1 = [.punct "=>"] := by
    cases r <;> simp_all
  rw [parse.eq_def]
  simp [hx, h, hlen, hnot]

theorem parse_params {xs r r' : List Lexeme} {t u : Expr} {ss : List String}
    (hx : x ≠ .punct ")") (h : parse 0 (x :: xs) = some (t, .punct ")" :: .punct "=>" :: r))
    (hlen : r.length + 1 ≤ xs.length) (hss : names? t = some ss)
    (hbody : parse 2 r = some (u, r')) (hlen' : r'.length ≤ r.length) :
    parse n (.punct "(" :: x :: xs) = climb n (.arrow {} (ss.map nameParam) .missing u) r' := by
  rw [parse.eq_def]
  simp [hx, h, hlen, hss, hbody, hlen']

theorem parse_no_params {r r' : List Lexeme} {u : Expr} (hbody : parse 2 r = some (u, r'))
    (hlen : r'.length ≤ r.length) :
    parse n (.punct "(" :: .punct ")" :: .punct "=>" :: r) =
      climb n (.arrow {} [] .missing u) r' := by
  rw [parse.eq_def]
  simp [hbody, hlen]

/-- Names with commas between them, as the expression that they are read as first. -/
def commaNames (t : Expr) (ss : List String) : Expr :=
  ss.foldl (fun t s => .binary {} {} t "," (.ident { name := s })) t

theorem names?_commaNames {ns : List String} (ss : List String)
    (h : names? t = some ns) : names? (commaNames t ss) = some (ns ++ ss) := by
  induction ss generalizing t ns with
  | nil => simpa [commaNames] using h
  | cons s ss ih =>
    have hs : names? (.binary {} {} t "," (.ident { name := s })) = some (ns ++ [s]) := by
      simp [names?, h]
    simpa [commaNames] using ih hs

/-! ## Reading what a rule derives -/

theorem reach_closer : ∀ x ∈ closers, reach x = none := by decide

theorem Closed.cons {b m : Nat} (hx : reach x = some m) (hm : m ≤ b)
    (r : List Lexeme) : Closed b (x :: r) := by
  intro y hy m' hm'
  cases hy
  cases hx.symm.trans hm'
  exact hm

/-- The reader takes the lexemes as an expression of the category with the tree, whatever follows
that does not belong to it. -/
structure Parses (c : Category) (a : List Lexeme) (t : Expr) : Prop where
  opens : ∃ x xs, a = x :: xs ∧ x ∉ closers
  reads : ∀ n r, n ≤ c.rank → Closed c.bound r → parse n (a ++ r) = climb n t r

/-- The same for a list of elements. -/
def ParsesList (a : List Lexeme) (es : List Expr) : Prop :=
  ∀ x ∈ closers, ∀ r, parseElements (a ++ x :: r) = some (es, x :: r)

namespace Parses

variable {x : Lexeme} {s op : String}
variable {c d : Category} {a b : List Lexeme} {t u : Expr} {es : List Expr}

/-- The reader stops where what follows binds less tightly than asked for. -/
theorem stops (h : Parses c a t) {n m : Nat} {r : List Lexeme} (hn : n ≤ c.rank) (hm : m ≤ c.bound)
    (hmn : m < n) (hr : Closed m r) : parse n (a ++ r) = some (t, r) := by
  have hstop : ∀ x ∈ r.head?, ∀ k ∈ reach x, k < n := fun x hx k hk =>
    Nat.lt_of_le_of_lt (hr x hx k hk) hmn
  rw [h.reads n r hn (hr.mono hm), climb_stop t hstop]

/-- The reader stops at a lexeme that cannot follow an expression. -/
theorem stops_at (h : Parses c a t) {n : Nat} (hn : n ≤ c.rank) (hx : reach x = none)
    (r : List Lexeme) : parse n (a ++ x :: r) = some (t, x :: r) := by
  have hnone : ∀ y ∈ (x :: r).head?, reach y = none := by simpa using hx
  rw [h.reads n _ hn fun y hy m hm => by simp [hnone y hy] at hm,
    climb_stop t fun y hy m hm => by simp [hnone y hy] at hm]

theorem includes_rank : ∀ p ∈ includes, p.1.rank ≤ p.2.rank ∧ p.1.bound ≤ p.2.bound := by decide

theorem wider (hc : (c, d) ∈ includes) (h : Parses d a t) : Parses c a t := by
  obtain ⟨hrank, hbound⟩ := includes_rank _ hc
  exact ⟨h.opens, fun n r hn hr => h.reads n r (Nat.le_trans hn hrank) (hr.mono hbound)⟩

theorem atom (hx : x ∉ closers)
    (h : ∀ n r, Closed 20 r → parse n (x :: r) = climb n t r) : Parses primary [x] t :=
  ⟨⟨x, [], rfl, hx⟩, fun n r _ hr => h n r hr⟩

attribute [local simp] closers

theorem name (hs : s ∉ reserved) : Parses primary [.word s] (.ident { name := s }) := by
  refine atom (by simp) fun n r hr => ?_
  rw [parse.eq_def]
  have harrow : r.head? ≠ some (.punct "=>") := fun heq =>
    absurd (hr _ heq 21 rfl) (by decide)
  simp [hs, harrow]

theorem this : Parses primary [.word "this"] (.this {}) := by
  refine atom (by simp) fun n r _ => ?_
  rw [parse.eq_def]
  simp [reserved]

theorem bool (b : Bool) : Parses primary [.word (if b then "true" else "false")] (.bool {} b) := by
  refine atom (by simp) fun n r _ => ?_
  rw [parse.eq_def]
  cases b <;> simp [reserved]

theorem number (s : String) : Parses primary [.number s] (.number {} s) :=
  atom (by simp) fun n r _ => by rw [parse.eq_def]

theorem string (v : String) : Parses primary [.string v] (.string {} v) :=
  atom (by simp) fun n r _ => by rw [parse.eq_def]

theorem array (h : ParsesList a es) :
    Parses primary (.punct "[" :: a ++ [.punct "]"]) (.array {} es) := by
  refine ⟨⟨_, _, rfl, by simp⟩, fun n r _ _ => ?_⟩
  have ha := h (.punct "]") (by simp) r
  rw [parse.eq_def]
  simp [ha]

theorem paren (h : Parses expression a t) :
    Parses primary (.punct "(" :: a ++ [.punct ")"]) (.paren {} t) := by
  refine ⟨⟨_, _, rfl, by simp⟩, fun n r _ hr => ?_⟩
  have hread := h.stops_at (Nat.zero_le _) reach_closeParen r
  obtain ⟨x, xs, rfl, hx⟩ := h.opens
  have harrow : r.head? ≠ some (.punct "=>") := fun heq =>
    absurd (hr _ heq 21 rfl) (by decide)
  simpa using parse_group (by rintro rfl; simp at hx) hread (by simp; omega) harrow

theorem chain_rank : ∀ c ∈ [member, call], 18 ≤ c.rank ∧ c.rank ≤ 19 ∧ c.bound = 19 := by decide

/-- Reading on behind the target of a chain. -/
theorem target {n m : Nat} (hc : c ∈ [member, call]) (h : Parses c a t) (hn : n ≤ c.rank)
    (hx : reach x = some m) (hm : m ≤ 19) (r : List Lexeme) :
    parse n (a ++ x :: r) = climb n t (x :: r) :=
  h.reads n _ hn (.cons hx ((chain_rank c hc).2.2 ▸ hm) r)

theorem opens_append (h : Parses c a t) (b : List Lexeme) :
    ∃ x xs, a ++ b = x :: xs ∧ x ∉ closers := by
  obtain ⟨x, xs, rfl, hx⟩ := h.opens
  exact ⟨x, xs ++ b, rfl, hx⟩

theorem access (hc : c ∈ [member, call]) (h : Parses c a t) :
    Parses c (a ++ [.punct ".", .word s]) (.prop {} {} t (some { name := s }) false) := by
  refine ⟨h.opens_append _, fun n r hn _ => ?_⟩
  have hn' := Nat.le_trans hn (chain_rank c hc).2.1
  simpa [climb_access t s r hn'] using h.target hc hn reach_point
    (by omega) (.word s :: r)

theorem optional (hc : c ∈ [member, call]) (h : Parses c a t) :
    Parses call (a ++ [.punct "?.", .word s]) (.prop {} {} t (some { name := s }) true) := by
  refine ⟨h.opens_append _, fun n r hn _ => ?_⟩
  have hn' := Nat.le_trans hn (chain_rank c hc).1
  simpa [climb_optional t s r hn] using h.target hc hn' reach_optional
    (by omega) (.word s :: r)

theorem index (hc : c ∈ [member, call]) (h : Parses c a t) (hb : Parses expression b u) :
    Parses c (a ++ (.punct "[" :: b ++ [.punct "]"])) (.elem {} {} t u) := by
  refine ⟨h.opens_append _, fun n r hn _ => ?_⟩
  have hn' := Nat.le_trans hn (chain_rank c hc).2.1
  have hindex := hb.stops_at (Nat.zero_le _) reach_closeIndex r
  simpa [climb_index t _ hn', hindex] using h.target hc hn reach_index
    (by omega) (b ++ .punct "]" :: r)

theorem call (hc : c ∈ [member, call]) (h : Parses c a t) (hb : ParsesList b es) :
    Parses call (a ++ (.punct "(" :: b ++ [.punct ")"])) (.call {} {} t [] es) := by
  refine ⟨h.opens_append _, fun n r hn _ => ?_⟩
  have hn' := Nat.le_trans hn (chain_rank c hc).1
  have hargs := hb (.punct ")") (by simp) r
  simpa [climb_call t _ hn, hargs] using h.target hc hn' reach_call
    (by omega) (b ++ .punct ")" :: r)

theorem new (h : Parses member a t) (hb : ParsesList b es) :
    Parses member (.word "new" :: a ++ (.punct "(" :: b ++ [.punct ")"])) (.new {} t [] es) := by
  refine ⟨⟨_, _, rfl, by simp⟩, fun n r _ _ => ?_⟩
  -- At the rank of a callee the reader does not go on with the arguments.
  have hcallee := h.stops (n := 19) (m := 18) (by decide) (by decide) (by decide)
    (.cons reach_call (by omega) (b ++ .punct ")" :: r))
  have hargs := hb (.punct ")") (by simp) r
  rw [parse.eq_def]
  simp [reserved, hcallee, hargs]

theorem newBare (h : Parses Category.new a t) :
    Parses Category.new (.word "new" :: a) (.new {} t [] []) := by
  refine ⟨⟨_, _, rfl, by simp⟩, fun n r _ hr => ?_⟩
  have hcallee := h.stops (n := 19) (by decide) (Nat.le_refl _) (by decide) hr
  have hargs : r.head? ≠ some (.punct "(") := fun heq => absurd (hr _ heq 18 rfl) (by decide)
  rw [parse.eq_def]
  simp [reserved, hcallee, hargs]

/-- An operator before an operand. -/
theorem operand {f : Expr → Expr} {m : Nat} (hx : x ∉ closers) (h : Parses d a t)
    (hparse : ∀ n r, parse n (x :: r) = (shrunk r (parse m r)).bind fun q => climb n (f q.1) q.2)
    (hm : m ≤ d.rank) (hd : c.bound ≤ d.bound) (hc : c.bound < m) : Parses c (x :: a) (f t) := by
  refine ⟨⟨_, _, rfl, hx⟩, fun n r _ hr => ?_⟩
  simp [hparse, h.stops hm hd hc hr]

theorem parse_ofOperator (hop : op ∈ ["!", "-", "+", "~", "typeof", "delete", "++", "--"]) (n : Nat)
    (r : List Lexeme) :
    parse n (.ofOperator op :: r) =
      (shrunk r (parse 16 r)).bind fun q => climb n (.unary {} op q.1) q.2 := by
  rw [parse.eq_def]
  simp only [List.mem_cons, List.not_mem_nil, or_false] at hop
  rcases hop with rfl | rfl | rfl | rfl | rfl | rfl | rfl | rfl <;>
    simp [Lexeme.ofOperator, reserved]

theorem ofOperator_not_closer : ∀ op ∈ ["!", "-", "+", "~", "typeof", "delete", "++", "--"],
    Lexeme.ofOperator op ∉ closers := by
  decide

theorem update (hop : op ∈ ["++", "--"]) (h : Parses Category.unary a t) :
    Parses Category.update (.ofOperator op :: a) (.unary {} op t) := by
  have hop' : op ∈ ["!", "-", "+", "~", "typeof", "delete", "++", "--"] := by
    simp only [List.mem_cons] at hop ⊢
    tauto
  exact h.operand (ofOperator_not_closer op hop') (parse_ofOperator hop') (by decide) (by decide)
    (by decide)

theorem unary (hop : op ∈ ["!", "-", "+", "~", "typeof", "delete"])
    (h : Parses Category.unary a t) :
    Parses Category.unary (.ofOperator op :: a) (.unary {} op t) := by
  have hop' : op ∈ ["!", "-", "+", "~", "typeof", "delete", "++", "--"] := by
    simp only [List.mem_cons] at hop ⊢
    tauto
  exact h.operand (ofOperator_not_closer op hop') (parse_ofOperator hop') (by decide) (by decide)
    (by decide)

theorem void (h : Parses Category.unary a t) :
    Parses Category.unary (.word "void" :: a) (.void {} t) := by
  refine h.operand (m := 16) (by simp) (fun n r => ?_) (by decide) (by decide) (by decide)
  rw [parse.eq_def]
  simp [reserved]

theorem spread (h : Parses assignment a t) : Parses element (.punct "..." :: a) (.spread {} t) := by
  refine h.operand (m := 2) (by simp) (fun n r => ?_) (by decide) (by decide) (by decide)
  rw [parse.eq_def]
  simp

theorem operations_rank : ∀ o ∈ operations, o.result.rank ≤ o.left.rank ∧
    o.result.rank ≤ o.left.bound ∧ o.result.bound ≤ o.right.bound ∧
    o.result.bound < o.right.rank := by
  decide

theorem binary {o : Operation} (ho : o ∈ operations) (hop : op ∈ o.ops) (ha : Parses o.left a t)
    (hb : Parses o.right b u) :
    Parses o.result (a ++ .ofOperator op :: b) (.binary {} {} t op u) := by
  obtain ⟨hleft, hfollow, hright, hstop⟩ := operations_rank o ho
  refine ⟨ha.opens_append _, fun n r hn hr => ?_⟩
  -- The left operand is read up to the operator, the right one up to what follows the whole.
  have hoperand := hb.stops (Nat.le_refl _) hright hstop hr
  rw [List.append_assoc, List.cons_append, ha.reads n _ (Nat.le_trans hn hleft)
    (.cons (reach_ofOperator o ho op hop) hfollow _), climb_binary t _ ho hop hn, hoperand]
  simp

theorem cond {v : Expr} {e : List Lexeme} (ha : Parses shortCircuit a t)
    (hb : Parses assignment b u) (he : Parses assignment e v) :
    Parses conditional (a ++ .punct "?" :: (b ++ .punct ":" :: e)) (.cond {} t u v) := by
  refine ⟨ha.opens_append _, fun n r hn hr => ?_⟩
  have hyes := hb.stops_at (n := 2) (by decide) reach_colon (e ++ r)
  have hno := he.stops (n := 2) (by decide) (Nat.le_refl _) (by decide) hr
  have htest := ha.reads n (.punct "?" :: (b ++ .punct ":" :: (e ++ r)))
    (Nat.le_trans hn (by decide)) (.cons reach_question (by decide) _)
  simpa [climb_cond t _ hn, hyes, hno] using htest

theorem arrowBare (hs : s ∉ reserved) (h : Parses assignment a t) :
    Parses assignment (.word s :: .punct "=>" :: a) (.arrow {} [nameParam s] .missing t) := by
  refine ⟨⟨_, _, rfl, by simp⟩, fun n r _ hr => ?_⟩
  have hbody := h.stops (n := 2) (by decide) (Nat.le_refl _) (by decide) hr
  rw [parse.eq_def]
  simp [hs, hbody]

/-- The lexemes of further names in a list. -/
def moreNames (ss : List String) : List Lexeme :=
  ss.flatMap fun s => [.punct ",", .word s]

theorem closed_moreNames (ss : List String) (r : List Lexeme) :
    Closed 0 (moreNames ss ++ .punct ")" :: r) := by
  cases ss with
  | nil => exact fun x hx m hm => by cases hx; cases hm
  | cons s ss => exact .cons reach_comma (Nat.le_refl 0) _

/-- Names with commas between them are read as an expression first. -/
theorem climb_moreNames {ss : List String} (hss : ∀ s ∈ ss, s ∉ reserved) (t : Expr)
    (r : List Lexeme) :
    climb 0 t (moreNames ss ++ .punct ")" :: r) = some (commaNames t ss, .punct ")" :: r) := by
  induction ss generalizing t with
  | nil => exact climb_stop t (by simp [moreNames])
  | cons s ss ih =>
    have hname := (name (hss s (by simp))).stops (n := 2) (m := 0) (by decide) (by decide)
      (by decide) (closed_moreNames ss r)
    have hcomma := climb_binary (n := 0) (o := ⟨expression, expression, [","], assignment⟩) t
      (.word s :: (moreNames ss ++ .punct ")" :: r)) (by simp [operations])
      (show "," ∈ [","] by simp) (Nat.zero_le _)
    rw [show moreNames (s :: ss) ++ .punct ")" :: r =
        .ofOperator "," :: .word s :: (moreNames ss ++ .punct ")" :: r) from rfl, hcomma,
      show parse assignment.rank (.word s :: (moreNames ss ++ .punct ")" :: r)) = _ from hname,
      shrunk_some (by simp)]
    exact ih (fun s' hs' => hss s' (by simp [hs'])) _

theorem arrow {ss : List String} (hss : ∀ s ∈ ss, s ∉ reserved) (h : Parses assignment a t) :
    Parses assignment (.punct "(" :: (nameList ss ++ .punct ")" :: .punct "=>" :: a))
      (.arrow {} (ss.map nameParam) .missing t) := by
  refine ⟨⟨_, _, rfl, by simp⟩, fun n r _ hr => ?_⟩
  have hbody := h.stops (n := 2) (by decide) (Nat.le_refl _) (by decide) hr
  cases ss with
  | nil => simpa [nameList] using parse_no_params (n := n) hbody (by simp)
  | cons s ss =>
    have hfirst := (name (hss s (by simp))).reads 0 _ (Nat.zero_le _)
      ((closed_moreNames ss (.punct "=>" :: (a ++ r))).mono (Nat.zero_le _))
    rw [climb_moreNames fun s' hs' => hss s' (by simp [hs'])] at hfirst
    have hnames := names?_commaNames (t := .ident { name := s }) ss rfl
    simpa [nameList, moreNames] using parse_params (n := n) (by simp) hfirst (by simp; omega)
      hnames hbody (by simp)

end Parses

namespace ParsesList

variable {a b : List Lexeme} {t : Expr} {es : List Expr}

theorem nil : ParsesList [] [] := by
  intro x hx r
  simp only [closers, List.mem_cons, List.not_mem_nil, or_false] at hx
  rcases hx with rfl | rfl <;> rw [parseElements.eq_def] <;> rfl

theorem parseElements_open {r : List Lexeme} (h : ∃ x xs, a = x :: xs ∧ x ∉ closers)
    (hread : parse 1 a = some (t, r)) (hlen : r.length ≤ a.length) :
    parseElements a = if r.head? = some (.punct ",") then
      (parseElements (r.drop 1)).bind fun p => some (t :: p.1, p.2) else some ([t], r) := by
  obtain ⟨x, xs, rfl, hx⟩ := h
  rw [parseElements.eq_def]
  simp [hx, hread, shrunk_some hlen]

theorem one (h : Parses element a t) : ParsesList a [t] := by
  intro x hx r
  have helement := h.stops_at (n := 1) (by decide) (reach_closer x hx) r
  rw [parseElements_open (h.opens_append _) helement (by simp), if_neg]
  intro heq
  cases heq
  simp [closers] at hx

theorem cons (h : Parses element a t) (hb : ParsesList b es) :
    ParsesList (a ++ .punct "," :: b) (t :: es) := by
  intro x hx r
  have helement := h.stops (n := 1) (m := 0) (by decide) (by decide) (by decide)
    (.cons reach_comma (Nat.le_refl 0) (b ++ x :: r))
  rw [List.append_assoc, List.cons_append,
    parseElements_open (h.opens_append _) helement (by simp)]
  simp [hb x hx r]

end ParsesList

mutual

theorem Derives.parses {c : Category} {a : List Lexeme} {t : Expr} : Derives c a t → Parses c a t
  | .wider hc ha => ha.parses.wider hc
  | .name hs => .name hs
  | .this => .this
  | .bool b => .bool b
  | .number s => .number s
  | .string v => .string v
  | .array ha => .array ha.parses
  | .paren ha => .paren ha.parses
  | .access hc ha => ha.parses.access hc
  | .optional hc ha => ha.parses.optional hc
  | .index hc ha hb => ha.parses.index hc hb.parses
  | .call hc ha hb => ha.parses.call hc hb.parses
  | .new ha hb => ha.parses.new hb.parses
  | .newBare ha => ha.parses.newBare
  | .update hop ha => ha.parses.update hop
  | .unary hop ha => ha.parses.unary hop
  | .void ha => ha.parses.void
  | .binary ho hop ha hb => .binary ho hop ha.parses hb.parses
  | .cond ha hb hd => ha.parses.cond hb.parses hd.parses
  | .arrow hss ha => ha.parses.arrow hss
  | .arrowBare hs ha => ha.parses.arrowBare hs
  | .spread ha => ha.parses.spread

theorem Elements.parses {a : List Lexeme} {es : List Expr} : Elements a es → ParsesList a es
  | .nil => .nil
  | .one ha => .one ha.parses
  | .cons ha hb => .cons ha.parses hb.parses

end

/-- The lexemes of an expression have one tree. -/
theorem Derives.unique {c : Category} {a : List Lexeme} {t u : Expr} (ht : Derives c a t)
    (hu : Derives c a u) : t = u := by
  have hend : Closed c.bound [] := by simp [Closed]
  have hread : ∀ v, Derives c a v → parse c.rank (a ++ []) = some (v, []) := fun v hv => by
    rw [hv.parses.reads _ _ (Nat.le_refl _) hend, climb_stop v (by simp)]
  have heq := (hread t ht).symm.trans (hread u hu)
  simpa using heq

/-- A text is read as one tree. -/
theorem Reads.unique {A : Alphabet} {s : String} {t u : Expr} (ht : Reads A s t)
    (hu : Reads A s u) : t = u := by
  obtain ⟨xs, hxs, ht⟩ := ht
  obtain ⟨ys, hys, hu⟩ := hu
  obtain rfl := hxs.unique hys
  exact ht.unique hu

end ExtensionLowering.Grammar
