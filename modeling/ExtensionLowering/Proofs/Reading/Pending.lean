import ExtensionLowering.Proofs.Reading.Unambiguous
/-!
# Constructors that wait for their arguments

When the reader meets `new` it reads a callee and then looks for arguments. Behind several of them
in a row the callee of the innermost is read first, so an argument list that follows belongs to the
innermost constructor that has none yet, and to a call only when no constructor is left. An optional
access ends the callees of all of them.

## Main definitions

* `pending`: the lexemes of constructors in a row.
* `resume`: how the reader goes on behind the callee of constructors that wait.
-/
namespace ExtensionLowering.Grammar

open Category

variable {xs : List Lexeme} {α : Type} {o : Option (α × List Lexeme)}

/-- The words of some constructors in a row. -/
def pending (k : Nat) : List Lexeme :=
  List.replicate k (.word "new")

theorem pending_succ (k : Nat) : pending (k + 1) = .word "new" :: pending k := rfl

theorem pending_append (k : Nat) (xs : List Lexeme) :
    pending k ++ .word "new" :: xs = pending (k + 1) ++ xs := by
  simp [pending, List.replicate_succ']

/-- What the reader does behind the callee of a constructor: it takes arguments if there are any. -/
def construct (n : Nat) (t : Expr) (r : List Lexeme) : Option (Expr × List Lexeme) :=
  if r.head? = some (.punct "(") then
    (shrunk (r.drop 1) (parseElements (r.drop 1))).bind fun q =>
      climb n (.new {} t [] q.1) (q.2.val.drop 1)
  else climb n (.new {} t [] []) r

/-- Reads on behind the callee of some constructors that wait for their arguments. -/
def resume (n : Nat) : Nat → Expr → List Lexeme → Option (Expr × List Lexeme)
  | 0, t, xs => climb n t xs
  | k + 1, t, xs => (resume 19 k t xs).bind fun q => construct n q.1 q.2

/-- Constructor calls without arguments around a callee. -/
def constructed (k : Nat) (t : Expr) : Expr :=
  match k with
  | 0 => t
  | k + 1 => .new {} (constructed k t) [] []

/-! ## Nothing is put back -/

/-- What is left of some lexemes is no longer than they are. -/
def Shrinks {α : Type} (xs : List Lexeme) (o : Option (α × List Lexeme)) : Prop :=
  ∀ q ∈ o, q.2.length ≤ xs.length

theorem shrunk_bind {β : Type} (h : Shrinks xs o) (f : α → List Lexeme → Option β) :
    (shrunk xs o).bind (fun q => f q.1 q.2) = o.bind fun q => f q.1 q.2 := by
  cases o with
  | none => rfl
  | some q =>
    obtain ⟨t, r⟩ := q
    rw [shrunk_some (h (t, r) rfl)]
    rfl

theorem Shrinks.mono {ys : List Lexeme} (h : Shrinks xs o)
    (hle : xs.length ≤ ys.length) : Shrinks ys o :=
  fun q hq => Nat.le_trans (h q hq) hle

theorem Shrinks.drop {k : Nat} (h : Shrinks (xs.drop k) o) : Shrinks xs o :=
  h.mono (by simp)

/-- What follows a part that has been read is read on. -/
theorem Shrinks.bind {β : Type} {ys : List Lexeme}
    {f : α × { r : List Lexeme // r.length ≤ xs.length } → Option (β × List Lexeme)}
    (hle : xs.length ≤ ys.length) (h : ∀ q, Shrinks q.2.val (f q)) :
    Shrinks ys ((shrunk xs o).bind f) := by
  intro p hp
  obtain ⟨q, -, hq⟩ := Option.bind_eq_some_iff.1 hp
  exact Nat.le_trans (h q p hq) (Nat.le_trans q.2.property hle)

theorem climb_shrinks (n : Nat) (t : Expr) (xs : List Lexeme) : Shrinks xs (climb n t xs) := by
  cases xs with
  | nil =>
    rw [climb.eq_def]
    rintro q ⟨⟩
    exact Nat.le_refl 0
  | cons x r =>
    have ih : ∀ u ys, ys.length ≤ r.length → Shrinks ys (climb n u ys) :=
      fun u ys _ => climb_shrinks n u ys
    rw [climb.eq_def]
    dsimp only
    split
    · split
      · exact .bind (Nat.le_succ _) fun q => ih _ _ q.2.property
      · split
        · exact (ih _ _ (by simp)).mono (by simp; omega)
        · exact (ih _ _ (by simp)).mono (by simp; omega)
        · exact .bind (Nat.le_succ _) fun q => (ih _ _ (by grind)).drop
        · exact .bind (Nat.le_succ _) fun q => (ih _ _ (by grind)).drop
        · exact .bind (Nat.le_succ _) fun q =>
            .bind (by simp) fun p => ih _ _ (by grind)
        · rintro q ⟨⟩
    · rintro q ⟨⟩
      exact Nat.le_refl _
termination_by xs.length

theorem construct_shrinks (n : Nat) (t : Expr) (r : List Lexeme) : Shrinks r (construct n t r) := by
  rw [construct]
  split
  · exact .bind (by simp) fun q => (climb_shrinks n _ _).drop
  · exact climb_shrinks n _ _

theorem resume_shrinks (n k : Nat) (t : Expr) (xs : List Lexeme) :
    Shrinks xs (resume n k t xs) := by
  induction k generalizing n with
  | zero => exact climb_shrinks n t xs
  | succ k ih =>
    intro p hp
    obtain ⟨q, hq, hp⟩ := Option.bind_eq_some_iff.1 hp
    exact Nat.le_trans (construct_shrinks n q.1 q.2 p hp) (ih 19 q hq)

/-! ## Reading on behind a callee -/

theorem parse_new (n : Nat) (r : List Lexeme) :
    parse n (.word "new" :: r) =
      (shrunk r (parse 19 r)).bind fun q => construct n q.1 q.2 := by
  rw [parse.eq_def]
  simp [reserved, construct]

/-- Behind constructors in a row the innermost callee is read first. -/
theorem parse_pending {a : List Lexeme} {t : Expr} {r : List Lexeme}
    (h : ∀ n ≤ 19, parse n (a ++ r) = climb n t r) {n : Nat} (hn : n ≤ 19) (k : Nat) :
    parse n (pending k ++ (a ++ r)) = resume n k t r := by
  induction k generalizing n with
  | zero => exact h n hn
  | succ k ih =>
    have hshrinks : Shrinks (pending k ++ (a ++ r)) (resume 19 k t r) :=
      (resume_shrinks 19 k t r).mono (by simp; omega)
    rw [pending_succ, List.cons_append, parse_new, ih (Nat.le_refl 19),
      shrunk_bind hshrinks (construct n), resume]

section Steps

variable {n k : Nat} {t u : Expr} {b : List Lexeme} {es : List Expr}

theorem resume_access (hn : n ≤ 19) (k : Nat) (t : Expr) (s : String) (r : List Lexeme) :
    resume n k t (.punct "." :: .word s :: r) =
      resume n k (.prop {} {} t (some { name := s }) false) r := by
  induction k generalizing n with
  | zero => exact climb_access t s r hn
  | succ k ih => rw [resume, resume, ih (Nat.le_refl 19)]

theorem resume_index (hn : n ≤ 19) (k : Nat) (t : Expr) (hb : Parses expression b u)
    (r : List Lexeme) :
    resume n k t (.punct "[" :: (b ++ .punct "]" :: r)) = resume n k (.elem {} {} t u) r := by
  induction k generalizing n with
  | zero =>
    have hindex := hb.stops_at (Nat.zero_le _) reach_closeIndex r
    simp [resume, climb_index t _ hn, hindex]
  | succ k ih => rw [resume, resume, ih (Nat.le_refl 19)]

/-- Arguments go to the innermost constructor that waits. -/
theorem resume_arguments (n k : Nat) (t : Expr) (hb : ParsesList b es) (r : List Lexeme) :
    resume n (k + 1) t (.punct "(" :: (b ++ .punct ")" :: r)) =
      resume n k (.new {} t [] es) r := by
  induction k generalizing n with
  | zero =>
    have hcallee : climb 19 t (.punct "(" :: (b ++ .punct ")" :: r)) =
        some (t, .punct "(" :: (b ++ .punct ")" :: r)) := climb_stop t (by simp)
    have hargs := hb (.punct ")") (by simp [closers]) r
    simp [resume, hcallee, construct, hargs]
  | succ k ih => rw [resume, ih, resume]

/-- Arguments are those of a call if no constructor waits. -/
theorem resume_call (hn : n ≤ 18) (t : Expr) (hb : ParsesList b es) (r : List Lexeme) :
    resume n 0 t (.punct "(" :: (b ++ .punct ")" :: r)) =
      resume n 0 (.call {} {} t [] es) r := by
  have hargs := hb (.punct ")") (by simp [closers]) r
  simp [resume, climb_call t _ hn, hargs]

/-- No callee of a constructor goes on behind an optional access. -/
theorem resume_callee (k : Nat) (t : Expr) (s : String) (r : List Lexeme) :
    resume 19 k t (.punct "?." :: .word s :: r) =
      some (constructed k t, .punct "?." :: .word s :: r) := by
  have hstop : ∀ u, climb 19 u (.punct "?." :: .word s :: r) =
      some (u, .punct "?." :: .word s :: r) := fun u => climb_stop u (by simp)
  induction k with
  | zero => exact hstop t
  | succ k ih =>
    rw [resume, ih, Option.bind_some, construct, if_neg (by simp)]
    exact hstop _

theorem resume_optional (hn : n ≤ 18) (k : Nat) (t : Expr) (s : String) (r : List Lexeme) :
    resume n k t (.punct "?." :: .word s :: r) =
      resume n 0 (.prop {} {} (constructed k t) (some { name := s }) true) r := by
  cases k with
  | zero => exact climb_optional t s r hn
  | succ k =>
    have hbare : construct n (constructed k t) (.punct "?." :: .word s :: r) =
        climb n (constructed (k + 1) t) (.punct "?." :: .word s :: r) := if_neg (by simp)
    calc resume n (k + 1) t (.punct "?." :: .word s :: r)
        = climb n (constructed (k + 1) t) (.punct "?." :: .word s :: r) := by
          rw [resume, resume_callee, Option.bind_some, hbare]
      _ = climb n (.prop {} {} (constructed (k + 1) t) (some { name := s }) true) r :=
          climb_optional _ s r hn

end Steps

end ExtensionLowering.Grammar
