import ExtensionLowering.Proofs.Lowering.PinOrder
/-!
# Every pin is placed once

Placing the pins of a scope puts copies between its statements and changes nothing else. The result
is read as a list of groups, one for each statement: the statement and the copies right behind it.
The pins that are left over copy nothing that a constant of the scope declares.

## Main definitions

* `Pin.DeclaredAt`: the constants that declare what is copied.
* `Pin.Placed`: what placing pins among statements gives.

## Main results

* `Lower.pins_placed_once`: each pin of a scope gets its place, once.
-/
namespace ExtensionLowering

open List

namespace Pin

variable {p : Pin} {ps : List Pin} {s : Stmt} {ss : List Stmt}

/-- A declarator of a constant has the name that is copied. Their lines agree if both are known. -/
def DeclaredAt (p : Pin) (s : Stmt) : Prop :=
  ∃ token exported ds, s = .varDecl token exported .const ds ∧ ∃ d ∈ ds,
    (∃ id, d.name = some id ∧ id.name = p.name) ∧
      (p.line = 0 ∨ d.token.hasPosition = false ∨ p.line = d.token.line)

/-- The pins `ps` are placed among the statements `ss`. This gives the statements `out`, which the
groups `gs` are read from, and leaves over the pins `rest`. -/
structure Placed (ps : List Pin) (ss out : List Stmt) (rest : List Pin)
    (gs : List (Stmt × List Pin)) : Prop where
  out_eq : out = gs.flatMap fun g =>
    g.1 :: g.2.map fun p => .copying p.ident.token p.ident p.name
  /-- Without the copies, the statements are those given. -/
  stmts_eq : gs.map (·.1) = ss
  pins_perm : (gs.flatMap (·.2) ++ rest).Perm ps
  /-- A copy follows the first constant that declares what is copied. -/
  first : ∀ before s copies after, gs = before ++ (s, copies) :: after →
    ∀ p ∈ copies, p.DeclaredAt s ∧ ∀ g ∈ before, ¬ p.DeclaredAt g.1
  rest_undeclared : ∀ p ∈ rest, ∀ s ∈ ss, ¬ p.DeclaredAt s
  rest_order : rest.Sublist ps

theorem takenBy_iff_declaredAt : p.takenBy s ↔ p.DeclaredAt s := by
  cases s with
  | varDecl token exported kind ds =>
    cases kind with
    | const => simp [takenBy, constants, DeclaredAt, fits, Option.any_eq_true, or_iff_not_imp_left]
    | _ => simp [takenBy, constants, DeclaredAt]
  | _ => simp [takenBy, constants, DeclaredAt]

/-- The pins behind a statement are copies of what it declares. -/
theorem declaredAt_of_mem_after (h : p ∈ (after ps s).1) : p.DeclaredAt s := by
  have htaken := (after_taken ps s).subset h
  exact takenBy_iff_declaredAt.1 (mem_filter.1 htaken).2

theorem not_declaredAt_of_mem_rest (h : p ∈ (after ps s).2) : ¬ p.DeclaredAt s := by
  rw [after_rest] at h
  simpa [← takenBy_iff_declaredAt] using (mem_filter.1 h).2

theorem after_perm (ps : List Pin) (s : Stmt) : ((after ps s).1 ++ (after ps s).2).Perm ps :=
  take_perm ps (constants s)

namespace Placed

variable {out : List Stmt} {rest : List Pin} {gs : List (Stmt × List Pin)}

theorem nil (ps : List Pin) : Placed ps [] [] ps [] where
  out_eq := rfl
  stmts_eq := rfl
  pins_perm := .refl _
  first := by simp
  rest_undeclared := by simp
  rest_order := .refl _

/-- One more statement in front takes its copies away from those that follow. -/
theorem cons (h : Placed (after ps s).2 ss out rest gs) :
    Placed ps (s :: ss) (s :: (after ps s).1.map stmt ++ out) rest ((s, (after ps s).1) :: gs) where
  out_eq := by
    rw [h.out_eq, flatMap_cons]
    rfl
  stmts_eq := by rw [map_cons, h.stmts_eq]
  pins_perm := by
    rw [flatMap_cons, append_assoc]
    exact (h.pins_perm.append_left _).trans (after_perm ps s)
  first := by
    intro before s' copies behind hgs p hp
    obtain ⟨rfl, hgs⟩ | ⟨before, rfl, rfl⟩ := cons_eq_append_iff.1 hgs
    · obtain ⟨⟨rfl, rfl⟩, -⟩ := by simpa using hgs
      exact ⟨declaredAt_of_mem_after hp, by simp⟩
    · obtain ⟨hdeclared, hbefore⟩ := h.first before s' copies behind rfl p hp
      have hp : p ∈ (after ps s).2 := h.pins_perm.subset (by simp [hp])
      exact ⟨hdeclared, forall_mem_cons.2 ⟨not_declaredAt_of_mem_rest hp, hbefore⟩⟩
  rest_undeclared p hp := forall_mem_cons.2
    ⟨not_declaredAt_of_mem_rest (h.rest_order.subset hp), h.rest_undeclared p hp⟩
  rest_order := by
    refine h.rest_order.trans ?_
    rw [after_rest]
    exact filter_sublist

end Placed

theorem exists_placed (ps : List Pin) (ss : List Stmt) :
    ∃ gs, Placed ps ss (place ps ss).1 (place ps ss).2 gs := by
  induction ss generalizing ps with
  | nil => exact ⟨[], .nil ps⟩
  | cons s ss ih =>
    obtain ⟨gs, hgs⟩ := ih (after ps s).2
    exact ⟨_, hgs.cons⟩

/-- Pins can be looked for among declarators that have names. -/
theorem unnamed_eq_false {ds : List Declarator} (h : ∀ d ∈ ds, d.name.isSome) (ps : List Pin) :
    unnamed ps ds = false := by
  induction ds generalizing ps with
  | nil => rfl
  | cons d ds ih =>
    obtain ⟨hd, hds⟩ := forall_mem_cons.1 h
    simp [unnamed, ih hds, Option.isNone_eq_false_iff.2 hd]

theorem blocked_eq_false (h : ∀ s ∈ ss, ∀ d ∈ constants s, d.name.isSome) (ps : List Pin) :
    blocked ps ss = false := by
  induction ss generalizing ps with
  | nil => rfl
  | cons s ss ih =>
    obtain ⟨hs, hss⟩ := forall_mem_cons.1 h
    rw [blocked, unnamed_eq_false hs, ih hss, Bool.or_false]

end Pin

namespace Lower

/-- Placing the pins of a scope among statements leaves the statements as they are, and each pin is
there once: behind the first constant that declares what it copies, or left over if there is none. A
missing name of a constant apart, nothing else happens. The pins of other scopes wait on, and a
second call for the scope has nothing to place. -/
theorem pins_placed_once (hs : Hoists) (scope : Scope) (ss : List Stmt) (u : Lowering) :
    let ran := ((placeHoists scope ss).run hs).run u
    (∃ gs, Pin.Placed (hs.pins scope) ss ran.1.1.1 ran.1.1.2 gs) ∧
    ((∀ s ∈ ss, ∀ d ∈ Pin.constants s, d.name.isSome) → ran.2 = u) ∧
    (∀ other, other ≠ scope → ran.1.2.pins other = hs.pins other) ∧
    ∀ again v, ((placeHoists scope again).run ran.1.2).run v = (((again, []), ran.1.2), v) := by
  intro ran
  have hrun : ran = ((((placePins (hs.pins scope) ss).run u).1, hs.delete scope),
      ((placePins (hs.pins scope) ss).run u).2) := rfl
  rw [hrun]
  refine ⟨?_, fun hnamed => ?_, fun other hne => hs.pins_delete_of_ne hne, fun again v => ?_⟩
  · rw [(placePins_run _ ss u).1]
    exact Pin.exists_placed _ ss
  · rw [placePins, Pin.blocked_eq_false hnamed]
    rfl
  · have hagain : ((placeHoists scope again).run (hs.delete scope)).run v =
        ((((placePins ((hs.delete scope).pins scope) again).run v).1,
          (hs.delete scope).delete scope),
          ((placePins ((hs.delete scope).pins scope) again).run v).2) := rfl
    rw [hagain, Hoists.pins_delete, placePins_nil, Hoists.delete_delete]
    rfl

/-- Three instances, of which `ord` is declared on line 9 and `show` on an unknown line. -/
def instanceEnv : Env where
  compilation :=
    { declarations := #[{ name := "eq", kind := .variable, line := 2 },
        { name := "ord", kind := .variable, line := 9 }, { name := "show", kind := .variable }] }

/-- The declarator `name = make` on a line. -/
def instanceDeclarator (name : String) (line : Int) : Declarator :=
  .mk { line := line } (some { name := name }) .missing (.ident { name := "make" })

/-- `const names = make`, all on one line. -/
def instanceStmt (line : Int) (names : List String) : Stmt :=
  .varDecl {} false .const (names.map (instanceDeclarator · line))

/-- `const ord = make, eq = make; const show = make; const eq = make;` on lines 2, 3 and an unknown
one. -/
def instanceStmts : List Stmt :=
  [instanceStmt 2 ["ord", "eq"], instanceStmt 3 ["show"], instanceStmt 0 ["eq"]]

/-- `const name_1 = name` -/
def instancePin (name : String) (line : Int) (mark : Nat) : Pin :=
  { name := name, line := line,
    ident := { Ident.synthetic (numbered name 1) with mark := some mark } }

/-- `eq` is copied behind the first constant that may declare it, `show` behind its own, and the `ord`
of line 9 is not there. -/
theorem pins_placed_once_lines :
    let listed := ((registerHoists instanceEnv .file [0, 1, 2]).run []).run { names := .begin {} }
    let eq := instancePin "eq" 2 0
    let ord := instancePin "ord" 9 1
    let shown := instancePin "show" 0 2
    let placed := ((placeHoists .file instanceStmts).run listed.1.2).run listed.2
    (∀ s ∈ instanceStmts, ∀ d ∈ Pin.constants s, d.name.isSome) ∧
    listed.1.2 = [(.file, [eq, ord, shown])] ∧
    placed = ((([instanceStmt 2 ["ord", "eq"], .copying eq.ident.token eq.ident "eq",
      instanceStmt 3 ["show"], .copying shown.ident.token shown.ident "show",
      instanceStmt 0 ["eq"]], [ord]), []), listed.2) ∧
    ((placeHoists .file instanceStmts).run placed.1.2).run placed.2 =
      (((instanceStmts, []), []), placed.2) := by
  intro listed eq ord shown placed
  have hnamed : ∀ s ∈ instanceStmts, ∀ d ∈ Pin.constants s, d.name.isSome := by
    simp [instanceStmts, instanceStmt, Pin.constants, instanceDeclarator, Declarator.name]
  obtain ⟨-, hstate, -, hagain⟩ := pins_placed_once listed.1.2 .file instanceStmts listed.2
  exact ⟨hnamed, rfl, Prod.ext rfl (hstate hnamed), hagain instanceStmts placed.2⟩

end Lower

end ExtensionLowering
