import ExtensionLowering.Proofs.Lowering.Grouping
import ExtensionLowering.Proofs.Lowering.Scoping
/-!
# The order of declarations and pinned copies

A pinned copy stands right behind the first constant of its scope that declares what is copied. A
copy of anything else stands in front of the whole scope, also when one of its statements is a
variable or a class that declares it. So the copy of what a single statement declares is taken
after the declaration exactly if that statement is a constant.

## Main definitions

* `Pin.declaredBy`: the statements that declare what is copied.
* `Pin.first`: the copies whose first constant is among some statements of a scope.

## Main results

* `Session.copies_behind_constants`: what stands before and behind each statement of a scope.
-/
namespace ExtensionLowering

open List

def Stmt.isConstant : Stmt → Bool
  | .varDecl _ _ .const _ => true
  | _ => false

namespace Pin

variable (ps : List Pin) (ss : List Stmt) (ds : List Declarator)

/-- Does a constant declare what is copied? -/
def takenBy (p : Pin) (s : Stmt) : Bool :=
  (constants s).any p.fits

/-- Does a statement declare what is copied, as a constant, a variable of the block or a class? -/
def declaredBy (p : Pin) : Stmt → Bool
  | .varDecl _ _ .const ds | .varDecl _ _ .let ds => ds.any p.fits
  | .classDecl t _ name _ _ => p.fits (.mk t name .missing .missing)
  | _ => false

/-- Is the first constant that declares what is copied among `ss`, when these follow `before`? -/
def first (before ss : List Stmt) (p : Pin) : Bool :=
  ! before.any p.takenBy && ss.any p.takenBy

theorem takenBy_iff {p : Pin} {s : Stmt} : p.takenBy s ↔ s.isConstant ∧ p.declaredBy s := by
  cases s with
  | varDecl t exported kind ds =>
    cases kind <;> simp [takenBy, constants, declaredBy, Stmt.isConstant]
  | _ => simp [takenBy, constants, Stmt.isConstant]

/-- The statements and copies of a scope around one of its statements, `s`: the copies `rest` in
front of the scope, the statements before `s` with copies between them, the copies right behind `s`,
and the statements behind it with copies between them. -/
structure Split (ps : List Pin) (before : List Stmt) (s : Stmt) (after : List Stmt)
    (rest : List Pin) (front : List Stmt) (copies : List Pin) (back : List Stmt) : Prop where
  rest_eq : rest = ps.filter fun p => ! (before ++ s :: after).any p.takenBy
  front_perm : front.Perm (before ++ (ps.filter fun p => before.any p.takenBy).map stmt)
  front_order : before.Sublist front
  copies_perm : copies.Perm (ps.filter (first before [s]))
  back_perm : back.Perm (after ++ (ps.filter (first (before ++ [s]) after)).map stmt)
  back_order : after.Sublist back

/-- The copy of what a single statement of a scope declares stands right behind the statement if it
is a constant, and in front of the scope otherwise. -/
theorem Split.mem_iff {ps : List Pin} {before after front back : List Stmt} {s : Stmt}
    {rest copies : List Pin} (h : Split ps before s after rest front copies back) {p : Pin}
    (hp : p ∈ ps) (hs : p.declaredBy s) (hother : ∀ t ∈ before ++ after, ¬ p.declaredBy t) :
    (p ∈ copies ↔ s.isConstant) ∧ (p ∈ rest ↔ ¬ s.isConstant) := by
  have hother (t : Stmt) (ht : t ∈ before ++ after) : p.takenBy t = false := by
    simpa using fun h => hother t ht (takenBy_iff.1 h).2
  have hbefore : before.any p.takenBy = false := by
    simpa using fun t ht => hother t (mem_append_left _ ht)
  have hafter : after.any p.takenBy = false := by
    simpa using fun t ht => hother t (mem_append_right _ ht)
  have htaken : p.takenBy s = s.isConstant := by
    rw [Bool.eq_iff_iff, takenBy_iff]
    exact and_iff_left hs
  rw [h.copies_perm.mem_iff, h.rest_eq, mem_filter, mem_filter, any_append]
  simp [first, hbefore, hafter, htaken, hp]

/-! ## Placing -/

theorem filter_or_perm (q r : Pin → Bool) (ps : List Pin) :
    (ps.filter q ++ (ps.filter (! q ·)).filter r).Perm (ps.filter fun p => q p || r p) := by
  induction ps with
  | nil => exact .nil
  | cons p ps ih =>
    cases hq : q p with
    | true => simpa [hq] using ih
    | false =>
      cases hr : r p with
      | true => simpa [hq, hr] using perm_middle.trans (ih.cons p)
      | false => simpa [hq, hr] using ih

theorem take_rest : (take ps ds).2 = ps.filter fun p => ! ds.any p.fits := by
  induction ds generalizing ps with
  | nil => simp [take]
  | cons d ds ih =>
    simp [take, ih, partition_eq_filter_filter, Function.comp_def, Bool.and_comm]

theorem take_taken : (take ps ds).1.Perm (ps.filter fun p => ds.any p.fits) := by
  induction ds generalizing ps with
  | nil => simp [take]
  | cons d ds ih =>
    simp only [take, partition_eq_filter_filter, any_cons]
    exact ((ih _).append_left _).trans (filter_or_perm (·.fits d) _ ps)

theorem after_rest (s : Stmt) : (after ps s).2 = ps.filter (! ·.takenBy s) :=
  take_rest ps (constants s)

theorem after_taken (s : Stmt) : (after ps s).1.Perm (ps.filter (·.takenBy s)) :=
  take_taken ps (constants s)

theorem place_rest : (place ps ss).2 = ps.filter fun p => ! ss.any p.takenBy := by
  induction ss generalizing ps with
  | nil => simp [place]
  | cons s ss ih =>
    rw [place_cons, ih, after_rest]
    simp [Bool.and_comm]

theorem place_append (ss ts : List Stmt) :
    (place ps (ss ++ ts)).1 = (place ps ss).1 ++ (place (place ps ss).2 ts).1 := by
  induction ss generalizing ps with
  | nil => rfl
  | cons s ss ih => simp [place_cons, ih]

theorem sublist_place : ss.Sublist (place ps ss).1 := by
  induction ss generalizing ps with
  | nil => exact .slnil
  | cons s ss ih =>
    rw [place_cons]
    exact ((ih _).trans (sublist_append_right _ _)).cons_cons s

/-- Besides the statements there are the copies of what their constants declare. -/
theorem place_perm :
    (place ps ss).1.Perm (ss ++ (ps.filter fun p => ss.any p.takenBy).map stmt) := by
  induction ss generalizing ps with
  | nil => simp [place]
  | cons s ss ih =>
    have hcopies : ((after ps s).1 ++ (after ps s).2.filter fun p => ss.any p.takenBy).Perm
        (ps.filter fun p => (s :: ss).any p.takenBy) := by
      rw [after_rest]
      exact ((after_taken ps s).append_right _).trans (filter_or_perm (·.takenBy s) _ ps)
    rw [place_cons]
    refine .cons s (((ih _).append_left _).trans (.trans ?_ ((hcopies.map stmt).append_left ss)))
    rw [map_append, ← append_assoc, ← append_assoc]
    exact perm_append_comm.append_right _

theorem filter_place_rest (before ss : List Stmt) :
    ((place ps before).2.filter fun p => ss.any p.takenBy) = ps.filter (first before ss) := by
  rw [place_rest, filter_filter]
  exact filter_congr fun p _ => Bool.and_comm _ _

/-- A scope can be split at any of its statements. -/
theorem exists_split (before : List Stmt) (s : Stmt) (after : List Stmt) :
    ∃ (rest : List Pin) (front : List Stmt) (copies : List Pin) (back : List Stmt),
      Split ps before s after rest front copies back ∧
      place ps (before ++ s :: after) = (front ++ s :: copies.map stmt ++ back, rest) := by
  have hleft : (Pin.after (place ps before).2 s).2 = (place ps (before ++ [s])).2 := by
    rw [after_rest, place_rest, place_rest, filter_filter]
    exact filter_congr fun p _ => by simp [Bool.and_comm]
  have hcopies := after_taken (place ps before).2 s
  have hback := place_perm (place ps (before ++ [s])).2 after
  rw [filter_place_rest] at hback
  refine ⟨_, (place ps before).1, (Pin.after (place ps before).2 s).1, _,
    ⟨rfl, place_perm ps before, sublist_place ps before, ?_, hback, sublist_place _ after⟩, ?_⟩
  · rw [← filter_place_rest]
    simpa using hcopies
  · rw [← place_rest, Prod.ext_iff, place_append, place_cons, hleft]
    simp

end Pin

/-! ## Scopes -/

/-- What a copy is of can be seen from outside. -/
theorem Pin.declaredBy_outline (p : Pin) (s : Stmt) : p.declaredBy s.outline = p.declaredBy s := by
  have hfits (d : Declarator) : p.fits (.mk d.token d.name .missing .missing) = p.fits d := by
    cases d
    rfl
  cases s with
  | varDecl t exported kind ds =>
    cases kind <;> simp [declaredBy, Stmt.outline, Function.comp_def, hfits]
  | _ => rfl

theorem Stmt.isConstant_outline (s : Stmt) : s.outline.isConstant = s.isConstant := by
  cases s with
  | varDecl t exported kind ds => cases kind <;> rfl
  | _ => rfl

namespace Session

variable (session : Session) (f : File)

/-- The copies that a file lists. -/
def pins : List Pin :=
  ((Lower.registerPins (session.env f) f.unique).run (session.start f)).1

/-- What a statement becomes in the output when declarations have moved to their aliases. -/
def emit (s : Stmt) : List Stmt :=
  ((session.aliases f).moveStmt s).map (session.finish f)

theorem walk_eq_place : (session.walk f).1 = Pin.place (session.pins f) (session.rewritten f) :=
  (Lower.placePins_run _ _ _).1

/-- There is a copy for each declaration that a file lists. -/
theorem copy_mem_pins {d : DeclId} (hd : d ∈ f.unique) :
    ∃ id, (session.env f).copy d id ∈ session.pins f := by
  obtain ⟨new, hnew, hpins⟩ :=
    Lower.registerPins_spec (session.env f) f.unique (session.start f)
  obtain ⟨id, hid⟩ := hnew.registered d hd rfl
  exact ⟨id, (hpins _).2 ⟨d, id, hid, rfl⟩⟩

/-- Copies remain single statements, under the aliases of their names. -/
theorem flatMap_emit_pins (ps : List Pin) : (ps.map Pin.stmt).flatMap (session.emit f) =
    ps.map fun p => session.copied f p
      (((session.aliases f).lookup p.ident.name).elim p.ident (·.ident)) := by
  have hpin (p : Pin) : session.emit f p.stmt = [session.copied f p
      (((session.aliases f).lookup p.ident.name).elim p.ident (·.ident))] := by
    rw [emit, Aliases.moveStmt_copy, map_singleton, finish_copying, copied]
  rw [flatMap_map, map_eq_flatMap]
  exact congrArg ps.flatMap (funext hpin)

theorem lower_emit {out : File} (h : session.Lowers f out) :
    out.stmts = preamble (session.env f) (session.walk f).2 ++
      (Pin.place (session.pins f) (session.rewritten f)).2.map (fun p =>
        session.copied f p p.ident) ++
      (Pin.place (session.pins f) (session.rewritten f)).1.flatMap (session.emit f) := by
  rw [session.lower_finish f h, walk_eq_place, map_append, map_map, Aliases.moveAll,
    map_flatMap, append_assoc]
  simp only [copied, ← finish_copying]
  rfl

/-- In a block and in a file, what stands before and behind a statement is told by the constants: a
copy follows the first one that declares what is copied. If a single statement declares it, its copy
is taken right behind the statement when it is a constant; a copy of a variable or a class is taken
in front of the whole scope. The last pass finishes each statement. -/
theorem copies_behind_constants :
    (∀ (ps : List Pin) (before : List Stmt) (s : Stmt) (after : List Stmt) (u : Lowering),
      ∃ rest front copies back, Pin.Split ps before s after rest front copies back ∧
        ((Lower.insertPins ps (before ++ s :: after)).run u).1 =
          rest.map (fun p => .copying p.ident.token p.ident p.name) ++ (front ++
            s :: copies.map (fun p => .copying p.ident.token p.ident p.name) ++ back)) ∧
    (∀ out, (session.lower f).1 = .lowered out →
      (∀ d ∈ f.unique, ∃ id, (session.env f).copy d id ∈ session.pins f) ∧
      List.Forall₂ (fun s s' => s'.isConstant = s.isConstant ∧ ∀ p : Pin,
        p.declaredBy s' = p.declaredBy s) f.stmts (session.rewritten f) ∧
      ∀ before s after, session.rewritten f = before ++ s :: after → ∃ rest front copies back,
        Pin.Split (session.pins f) before s after rest front copies back ∧
        out.stmts = preamble (session.env f) (session.walk f).2 ++
          rest.map (fun p => session.copied f p p.ident) ++
          (front.flatMap (session.emit f) ++ session.emit f s ++
            copies.map (fun p => session.copied f p
              (((session.aliases f).lookup p.ident.name).elim p.ident (·.ident))) ++
            back.flatMap (session.emit f))) ∧
    (∀ s, ∃ group, session.emit f s = group.map (session.finish f) ∧ Among Inserted
      (((session.aliases f).split s).map
        ((session.aliases f).underAlias)) group) ∧
    (∀ s, session.Finishes f s (session.finish f s)) ∧
    ∀ ps before s after rest front copies back, Pin.Split ps before s after rest front copies back →
      ∀ p ∈ ps, p.declaredBy s → (∀ t ∈ before ++ after, ¬ p.declaredBy t) →
        (p ∈ copies ↔ s.isConstant) ∧ (p ∈ rest ↔ ¬ s.isConstant) := by
  refine ⟨fun ps before s after u => ?_, fun out hout => ⟨fun d => session.copy_mem_pins f, ?_, ?_⟩,
    fun s => ⟨_, rfl, Aliases.moveStmt_among _ s⟩, session.finish_finishes f, ?_⟩
  · obtain ⟨rest, front, copies, back, hsplit, hplace⟩ := Pin.exists_split ps before s after
    refine ⟨rest, front, copies, back, hsplit, ?_⟩
    rw [Lower.insertPins_run, hplace]
    rfl
  · refine (Lower.stmts_each (session.env f) f.stmts _).imp ?_
    rintro s _ ⟨u, rfl⟩
    refine ⟨?_, fun p => ?_⟩
    · rw [← Stmt.isConstant_outline, Lower.stmt_outline, Stmt.isConstant_outline]
    · rw [← Pin.declaredBy_outline, Lower.stmt_outline, Pin.declaredBy_outline]
  · intro before s after hsplits
    obtain ⟨rest, front, copies, back, hsplit, hplace⟩ :=
      Pin.exists_split (session.pins f) before s after
    refine ⟨rest, front, copies, back, hsplit, ?_⟩
    rw [session.lower_emit f hout, hsplits, hplace]
    simp [flatMap_emit_pins]
  · intro ps before s after rest front copies back hsplit p hp hs hother
    exact hsplit.mem_iff hp hs hother

/-- A session with a variable of the file `src/main.ts`. -/
def bindingSession : Session :=
  { compilation :=
      { declarations := #[{ name := "ord", file := "src/main.ts", kind := .variable }] } }

/-- A file of one statement, which lists a copy of the variable. -/
def bindingFile (s : Stmt) : File :=
  { name := "src/main.ts", unique := [0], stmts := [s] }

/-- `ord = mk`, as a constant or a variable. -/
def bindingStmt (kind : VarKind) : Stmt :=
  .varDecl {} false kind [.mk {} (some { name := "ord" }) .missing (.ident { name := "mk" })]

/-- `class ord {}` -/
def bindingClass : Stmt :=
  .classDecl {} false (some { name := "ord" }) .missing []

/-- `const ord_1 = ord` -/
def bindingCopy : Pin :=
  { name := "ord", line := 0, ident := { Ident.synthetic "ord_1" with mark := some 0 } }

/-- The statement of the copy. -/
def bindingCopyStmt : Stmt :=
  .copying (.synthetic "ord_1") { Ident.synthetic "ord_1" with mark := some 0 } "ord"

/-- The copy of a constant is taken right behind it. -/
theorem copies_behind_constants_single :
    (bindingSession.lower (bindingFile (bindingStmt .const))).1 =
      .lowered { name := "src/main.ts", stmts := [bindingStmt .const, bindingCopyStmt] } ∧
    ∃ rest front copies back,
      Pin.Split [bindingCopy] [] (bindingStmt .const) [] rest front copies back ∧
      bindingCopy ∈ copies ∧ bindingCopy ∉ rest := by
  have hout : (bindingSession.lower (bindingFile (bindingStmt .const))).1 =
      .lowered { name := "src/main.ts", stmts := [bindingStmt .const, bindingCopyStmt] } := by rfl
  have hall := copies_behind_constants bindingSession (bindingFile (bindingStmt .const))
  obtain ⟨rest, front, copies, back, hsplit, -⟩ :=
    (hall.2.1 _ hout).2.2 [] (bindingStmt .const) [] rfl
  have hpins : bindingSession.pins (bindingFile (bindingStmt .const)) = [bindingCopy] := by
    decide +kernel
  rw [hpins] at hsplit
  have hmem := hall.2.2.2.2 _ _ _ _ _ _ _ _ hsplit bindingCopy (by simp) (by decide) (by simp)
  exact ⟨hout, rest, front, copies, back, hsplit, hmem.1.2 rfl, fun h => hmem.2.1 h rfl⟩

/-- The copy of a variable is taken before it, and so is the copy of a class. -/
theorem copy_before_variable :
    (bindingSession.lower (bindingFile (bindingStmt .let))).1 =
      .lowered { name := "src/main.ts", stmts := [bindingCopyStmt, bindingStmt .let] } ∧
    bindingCopy.declaredBy (bindingStmt .let) ∧
    (bindingSession.lower (bindingFile bindingClass)).1 =
      .lowered { name := "src/main.ts", stmts := [bindingCopyStmt, bindingClass] } ∧
    bindingCopy.declaredBy bindingClass :=
  ⟨by rfl, by decide, by rfl, by decide⟩

end Session

end ExtensionLowering
