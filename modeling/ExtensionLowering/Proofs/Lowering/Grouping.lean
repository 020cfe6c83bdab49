import ExtensionLowering.Proofs.Alias.Transfer
import ExtensionLowering.Proofs.Lowering.Factless
/-!
# The statements of a lowered file

Behind its preamble a lowered file has the statements of the source file in their order, each with
the statements that were put beside it. Pins and re-exports are inserted, a variable statement one
of whose names moves falls into its declarators, and nothing is lost.

## Main definitions

* `Among`: some statements in their order, with others in between.
* `Inserted`: the statements that lowering puts between those of the source.
* `Aliases.split`, `Aliases.underAlias`: what moving makes of a statement itself.
* `Session.rewritten`, `Session.finish`: the top-level statements after the walk, and what the
  renaming of references makes of a statement.
* `Session.Finishes`: what the renaming of references keeps.
-/
namespace ExtensionLowering

open List

/-- The statements `kept` in their order, with statements that are `extra` around them. -/
inductive Among (extra : Stmt → Prop) : (kept group : List Stmt) → Prop
  | nil : Among extra [] []
  | keep {s : Stmt} {kept group : List Stmt} (h : Among extra kept group) :
      Among extra (s :: kept) (s :: group)
  | insert {s : Stmt} {kept group : List Stmt} (hs : extra s) (h : Among extra kept group) :
      Among extra kept (s :: group)

namespace Among

variable {extra : Stmt → Prop} {kept kept' group group' : List Stmt}

theorem append (h : Among extra kept group) (h' : Among extra kept' group') :
    Among extra (kept ++ kept') (group ++ group') := by
  induction h with
  | nil => exact h'
  | keep _ ih => exact .keep ih
  | insert hs _ ih => exact .insert hs ih

theorem of_inserted (h : ∀ s ∈ group, extra s) : Among extra [] group := by
  induction group with
  | nil => exact .nil
  | cons s group ih =>
    exact .insert (h s mem_cons_self) (ih fun t ht => h t (mem_cons_of_mem s ht))

theorem ne_nil (h : Among extra kept group) (hkept : kept ≠ []) : group ≠ [] := by
  cases h with
  | nil => exact hkept
  | keep | insert => exact cons_ne_nil _ _

end Among

/-- The statements that lowering puts beside those of a file: a pinned copy under its own name or
an alias, the restored name of a moved class, and the two forms of exporting a moved declaration
again. -/
inductive Inserted : Stmt → Prop
  | copying (token : Token) (id : Ident) (name : String) : Inserted (.copying token id name)
  | naming (name : String) (binding : Ident) : Inserted (.naming name binding)
  | forwarding (name : String) (binding : Ident) : Inserted (.forwarding name binding)
  | listing (name : String) (binding : Ident) : Inserted (.listing name binding)

namespace Aliases

/-- A variable statement one of whose names has an alias falls into its declarators. -/
def split (as : Aliases) : Stmt → List Stmt
  | .varDecl t exported kind ds =>
    if ds.any fun d => (as.moved? d.name).isSome then ds.map fun d => .varDecl t exported kind [d]
    else [.varDecl t exported kind ds]
  | s => [s]

/-- A declaration of one name under the alias of the name; the alias is not exported. -/
def underAlias (as : Aliases) : Stmt → Stmt
  | .funcDecl t exported name ps result body =>
    match as.moved? name with
    | none => .funcDecl t exported name ps result body
    | some (_, binding) => .funcDecl t false (some binding) ps result body
  | .classDecl t exported name base ms =>
    match as.moved? name with
    | none => .classDecl t exported name base ms
    | some (_, binding) => .classDecl t false (some binding) base ms
  | .varDecl t exported kind [.mk t' name type init] =>
    match as.moved? name with
    | none => .varDecl t exported kind [.mk t' name type init]
    | some (_, binding) => .varDecl t false kind [.mk t' (some binding) type init]
  | s => s

variable (as : Aliases)

theorem split_ne_nil (s : Stmt) : as.split s ≠ [] := by
  cases s with
  | varDecl t exported kind ds =>
    rw [split]
    split
    · rename_i hany
      rintro hnil
      simp [map_eq_nil_iff.1 hnil] at hany
    · exact cons_ne_nil _ _
  | _ => exact cons_ne_nil _ _

theorem part_among {s : Stmt} (hs : s.singles = [s]) :
    Among Inserted [as.underAlias s] (as.moveStmt s) := by
  have hunder : as.underAlias s = (as.moved? s.binder?).elim s fun b => s.under b.2 := by
    cases s with
    | funcDecl t x name | classDecl t x name =>
      rw [underAlias, Stmt.binder?]
      cases as.moved? name <;> rfl
    | varDecl t x k ds =>
      obtain ⟨⟨t', name, type, init⟩, rfl⟩ := Stmt.exists_declarator hs
      rw [underAlias, Stmt.binder?, Declarator.name]
      cases as.moved? name <;> rfl
    | _ => rfl
  rw [hunder]
  cases hm : as.moved? s.binder? with
  | none =>
    rw [moveStmt_of_unmoved hs hm]
    exact .keep .nil
  | some b =>
    rw [moveStmt_of_moved hs hm]
    refine .keep (.of_inserted fun t ht => ?_)
    simp only [Stmt.sequel, mem_append, mem_ite_nil_right, mem_singleton] at ht
    obtain ⟨-, rfl⟩ | ⟨-, rfl⟩ := ht
    · exact .naming _ _
    · split
      · exact .forwarding _ _
      · exact .listing _ _

theorem underAlias_of_unmoved (t : Token) (exported : Bool) (kind : VarKind) {ds : List Declarator}
    (h : ¬ ds.any fun d => (as.moved? d.name).isSome) :
    as.underAlias (.varDecl t exported kind ds) = .varDecl t exported kind ds := by
  match ds with
  | [] => rfl
  | [.mk t' name type init] =>
    have hname : as.moved? name = none := by simpa [Declarator.name] using h
    rw [underAlias, hname]
  | _ :: _ :: _ => simp [underAlias]

/-- Moving keeps a statement, or its declarators, and inserts the rest. -/
theorem moveStmt_among (s : Stmt) :
    Among Inserted ((as.split s).map as.underAlias) (as.moveStmt s) := by
  cases s with
  | varDecl t exported kind ds =>
    rw [moveStmt, split]
    by_cases hany : ds.any fun d => (as.moved? d.name).isSome
    · rw [if_pos hany, if_pos hany]
      clear hany
      induction ds with
      | nil => exact .nil
      | cons d ds ih =>
        have hd := as.part_among (s := .varDecl t exported kind [d]) rfl
        rw [moveStmt_declarator] at hd
        exact hd.append ih
    · rw [if_neg hany, if_neg hany, map_singleton, as.underAlias_of_unmoved _ _ _ hany]
      exact .keep .nil
  | _ => exact as.part_among rfl

/-- A pinned copy moves to the alias of its name. -/
theorem moveStmt_copy (p : Pin) : as.moveStmt p.stmt =
    [.copying p.ident.token ((as.lookup p.ident.name).elim p.ident (·.ident)) p.name] := by
  cases h : as.lookup p.ident.name <;>
    simp [Pin.stmt, Stmt.constant, Stmt.copying, moveStmt, moveDeclarator, Declarator.name, moved?,
      h] <;> rfl

theorem moveAll_pins_among (ps : List Pin) : Among Inserted [] (as.moveAll (ps.map Pin.stmt)) := by
  refine .of_inserted fun s hs => ?_
  obtain ⟨t, ht, hs⟩ := mem_flatMap.1 hs
  obtain ⟨p, -, rfl⟩ := mem_map.1 ht
  obtain rfl := mem_singleton.1 (as.moveStmt_copy p ▸ hs)
  exact .copying ..

/-- Each of some statements in which pins are placed leaves a group of its own when it is moved. -/
theorem moveAll_place (ps : List Pin) (ss : List Stmt) :
    ∃ groups : List (List Stmt), as.moveAll (Pin.place ps ss).1 = groups.flatten ∧
      List.Forall₂ (fun s group => group ≠ [] ∧
        Among Inserted ((as.split s).map as.underAlias) group) ss groups := by
  induction ss generalizing ps with
  | nil => exact ⟨[], rfl, .nil⟩
  | cons s ss ih =>
    obtain ⟨groups, hgroups, hall⟩ := ih (Pin.after ps s).2
    let pins := (Pin.after ps s).1.map Pin.stmt
    have hpins : Among Inserted [] (as.moveAll pins) := as.moveAll_pins_among _
    have hgroup := (as.moveStmt_among s).append hpins
    rw [append_nil] at hgroup
    refine ⟨(as.moveStmt s ++ as.moveAll pins) :: groups, ?_, .cons ⟨?_, hgroup⟩ hall⟩
    · rw [flatten_cons, ← hgroups]
      simp [Pin.place, moveAll, pins]
    · exact hgroup.ne_nil (by simpa using as.split_ne_nil s)

end Aliases

/-! ## Files -/

theorem Aliases.moved?_nil (name : Option Ident) : moved? [] name = none := by
  cases name <;> rfl

theorem Aliases.moveAll_nil (ss : List Stmt) : moveAll [] ss = ss := by
  have hstmt : moveStmt [] = fun s => [s] := by
    funext s
    cases s <;> simp [moveStmt, moved?_nil]
  simp [moveAll, hstmt]

/-- Without aliases nothing moves. -/
theorem moveDeclarations_nil (ss : List Stmt) : moveDeclarations [] [] ss = some ss := by
  have hrenames : Aliases.renames [] ss = [] :=
    filterMap_eq_nil_iff.2 fun name _ => Aliases.moved?_nil name
  simp [moveDeclarations, hrenames, Aliases.moveAll_nil, Aliases.untaken, relabel,
    Renaming.references, Renaming.carried]

section Finish

variable (g : Ident → Ident) (labels : List (Nat × String)) (r : Renaming) (ss : List Stmt)
variable (s : Stmt)

/-- A statement with shared identifiers relabelled. -/
def Stmt.relabel (labels : List (Nat × String)) (s : Stmt) : Stmt :=
  if labels.isEmpty then s else s.mapIdents (Ident.relabel labels)

/-- A top-level statement with its references renamed. -/
def Renaming.reference (r : Renaming) (s : Stmt) : Stmt :=
  if r.isEmpty then s else r.stmt [] s

theorem Renaming.stmts_eq_map (bound : List String) (ss : List Stmt) :
    r.stmts bound ss = ss.map (r.stmt bound) :=
  eq_map_of_cons rfl (fun _ _ => rfl) ss

theorem map_unless (c : Bool) (g : Stmt → Stmt) :
    (if c then ss else ss.map g) = ss.map fun s => if c then s else g s := by
  split <;> simp

theorem relabel_eq_map : relabel labels ss = ss.map (Stmt.relabel labels) := by
  rw [relabel, Stmt.mapAll_eq_map]
  exact map_unless ss _ _

theorem Renaming.references_eq_map : r.references ss = ss.map r.reference := by
  rw [references, stmts_eq_map]
  exact map_unless ss _ _

theorem Stmt.outline_mapIdents : (s.mapIdents g).outline = s.outline.mapIdents g := by
  cases s with
  | varDecl t exported kind ds =>
    simp only [mapIdents, outline, Declarator.mapAll_eq_map, map_map]
    refine congrArg (Stmt.varDecl t exported kind) (map_congr_left fun d _ => ?_)
    cases d
    rfl
  | _ => rfl

theorem Stmt.outline_mapIdents_id : s.outline.mapIdents (fun id => id) = s.outline := by
  cases s <;> simp [outline, mapIdents, Declarator.mapAll_eq_map, Specifier.mapIdents,
    Expr.mapIdents, Block.mapIdents, Param.mapAll, Member.mapAll, Declarator.mapIdents]

theorem Stmt.outline_mapIdents_comp (g g' : Ident → Ident) (s : Stmt) :
    (s.outline.mapIdents g).mapIdents g' = s.outline.mapIdents (g' ∘ g) := by
  cases s <;> simp [outline, mapIdents, Declarator.mapAll_eq_map, Specifier.mapIdents,
    Expr.mapIdents, Block.mapIdents, Param.mapAll, Member.mapAll, Declarator.mapIdents]

theorem Stmt.relabel_outline :
    (s.relabel labels).outline = s.outline.mapIdents (Ident.relabel labels) := by
  by_cases h : labels.isEmpty
  · obtain rfl := List.isEmpty_iff.1 h
    rw [Ident.relabel_nil, outline_mapIdents_id]
    rfl
  · rw [relabel, if_neg h, outline_mapIdents]

theorem Renaming.reference_outline : (r.reference s).outline = s.outline := by
  rw [reference]
  split
  · rfl
  · exact r.stmt_outline [] s

namespace Renaming

/-- A reference reads as before, or its name is mapped and it reads like the new one. -/
def Follows (r : Renaming) (o o' : Occurrence) : Prop :=
  o'.ident.name = o.ident.name ∨
    ∃ b, r.lookup o.ident.name = some b ∧ o'.ident.name = b.name

/-- That references follow is a law of renaming. -/
def following (r : Renaming) : Law r where
  Rel ps qs := Forall₂ r.Follows (refsOf ps) (refsOf qs)
  Covers _ _ := True
  Hoists _ _ := True
  Clear _ := True
  free := False
  clear_append h := ⟨h, h⟩
  hoists_append h := ⟨h, h⟩
  nil := .nil
  append h h' := by
    rw [refsOf_append, refsOf_append]
    exact rel_append h h'
  kept hrole _ _ := by obtain rfl | rfl := hrole <;> simp
  ofIdent {_ bound} _ id := by
    refine .cons ?_ .nil
    cases ht : r.target? bound id.name with
    | none => exact .inl (by simp [ident, ht, Ident.refer])
    | some b => exact .inr ⟨b, target?_eq_some ht, by simp [ident, ht, Ident.refer, Ident.rename]⟩
  ofShorthand {_ bound} _ t name := by
    cases name with
    | none => exact .nil
    | some id =>
      cases ht : r.target? bound id.name with
      | none => simp [shorthand, ht, forall₂_same, Follows]
      | some b =>
        have hnew : r.shorthand bound t (some id) = .assign t (.ofName id.name) (.ofIdent b) := by
          simp [shorthand, ht]
        rw [hnew]
        exact .cons (.inr ⟨b, target?_eq_some ht, rfl⟩) .nil
  inParams h _ := h
  inSelf h _ := h
  inBlock h _ _ _ := ⟨h, h⟩

/-- The statement `s'` is `s` with references renamed, and all else as it is. -/
structure Renames (r : Renaming) (s s' : Stmt) : Prop where
  skeleton : s'.skeleton = s.skeleton
  refs : Forall₂ r.Follows (s.refs []) (s'.refs [])

theorem reference_renames (r : Renaming) (s : Stmt) : r.Renames s (r.reference s) := by
  rw [reference]
  split
  · exact ⟨rfl, forall₂_same.2 fun _ _ => .inl rfl⟩
  · refine ⟨r.skeleton_stmt [] s, ?_⟩
    rw [← (Stmt.spots_spec _ _).2, ← (Stmt.spots_spec _ _).2]
    exact r.following.stmt_rel s ⟨trivial, trivial, False.elim⟩ trivial

end Renaming

end Finish

/-- Statements are lowered one by one. -/
theorem Lower.stmts_each (env : Env) (ss : List Stmt) (u : Lowering) :
    List.Forall₂ (fun s s' => ∃ v, s' = ((stmt env s).run v).1) ss ((stmts env ss).run u).1 := by
  induction ss generalizing u with
  | nil => exact .nil
  | cons s ss ih => exact .cons ⟨u, rfl⟩ (ih ((stmt env s).run u).2)

namespace Session

variable (session : Session) (f : File)

/-- The top-level statements of a file after the walk, without the pins. -/
def rewritten : List Stmt :=
  ((Lower.stmts (session.env f) f.stmts).run
    ((Lower.registerPins (session.env f) f.unique).run (session.start f)).2).1

/-- A statement as the output has it, when references to moved declarations are renamed. -/
def finish (s : Stmt) : Stmt :=
  ((session.moves f).reference (s.relabel (session.untaken f))).relabel (session.carried f)

theorem walk_place : ∃ pins, (session.walk f).1 = Pin.place pins (session.rewritten f) := by
  let pins := (Lower.registerPins (session.env f) f.unique).run (session.start f)
  exact ⟨pins.1, (Lower.placePins_run pins.1 _ _).1⟩

/-- The output, one statement after the other. -/
theorem lower_finish {out : File} (h : session.Lowers f out) :
    out.stmts = preamble (session.env f) (session.walk f).2 ++
      ((session.walk f).1.2.map Pin.stmt ++
        (session.aliases f).moveAll (session.walk f).1.1).map
          (session.finish f) := by
  rw [lower_body h, renamedStmts, relabel_eq_map, Renaming.references_eq_map, movedStmts,
    relabel_eq_map, map_map, map_map]
  rfl

/-- What the last pass may make of a statement: shared identifiers get the names that the output
shows, references to moved declarations their new names, and nothing else changes. -/
structure Finishes (s s' : Stmt) : Prop where
  outline : s'.outline = s.outline.mapIdents (session.shown f)
  renames : ∃ t, (session.moves f).Renames (s.relabel (session.untaken f)) t ∧
    s' = t.relabel (session.carried f)

theorem finish_finishes (s : Stmt) : session.Finishes f s (session.finish f s) where
  outline := by
    rw [finish, Stmt.relabel_outline, Renaming.reference_outline, Stmt.relabel_outline,
      Stmt.outline_mapIdents_comp]
    rfl
  renames := ⟨_, Renaming.reference_renames _ _, rfl⟩

/-- Finishing `const id = name` shows the identifier and reads the new name. -/
theorem finish_copying (t : Token) (id : Ident) (name : String) :
    session.finish f (.copying t id name) = .copying t (session.shown f id)
      (((session.moves f).lookup name).elim name (·.name)) := by
  have hrelabel (labels : List (Nat × String)) (id : Ident) (name : String) :
      (Stmt.copying t id name).relabel labels = .copying t (id.relabel labels) name := by
    by_cases h : labels.isEmpty
    · obtain rfl := List.isEmpty_iff.1 h
      rw [Ident.relabel_nil]
      rfl
    · rw [Stmt.relabel, if_neg h]
      rfl
  have hreference (r : Renaming) (id : Ident) :
      r.reference (.copying t id name) = .copying t id ((r.lookup name).elim name (·.name)) := by
    by_cases h : r.isEmpty
    · obtain rfl := List.isEmpty_iff.1 h
      rfl
    · rw [Renaming.reference, if_neg h]
      cases hl : r.lookup name <;>
        simp [Stmt.copying, Renaming.stmt, Renaming.declarators, Renaming.declarator,
          Renaming.expr, Renaming.ident, Renaming.target?, Ident.synthetic, hl]
      rfl
  rw [finish, hrelabel, hreference, hrelabel]
  rfl

/-- The copy of a pin in the output, which declares an identifier. -/
def copied (p : Pin) (id : Ident) : Stmt :=
  .copying p.ident.token (session.shown f id)
    (((session.moves f).lookup p.name).elim p.name (·.name))

/-- Each walked statement has its group in the output. -/
theorem lower_groups {out : File} (h : session.Lowers f out) {pins : List Pin}
    {ss : List Stmt} (hwalk : (session.walk f).1 = Pin.place pins ss) :
    ∃ groups : List (List Stmt),
      out.stmts = preamble (session.env f) (session.walk f).2 ++
        (Pin.place pins ss).2.map (fun p => session.copied f p p.ident) ++
        groups.flatten.map (session.finish f) ∧
      List.Forall₂ (fun s group => group ≠ [] ∧ Among Inserted
        (((session.aliases f).split s).map
          ((session.aliases f).underAlias)) group) ss groups := by
  obtain ⟨groups, hgroups, hall⟩ :=
    (session.aliases f).moveAll_place pins ss
  refine ⟨groups, ?_, hall⟩
  rw [session.lower_finish f h, ← hgroups, hwalk]
  simp only [copied, ← finish_copying, map_append, map_map, append_assoc]
  rfl

theorem lower_factless {f : File} (h : f.isFactless) :
    (session.lower f).1 = .lowered { name := f.name, stmts := f.stmts } := by
  have hwalk : session.walk f = ((f.stmts, []), session.start f) := by
    rw [walk, Lower.file_factless _ h]
    rfl
  have hpreamble : preamble (session.env f) (session.start f) = [] := by
    have hstatements : (session.start f).ledger.statements = [] := by
      refine map_eq_nil_iff.2 (filter_eq_nil_iff.2 fun e he => ?_)
      simp [ImportEntry.isCounted, (f.ledger_initial.permanent e he).1]
    rw [preamble, hstatements]
    rfl
  have hmove : moveDeclarations (session.start f).names.aliases [] f.stmts = some f.stmts :=
    moveDeclarations_nil f.stmts
  have hbroken : (session.start f).broken = false := rfl
  have herrors : (session.start f).errors = [] := rfl
  have hname : (session.env f).fileName = f.name := rfl
  simp [lower, hwalk, finishFile, hmove, hpreamble, hbroken, herrors, hname]

/-- A lowered file is its preamble, the pins that found no place and a group for each statement of
the source, in which the statement stands, or its declarators one by one, and otherwise only
statements that were inserted. The last pass finishes statements one by one: it renames references
and shared identifiers. Without facts the statements are those of the source. -/
theorem lower_regroups :
    (∀ out, (session.lower f).1 = .lowered out → ∃ groups : List (List Stmt),
      out.stmts =
        ((session.walk f).2.traceVar.toList.map fun id =>
          .varDecl (.synthetic "const") false .const [.mk id.token (some id) .missing
            (.string (.synthetic (Text.quote (session.env f).traceName))
              (session.env f).traceName)]) ++
        ((session.walk f).2.ledger.counted.map fun e =>
          .importDecl (.synthetic "import") (some e.ident) none [] (some e.path)) ++
        (session.walk f).1.2.map (fun p => session.copied f p p.ident) ++
        groups.flatten.map (session.finish f) ∧
      List.Forall₂ (fun s s' => s'.outline = s.outline ∧
        ∃ u, s' = ((Lower.stmt (session.env f) s).run u).1) f.stmts (session.rewritten f) ∧
      List.Forall₂ (fun s group => group ≠ [] ∧ Among Inserted
        (((session.aliases f).split s).map
          ((session.aliases f).underAlias)) group)
        (session.rewritten f) groups) ∧
    (∀ s, session.Finishes f s (session.finish f s)) ∧
    (f.isFactless → (session.lower f).1 = .lowered { name := f.name, stmts := f.stmts }) := by
  refine ⟨fun out hout => ?_, session.finish_finishes f, session.lower_factless⟩
  obtain ⟨pins, hwalk⟩ := session.walk_place f
  obtain ⟨groups, hstmts, hall⟩ := session.lower_groups f hout hwalk
  refine ⟨groups, ?_, ?_, hall⟩
  · rw [hstmts, hwalk]
    rfl
  · refine (Lower.stmts_each (session.env f) f.stmts _).imp ?_
    rintro s _ ⟨u, rfl⟩
    exact ⟨Lower.stmt_outline _ s u, u, rfl⟩

/-- A session with a variable and a constant of the file `main.ts`. -/
def splittingSession : Session :=
  { compilation :=
      { declarations :=
          #[{ name := "size", file := "main.ts", kind := .variable, exported := true },
            { name := "ord", file := "main.ts", kind := .variable }] } }

/-- `export let first, size; const ord;`, with a copy of `ord` pinned. -/
def splitFile (more : List Stmt) : File :=
  { name := "main.ts"
    unique := if more.isEmpty then [] else [1]
    stmts :=
      .varDecl {} true .let [.mk {} (some { name := "first" }) .missing .missing,
        .mk {} (some { name := "size" }) .missing .missing] ::
      .varDecl {} false .const [.mk {} (some { name := "ord" }) .missing .missing] :: more }

/-- `xs.size;` -/
def sizeStmt : Stmt :=
  .expr {} (.prop {} { signature := some { kind := .getter, decl := some 0 } } (.ofName "xs")
    (some (.synthetic "size")) false)

/-- The variable statement falls into two and is exported again, the constant has its copy behind
it. Without the access to `size` there are no facts. -/
theorem lower_regroups_split :
    (∃ (out : File) (groups : List (List Stmt)),
      (splittingSession.lower (splitFile [sizeStmt])).1 = .lowered out ∧
      out.stmts.length = 6 ∧ groups.length = 3 ∧
      List.Forall₂ (fun _ group => group ≠ []) (splittingSession.rewritten (splitFile [sizeStmt]))
        groups ∧
      out.stmts = groups.flatten.map (splittingSession.finish (splitFile [sizeStmt]))) ∧
    (splitFile []).isFactless ∧
    (splittingSession.lower (splitFile [])).1 =
      .lowered { name := "main.ts", stmts := (splitFile []).stmts } := by
  have hplain : (splitFile []).isFactless := by decide
  refine ⟨?_, hplain, (lower_regroups splittingSession (splitFile [])).2.2 hplain⟩
  obtain ⟨out, hout⟩ : ∃ out, (splittingSession.lower (splitFile [sizeStmt])).1 = .lowered out :=
    ⟨_, rfl⟩
  obtain ⟨groups, hstmts, -, hgroups⟩ :=
    (lower_regroups splittingSession (splitFile [sizeStmt])).1 out hout
  refine ⟨out, groups, hout, ?_, hgroups.length_eq.symm.trans ?_, hgroups.imp fun _ _ h => h.1,
    hstmts⟩
  · cases hout
    decide +kernel
  · decide +kernel

end Session

end ExtensionLowering
