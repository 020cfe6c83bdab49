import ExtensionLowering.Proofs.Alias.Move
import ExtensionLowering.Proofs.Lowering.Account
/-!
# The outline of a lowered file

Lowering rewrites inside top-level statements. What a statement declares and which statements are
imports is as before; only the pinned copies are new.
-/
namespace ExtensionLowering

open List

/-- A top-level statement without what it holds inside. -/
def Stmt.outline : Stmt → Stmt
  | .varDecl t x k ds => .varDecl t x k (ds.map fun d => .mk d.token d.name .missing .missing)
  | .funcDecl t x name _ _ _ => .funcDecl t x name [] .missing .missing
  | .classDecl t x name _ _ => .classDecl t x name .missing []
  | .importDecl t space default named module => .importDecl t space default named module
  | .exportDecl t named => .exportDecl t named
  | _ => .missing

theorem Lower.stmt_outline (env : Env) (s : Stmt) (u : Lowering) :
    ((stmt env s).run u).1.outline = s.outline := by
  cases s with
  | varDecl t x k ds =>
    have hds : ((declarators env ds).run u).1.map
        (fun d => Declarator.mk d.token d.name .missing .missing) =
          ds.map fun d => Declarator.mk d.token d.name .missing .missing := by
      induction ds generalizing u with
      | nil => rfl
      | cons d ds ih =>
        obtain ⟨t, name, type, init⟩ := d
        have hrun : ((declarators env (.mk t name type init :: ds)).run u).1 =
            .mk t name type ((expr env init).run u).1 ::
              ((declarators env ds).run ((expr env init).run u).2).1 := rfl
        rw [hrun, map_cons, map_cons, ih]
        rfl
    have hrun : ((stmt env (.varDecl t x k ds)).run u).1 =
        .varDecl t x k ((declarators env ds).run u).1 := rfl
    rw [hrun, Stmt.outline, Stmt.outline, hds]
  | _ => rfl

theorem Renaming.stmt_outline (r : Renaming) (bound : List String) (s : Stmt) :
    (stmt r bound s).outline = s.outline := by
  cases s with
  | varDecl t x k ds =>
    have hds : (declarators r bound ds).map
        (fun d => Declarator.mk d.token d.name .missing .missing) =
          ds.map fun d => Declarator.mk d.token d.name .missing .missing := by
      induction ds with
      | nil => rfl
      | cons d ds ih =>
        obtain ⟨t, name, type, init⟩ := d
        rw [declarators, map_cons, map_cons, ih]
        rfl
    rw [stmt, Stmt.outline, Stmt.outline, hds]
  | _ => rfl

section Outline

variable {β : Type} {F : Stmt → List β} (hF : ∀ s, F s.outline = F s)
include hF

/-- What the outlines show is not changed by lowering. -/
theorem Lower.stmts_flatMap (env : Env) (ss : List Stmt) (u : Lowering) :
    ((stmts env ss).run u).1.flatMap F = ss.flatMap F := by
  induction ss generalizing u with
  | nil => rfl
  | cons s ss ih =>
    have hrun : ((stmts env (s :: ss)).run u).1 =
        ((stmt env s).run u).1 :: ((stmts env ss).run ((stmt env s).run u).2).1 := rfl
    rw [hrun, flatMap_cons, flatMap_cons, ih, ← hF, stmt_outline, hF]

/-- What the outlines show is not changed by renaming references. -/
theorem Renaming.references_flatMap (r : Renaming) (ss : List Stmt) :
    (r.references ss).flatMap F = ss.flatMap F := by
  have hstmts (bound : List String) : (stmts r bound ss).flatMap F = ss.flatMap F := by
    induction ss with
    | nil => rfl
    | cons s ss ih =>
      rw [stmts, flatMap_cons, flatMap_cons, ih, ← hF, Renaming.stmt_outline, hF]
  rw [references]
  split
  · rfl
  · exact hstmts []

end Outline

namespace Lower

variable (env : Env)

theorem stmt_isImport (s : Stmt) (u : Lowering) : ((stmt env s).run u).1.isImport = s.isImport := by
  cases s <;> rfl

theorem stmt_of_isImport {s : Stmt} (h : s.isImport) (u : Lowering) :
    ((stmt env s).run u).1 = s := by
  cases s with
  | importDecl => rfl
  | _ => cases h

theorem stmts_declaredBy (ss : List Stmt) (u : Lowering) :
    ((stmts env ss).run u).1.flatMap Aliases.declaredBy = ss.flatMap Aliases.declaredBy :=
  stmts_flatMap (fun s => by cases s <;> simp [Stmt.outline, Aliases.declaredBy, Declarator.name,
    Function.comp_def]) env ss u

theorem stmts_imports (ss : List Stmt) (u : Lowering) :
    ((stmts env ss).run u).1.filter (·.isImport) = ss.filter (·.isImport) := by
  induction ss generalizing u with
  | nil => rfl
  | cons s ss ih =>
    have hrun : ((stmts env (s :: ss)).run u).1 =
        ((stmt env s).run u).1 :: ((stmts env ss).run ((stmt env s).run u).2).1 := rfl
    rw [hrun, filter_cons, filter_cons, ih, stmt_isImport]
    split
    · rename_i h
      rw [stmt_of_isImport env h]
    · rfl

end Lower

namespace Pin

theorem place_imports (ps : List Pin) (ss : List Stmt) :
    (place ps ss).1.filter (·.isImport) = ss.filter (·.isImport) := by
  induction ss generalizing ps with
  | nil => rfl
  | cons s ss ih => simp [place, filter_cons, imports_stmts, ih]

theorem place_declaredBy {ps : List Pin} {ss : List Stmt} {id : Ident}
    (h : some id ∈ (place ps ss).1.flatMap Aliases.declaredBy) :
    some id ∈ ss.flatMap Aliases.declaredBy ∨ ∃ p ∈ ps, p.ident = id := by
  induction ss generalizing ps with
  | nil => simp [place] at h
  | cons s ss ih =>
    have hsub := (take_perm ps (constants s)).subset
    simp only [place, after, cons_append, flatMap_cons, flatMap_append,
      mem_append] at h hsub ⊢
    obtain h | h | h := h
    · exact .inl (.inl h)
    · obtain ⟨_, hs, hid⟩ := mem_flatMap.1 h
      obtain ⟨p, hp, rfl⟩ := mem_map.1 hs
      have : p.ident = id := by
        simpa [stmt, Stmt.constant, Aliases.declaredBy, Declarator.name, eq_comm] using hid
      exact .inr ⟨p, hsub (mem_append_left _ hp), this⟩
    · obtain h | ⟨p, hp, rfl⟩ := ih h
      · exact .inl (.inr h)
      · exact .inr ⟨p, hsub (mem_append_right _ hp), rfl⟩

end Pin

/-- The pins of a scope are copies registered for it. -/
theorem Lower.registerPins_pinned (env : Env) (ds : List DeclId) (u : Lowering) :
    ∃ new, ((registerPins env ds).run u).2.pinned = new ++ u.pinned ∧
      ∀ p ∈ ((registerPins env ds).run u).1, p.ident ∈ new.map (·.2) := by
  induction ds generalizing u with
  | nil => exact ⟨[], rfl, fun p hp => absurd hp not_mem_nil⟩
  | cons d ds ih =>
    cases hd : u.pinned.lookup d with
    | some id =>
      rw [registerPins_of_some hd]
      exact ih u
    | none =>
      let decl := (env.compilation.declaration? (some d)).getD {}
      obtain ⟨new, hpinned, hnew⟩ := ih ((pinName d decl.name).run u).2
      have hpin : ((pinName d decl.name).run u).2.pinned =
          [(d, ((pinName d decl.name).run u).1)] ++ u.pinned := rfl
      rw [registerPins_of_none hd]
      refine ⟨new ++ [(d, ((pinName d decl.name).run u).1)], ?_, fun p hp => ?_⟩
      · rw [append_assoc, ← hpin]
        exact hpinned
      · rw [map_append, mem_append]
        obtain rfl | hp := mem_cons.1 hp
        · exact .inr (mem_singleton_self _)
        · exact .inl (hnew p hp)

theorem Lower.placePins_run (pins : List Pin) (ss : List Stmt) (u : Lowering) :
    ((placePins pins ss).run u).1 = Pin.place pins ss ∧
      ((placePins pins ss).run u).2.others = u.others := by
  rw [placePins]
  dsimp only
  split <;> exact ⟨rfl, rfl⟩

theorem Lower.insertPins_run (pins : List Pin) (ss : List Stmt) (u : Lowering) :
    ((insertPins pins ss).run u).1 =
      (Pin.place pins ss).2.map Pin.stmt ++ (Pin.place pins ss).1 := by
  rw [← (placePins_run pins ss u).1]
  rfl

theorem mem_preamble {env : Env} {u : Lowering} {s : Stmt} (h : s ∈ preamble env u) :
    (∃ id ∈ u.traceVar.toList, s = .constant id (.ofString env.traceName) false) ∨
      ∃ e ∈ u.ledger.counted, s = .namespaceImport e.ident e.path := by
  refine (mem_append.1 h).imp (fun h => ?_) fun h => ?_ <;>
  · obtain ⟨x, hx, rfl⟩ := mem_map.1 h
    exact ⟨x, hx, rfl⟩

namespace Session

variable (session : Session) (f : File)

/-- The pins of a file are among the others, and they are placed among its lowered statements. -/
theorem walk_eq : ∃ pins u,
    (session.walk f).1 = Pin.place pins ((Lower.stmts (session.env f) f.stmts).run u).1 ∧
      ∀ p ∈ pins, p.ident ∈ (session.walk f).2.others := by
  have T := Lowering.accounts_tracking f.freeMark f.names
  let pins := (Lower.registerPins (session.env f) f.unique).run (session.start f)
  let ss := (Lower.stmts (session.env f) f.stmts).run pins.2
  have hgiven := f.idents_givenBelow
  rw [Node.idents_file] at hgiven
  have hpins : Lowering.Accounts _ _ _ _ pins.2 :=
    T.registerPins_carries (session.env f) f.unique [] _ _ (T.still (by simp))
      (session.start_sound f)
  have hss : Lowering.Accounts _ _ pins.2 _ ss.2 :=
    T.stmts_carries f.stmts ⟨by simp [env, Env.TraceIs], hgiven⟩ [] pins.2 _ (T.still (by simp))
      hpins.sound
  obtain ⟨new, hpinned, hnew⟩ :=
    Lower.registerPins_pinned (session.env f) f.unique (session.start f)
  have hplaced := Lower.placePins_run pins.1 ss.1 ss.2
  refine ⟨pins.1, pins.2, hplaced.1, fun p hp => ?_⟩
  have hmem : p.ident ∈ pins.2.others := by
    have hreg : p.ident ∈ pins.2.pinned.map (·.2) := by
      rw [hpinned, map_append]
      exact mem_append_left _ (hnew p hp)
    simp only [Lowering.others, mem_append]
    exact .inl (.inr hreg)
  exact hplaced.2 ▸ hss.others hmem

/-- Lowering succeeds with `out`. -/
abbrev Lowers (session : Session) (f out : File) : Prop :=
  (session.lower f).1 = .lowered out

/-- The output is the preamble and the walked statements, in which declarations have moved. -/
theorem lower_eq {out : File} (h : session.Lowers f out) :
    ∃ body, moveDeclarations (session.aliases f)
        ((session.walk f).1.2.map Pin.stmt) (session.walk f).1.1 = some body ∧
      out.stmts = preamble (session.env f) (session.walk f).2 ++ body := by
  rw [Lowers, lower] at h
  dsimp only at h
  split at h
  · cases h
  · split at h
    · cases h
    · rw [finishFile] at h
      split at h
      · cases h
      · cases h
        exact ⟨_, ‹_›, rfl⟩

theorem walk_imports : (session.walk f).1.1.filter (·.isImport) = f.stmts.filter (·.isImport) := by
  obtain ⟨pins, u, hwalk, -⟩ := session.walk_eq f
  rw [hwalk, Pin.place_imports, Lower.stmts_imports]

end Session

end ExtensionLowering
