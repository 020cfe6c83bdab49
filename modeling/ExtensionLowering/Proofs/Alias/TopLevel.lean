import ExtensionLowering.Proofs.Alias.Transfer
/-!
# What the top level shows

The declarations, imports and export lists of top-level statements, and what the passes over a file
do to them. Lowering and renaming work inside statements; moving gives declarations new names and
may add a constant with the old one.
-/
namespace ExtensionLowering

open List

variable {ss : List Stmt} {x : String}
variable {id : Ident} (g : Ident → Ident) (s : Stmt) (ps : List Pin)

/-! ## What the top level shows -/

/-- What binds a name at the top level, told by its token. -/
inductive TopBinder where
  | function (token : Token)
  | classType (token : Token)
  | variable (kind : VarKind) (token : Token)
  | space (token : Token) (path : Option String)
  | part (token : Token)
  deriving Repr, DecidableEq

/-- A declaration at the top level. It is forwarded when it moves if it is exported and cannot be
assigned to. -/
structure TopDecl where
  name : Option Ident
  binder : TopBinder
  forwards : Bool
  deriving Repr, DecidableEq

def TopDecl.map (g : Ident → Ident) (d : TopDecl) : TopDecl :=
  { d with name := d.name.map g }

def Stmt.declares : Stmt → List TopDecl
  | .funcDecl t x name _ _ _ => [⟨name, .function t, x⟩]
  | .classDecl t x name _ _ => [⟨name, .classType t, x⟩]
  | .varDecl _ x k ds => ds.map fun d => ⟨d.name, .variable k d.token, x && k = .const⟩
  | _ => []

/-- The names that an import binds. -/
def Stmt.importBinders : Stmt → List (Option Ident × TopBinder)
  | .importDecl t space default named module =>
    (space, .space t module) :: (default, .part t) ::
      named.map fun s => (s.newName.or s.name, .part t)
  | _ => []

/-- The entries of an export list. -/
def Stmt.exports : Stmt → List Specifier
  | .exportDecl _ named => named
  | _ => []

/-- The binder if it binds the name. -/
def TopBinder.under (x : String) (name : Option Ident) (b : TopBinder) : Option TopBinder :=
  if name.map (·.name) = some x then some b else none

/-- The declarations of a name. -/
def declarationsOf (ss : List Stmt) (x : String) : List TopBinder :=
  (ss.flatMap Stmt.declares).filterMap fun d => d.binder.under x d.name

/-- The imports of a name. -/
def importsOf (ss : List Stmt) (x : String) : List TopBinder :=
  (ss.flatMap Stmt.importBinders).filterMap fun b => b.2.under x b.1

/-- What a name stands for at the top level: its declarations, or the imports of it if nothing
declares it. -/
def meaningOf (ss : List Stmt) (x : String) : List TopBinder :=
  if declarationsOf ss x = [] then importsOf ss x else declarationsOf ss x

/-- The names that the export lists look up. -/
def exportedLocals (ss : List Stmt) : List String :=
  namesOf ((ss.flatMap Stmt.exports).map (·.name))

/-- The names that are exported as constants when their declarations move. -/
def forwardedNames (ss : List Stmt) : List String :=
  namesOf (((ss.flatMap Stmt.declares).filter (·.forwards)).map (·.name))

namespace TopBinder

variable {b : TopBinder} {x y : String} {id id' : Ident}

theorem under_of_ne (h : x ≠ id.name) : b.under x (some id) = none :=
  if_neg fun h' => h (Option.some.inj h').symm

theorem name_of_under {name : Option Ident} {b' : TopBinder} (h : b.under x name = some b') :
    ∃ id, name = some id ∧ id.name = x := by
  rw [under] at h
  split at h
  · exact Option.map_eq_some_iff.1 ‹_›
  · cases h

theorem under_congr (h : y = id'.name ↔ id.name = x) :
    b.under y (some id') = b.under x (some id) := by
  have h' : some id'.name = some y ↔ some id.name = some x := by
    rw [Option.some.injEq, Option.some.injEq, eq_comm, h]
  exact if_congr h' rfl rfl

end TopBinder

theorem declaredBy_eq : Aliases.declaredBy s = s.declares.map (·.name) := by
  cases s <;> simp [Aliases.declaredBy, Stmt.declares, Function.comp_def]

theorem flatMap_declaredBy (ss : List Stmt) :
    ss.flatMap Aliases.declaredBy = (ss.flatMap Stmt.declares).map (·.name) := by
  rw [map_flatMap]
  exact flatMap_congr fun s _ => declaredBy_eq s

theorem mem_declaredNames :
    x ∈ declaredNames ss ↔ ∃ d ∈ ss.flatMap Stmt.declares, ∃ id, d.name = some id ∧ id.name = x := by
  simp only [declaredNames, flatMap_declaredBy, mem_map, mem_filterMap, id]
  constructor
  · rintro ⟨id, ⟨_, ⟨d, hd, rfl⟩, hid⟩, rfl⟩
    exact ⟨d, hd, id, hid, rfl⟩
  · rintro ⟨d, hd, id, hid, rfl⟩
    exact ⟨id, ⟨_, ⟨d, hd, rfl⟩, hid⟩, rfl⟩

theorem mem_namesOf {ids : List (Option Ident)} :
    x ∈ namesOf ids ↔ ∃ id, some id ∈ ids ∧ id.name = x := by
  simp [namesOf]

theorem Stmt.mem_idents_of_importBinders {s : Stmt} {b : TopBinder}
    (h : (some id, b) ∈ s.importBinders) : id ∈ s.idents := by
  cases s with
  | importDecl t space default named module =>
    rw [idents_importDecl]
    simp only [importBinders, mem_cons, mem_map, Prod.mk.injEq] at h
    simp only [mem_append, Option.mem_toList, mem_flatMap, Specifier.idents]
    obtain ⟨h, -⟩ | ⟨h, -⟩ | ⟨e, he, h, -⟩ := h
    · exact .inl (.inl h.symm)
    · exact .inl (.inr h.symm)
    · refine .inr ⟨e, he, ?_⟩
      cases hnew : e.newName with
      | none => exact .inl (by simpa [hnew] using h)
      | some new => exact .inr (by simpa [hnew] using h)
  | _ => cases h

theorem exists_of_exports {e : Specifier} (he : e ∈ ss.flatMap Stmt.exports)
    (hid : e.name = some id) : ∃ s ∈ ss, s.isImport = false ∧ id ∈ s.idents := by
  obtain ⟨s, hs, he⟩ := mem_flatMap.1 he
  refine ⟨s, hs, ?_⟩
  cases s with
  | exportDecl t named =>
    rw [Stmt.idents_exportDecl]
    exact ⟨rfl, mem_flatMap.2 ⟨e, he, by simp [Specifier.idents, hid]⟩⟩
  | _ => cases he

theorem declarationsOf_eq_nil : declarationsOf ss x = [] ↔ x ∉ declaredNames ss := by
  simp only [declarationsOf, TopBinder.under, filterMap_eq_nil_iff, ite_eq_right_iff,
    reduceCtorEq, imp_false, Option.map_eq_some_iff, mem_declaredNames, not_exists, not_and]

theorem meaningOf_ne_nil_of_declared (h : x ∈ declaredNames ss) : meaningOf ss x ≠ [] := by
  have hdeclared : declarationsOf ss x ≠ [] := fun hnil => declarationsOf_eq_nil.1 hnil h
  rwa [meaningOf, if_neg hdeclared]

theorem mem_file_of_meaningOf {f : File} (h : meaningOf f.stmts x ≠ []) : x ∈ f.names := by
  rw [meaningOf] at h
  split at h
  · obtain ⟨b, hb⟩ := exists_mem_of_ne_nil _ h
    obtain ⟨⟨name, binder⟩, hmem, hunder⟩ := mem_filterMap.1 hb
    obtain ⟨id, rfl, rfl⟩ := TopBinder.name_of_under hunder
    obtain ⟨s, hs, hid⟩ := mem_flatMap.1 hmem
    exact mem_map_of_mem (f.mem_idents hs (Stmt.mem_idents_of_importBinders hid))
  · rename_i hdeclared
    rw [declarationsOf_eq_nil, not_not] at hdeclared
    obtain ⟨id, hid, rfl⟩ := mem_namesOf.1 hdeclared
    exact mem_map_of_mem (Aliases.mem_file_of_declaredBy hid)

/-! ## Outlines -/

theorem Stmt.declares_outline : s.outline.declares = s.declares := by
  cases s <;> simp [outline, declares, Declarator.name, Declarator.token, Function.comp_def]

theorem Stmt.importBinders_outline : s.outline.importBinders = s.importBinders := by
  cases s <;> rfl

theorem Stmt.exports_outline : s.outline.exports = s.exports := by
  cases s <;> rfl

theorem Pin.declares_stmt (p : Pin) :
    p.stmt.declares = [⟨some p.ident, .variable .const p.ident.token, false⟩] := rfl

theorem Pin.exports_stmts : (ps.map stmt).flatMap Stmt.exports = [] :=
  flatMap_eq_nil_iff.2 fun _ hs => by
    obtain ⟨p, -, rfl⟩ := mem_map.1 hs
    rfl

theorem Pin.place_exports (ss : List Stmt) :
    (place ps ss).1.flatMap Stmt.exports = ss.flatMap Stmt.exports := by
  induction ss generalizing ps with
  | nil => rfl
  | cons s ss ih => simp [place, exports_stmts, ih]

theorem flatMap_filter_isImport (ss : List Stmt) :
    (ss.filter (·.isImport)).flatMap Stmt.importBinders = ss.flatMap Stmt.importBinders := by
  refine Stmt.flatMap_imports (fun s h => ?_) ss
  cases s with
  | importDecl => cases h
  | _ => rfl

/-- A name that no pin has is declared as before. -/
theorem Pin.place_declarationsOf {ps : List Pin} (h : ∀ p ∈ ps, p.ident.name ≠ x)
    (ss : List Stmt) : declarationsOf (place ps ss).1 x = declarationsOf ss x := by
  induction ss generalizing ps with
  | nil => rfl
  | cons s ss ih =>
    have hsub := (take_perm ps (constants s)).subset
    have hnow : declarationsOf ((take ps (constants s)).1.map stmt) x = [] := by
      rw [declarationsOf_eq_nil, mem_declaredNames]
      rintro ⟨d, hd, id, hid, hname⟩
      obtain ⟨_, hs, hd⟩ := mem_flatMap.1 hd
      obtain ⟨p, hp, rfl⟩ := mem_map.1 hs
      obtain rfl := mem_singleton.1 (p.declares_stmt ▸ hd)
      obtain rfl := Option.some.inj hid
      exact h p (hsub (mem_append_left _ hp)) hname
    have hlater := ih fun p hp => h p (hsub (mem_append_right _ hp))
    simp only [declarationsOf, flatMap_cons, flatMap_append, filterMap_append,
      place, after, cons_append] at hnow hlater ⊢
    rw [hnow, hlater, nil_append]

/-- Pins are not exported. -/
theorem Pin.place_forwardedNames (ss : List Stmt) :
    forwardedNames (place ps ss).1 = forwardedNames ss := by
  have hplace : ((place ps ss).1.flatMap Stmt.declares).filter TopDecl.forwards =
      (ss.flatMap Stmt.declares).filter TopDecl.forwards := by
    induction ss generalizing ps with
    | nil => rfl
    | cons s ss ih =>
      have hpins (ps : List Pin) :
          ((ps.map stmt).flatMap Stmt.declares).filter TopDecl.forwards = [] := by
        refine filter_eq_nil_iff.2 fun d hd => ?_
        obtain ⟨_, hs, hd⟩ := mem_flatMap.1 hd
        obtain ⟨p, -, rfl⟩ := mem_map.1 hs
        obtain rfl := mem_singleton.1 (p.declares_stmt ▸ hd)
        exact Bool.false_ne_true
      simp [place, hpins, ih]
  exact congrArg (fun ds => namesOf (ds.map TopDecl.name)) hplace

/-! ## Moved declarations -/

namespace Aliases

variable {as : Aliases}
variable {e : Specifier}

/-- What becomes of a declaration. -/
def moveDecl (as : Aliases) (d : TopDecl) : List TopDecl :=
  match as.moved? d.name with
  | none => [d]
  | some (orig, b) =>
    ⟨some b, d.binder, false⟩ ::
      if d.forwards then [⟨some (.synthetic orig), .variable .const (.synthetic orig), true⟩] else []

theorem moveStmt_declares (s : Stmt) :
    (as.moveStmt s).flatMap Stmt.declares = s.declares.flatMap as.moveDecl := by
  have hF (t : Token) (x : Bool) (k : VarKind) (ds : List Declarator) :
      (Stmt.varDecl t x k ds).declares = ds.flatMap fun d => (Stmt.varDecl t x k [d]).declares :=
    map_eq_flatMap
  rw [flatMap_moveStmt hF, ← Stmt.flatMap_singles hF, flatMap_assoc]
  refine flatMap_congr fun part hpart => ?_
  cases part with
  | funcDecl t x name | classDecl t x name =>
    rw [moveStmt, Stmt.declares, flatMap_singleton, moveDecl]
    cases as.moved? name with
    | none => rfl
    | some b => cases x <;> rfl
  | varDecl t x k ds =>
    obtain ⟨⟨t', name, type, init⟩, rfl⟩ := Stmt.exists_declarator (Stmt.singles_of_mem hpart)
    rw [moveStmt_declarator, moveDeclarator, Stmt.declares, map_singleton, flatMap_singleton,
      moveDecl, Declarator.name]
    cases as.moved? name with
    | none => rfl
    | some b => cases x <;> cases k <;> rfl
  | _ => rfl

theorem moveAll_declares (ss : List Stmt) :
    (as.moveAll ss).flatMap Stmt.declares = (ss.flatMap Stmt.declares).flatMap as.moveDecl := by
  rw [moveAll, flatMap_assoc, flatMap_assoc]
  exact flatMap_congr fun s _ => moveStmt_declares s

theorem mem_moveDecl {d e : TopDecl} (h : e ∈ as.moveDecl d) :
    (as.moved? d.name = none ∧ e = d) ∨ ∃ b, as.moved? d.name = some b ∧
      (e.name = some b.2 ∨ d.forwards ∧ e.name = some (.synthetic b.1)) := by
  cases hm : as.moved? d.name with
  | none => exact .inl ⟨rfl, by simpa [moveDecl, hm] using h⟩
  | some b =>
    simp only [moveDecl, hm, mem_cons] at h
    obtain rfl | h := h
    · exact .inr ⟨b, rfl, .inl rfl⟩
    · split at h
      · rename_i hforward
        obtain rfl := mem_singleton.1 h
        exact .inr ⟨b, rfl, .inr ⟨hforward, rfl⟩⟩
      · cases h

theorem mem_moveDecl_forward {d : TopDecl} {b : String × Ident} (h : as.moved? d.name = some b)
    (hforward : d.forwards) :
    ⟨some (.synthetic b.1), .variable .const (.synthetic b.1), true⟩ ∈ as.moveDecl d := by
  simp [moveDecl, h, hforward]

/-- Moving adds entries to the export lists, for aliases that are taken. -/
theorem moveStmt_exports {s : Stmt} (h : e ∈ (as.moveStmt s).flatMap Stmt.exports) :
    e ∈ s.exports ∨ ∃ name ∈ declaredBy s, ∃ b, as.moved? name = some b ∧ e.name = some b.2 := by
  obtain h | ⟨part, hpart, b, hm, h⟩ :=
    mem_flatMap_moveStmt (fun _ _ _ _ => by simp [Stmt.exports]) h
  · exact .inl h
  obtain ⟨id, -, hid, -⟩ := moved?_eq_some hm
  refine .inr ⟨some id, mem_declaredBy_of_part hpart hid, b, hid ▸ hm, ?_⟩
  have hsequel : ∀ e ∈ (part.sequel b.1 b.2).flatMap Stmt.exports, e.name = some b.2 := by
    rw [Stmt.sequel]
    cases part.isClass <;> cases part.isExported <;> cases part.isFixed <;>
      simp [Stmt.naming, Stmt.forwarding, Stmt.listing, Stmt.exports]
  refine h.elim (fun h => ?_) (hsequel e)
  cases part with
  | funcDecl | classDecl => cases h
  | varDecl =>
    obtain ⟨⟨⟩, rfl⟩ := Stmt.exists_declarator (Stmt.singles_of_mem hpart)
    cases h
  | _ => cases hm

theorem moveAll_exports (h : e ∈ (as.moveAll ss).flatMap Stmt.exports) :
    e ∈ ss.flatMap Stmt.exports ∨ ∃ b ∈ as.renames ss, e.name = some b.2 := by
  rw [moveAll, flatMap_assoc] at h
  obtain ⟨s, hs, he⟩ := mem_flatMap.1 h
  obtain he | ⟨name, hname, b, hb, he⟩ := moveStmt_exports he
  · exact .inl (mem_flatMap.2 ⟨s, hs, he⟩)
  · exact .inr ⟨b, mem_filterMap.2 ⟨name, mem_flatMap.2 ⟨s, hs, hname⟩, hb⟩, he⟩

theorem exports_subset_moveAll (ss : List Stmt) :
    ss.flatMap Stmt.exports ⊆ (as.moveAll ss).flatMap Stmt.exports := by
  intro e he
  obtain ⟨s, hs, he⟩ := mem_flatMap.1 he
  rw [moveAll, flatMap_assoc]
  refine mem_flatMap.2 ⟨s, hs, ?_⟩
  cases s with
  | exportDecl t named => simpa [moveStmt, Stmt.exports] using he
  | _ => cases he

theorem moveAll_importBinders (ss : List Stmt) :
    (as.moveAll ss).flatMap Stmt.importBinders = ss.flatMap Stmt.importBinders := by
  rw [← flatMap_filter_isImport, moveAll_imports, flatMap_filter_isImport]

end Aliases

theorem Stmt.declares_mapIdents : (s.mapIdents g).declares = s.declares.map (.map g) := by
  cases s with
  | varDecl t x k ds =>
    simp only [mapIdents, declares, Declarator.mapAll_eq_map, map_map]
    exact map_congr_left fun d _ => by cases d; rfl
  | _ => rfl

theorem Specifier.or_mapIdents (e : Specifier) :
    (e.mapIdents g).newName.or (e.mapIdents g).name = (e.newName.or e.name).map g := by
  cases h : e.newName <;> simp [mapIdents, h]

theorem Stmt.importBinders_mapIdents :
    (s.mapIdents g).importBinders = s.importBinders.map fun b => (b.1.map g, b.2) := by
  cases s with
  | importDecl t space default named module =>
    simp [mapIdents, importBinders, Specifier.or_mapIdents]
  | _ => rfl

theorem Stmt.exports_mapIdents : (s.mapIdents g).exports = s.exports.map (.mapIdents g) := by
  cases s <;> rfl

/-! ## The preamble -/

theorem preamble_declares {env : Env} {u : Lowering} {d : TopDecl}
    (h : d ∈ (preamble env u).flatMap Stmt.declares) :
    ∃ id ∈ u.traceVar.toList, d.name = some id := by
  obtain ⟨s, hs, hd⟩ := mem_flatMap.1 h
  obtain ⟨id, hid, rfl⟩ | ⟨e, -, rfl⟩ := mem_preamble hs
  · obtain rfl := mem_singleton.1 hd
    exact ⟨id, hid, rfl⟩
  · cases hd

theorem preamble_importBinders {env : Env} {u : Lowering} {b : TopBinder}
    (h : (some id, b) ∈ (preamble env u).flatMap Stmt.importBinders) :
    ∃ e ∈ u.ledger.counted, id = e.ident ∧ b = .space (.synthetic "import") (some e.path) := by
  obtain ⟨s, hs, hb⟩ := mem_flatMap.1 h
  obtain ⟨v, -, rfl⟩ | ⟨e, he, rfl⟩ := mem_preamble hs
  · cases hb
  · exact ⟨e, he, by simpa [Stmt.namespaceImport, Stmt.importBinders] using hb⟩

theorem preamble_exports (env : Env) (u : Lowering) :
    (preamble env u).flatMap Stmt.exports = [] := by
  refine flatMap_eq_nil_iff.2 fun s hs => ?_
  obtain ⟨id, -, rfl⟩ | ⟨e, -, rfl⟩ := mem_preamble hs <;> rfl

end ExtensionLowering
