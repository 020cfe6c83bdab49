import ExtensionLowering.Proofs.Alias.ExportList
import ExtensionLowering.Proofs.Lowering.Grouping
/-!
# The interface of a file whose declarations move

Functions, classes and variables move to their aliases in different ways, and a statement with
several variables is taken apart when one of them moves. Here the outcome is said of one declaration
at a time: what is declared under which name, what follows it, and which names are exported.

## Main definitions

* `declaring`: the declarations of a name.
* `exportedNames`: the names that a file exports.
* `Aliases.settle`: statements whose declarations have moved, aliases that found none given up.
* `Aliases.Fresh`: the aliases are new to a file.

## Main statements

* `Aliases.settle_interface`: bindings and exports of a file whose declarations have moved.
-/
namespace ExtensionLowering

open List

variable {ss : List Stmt}
variable {s : Stmt}

namespace Stmt

def binds (y : String) (s : Stmt) : Bool :=
  s.binder?.map (·.name) = some y

/-- The identifiers whose names a statement exports. -/
def exported (s : Stmt) : List Ident :=
  (if s.isExported then (Aliases.declaredBy s).filterMap id else []) ++
    s.exports.filterMap fun e => e.newName.or e.name

end Stmt

/-- The declarations of a name. -/
def declaring (ss : List Stmt) (y : String) : List Stmt :=
  (ss.flatMap Stmt.singles).filter (Stmt.binds y)

def exportedNames (ss : List Stmt) : List String :=
  (ss.flatMap Stmt.exported).map (·.name)

namespace Aliases

/-- The statements with their declarations moved. The aliases that no declaration took are given
the names they stand for. -/
def settle (as : Aliases) (ss : List Stmt) : List Stmt :=
  relabel (as.untaken (as.renames ss)) (as.moveAll ss)

/-- The body of a file consists of the pins that found no place and its settled statements, with the
references to what has moved renamed. -/
theorem moveDeclarations_settle {as : Aliases} {pins body : List Stmt}
    (h : moveDeclarations as pins ss = some body) :
    let r := as.renames ss
    let renamed := r.references (relabel (as.untaken r) pins ++ as.settle ss)
    body = relabel (r.carried renamed) renamed := by
  have hsplit : relabel (as.untaken (as.renames ss)) (pins ++ as.moveAll ss) =
      relabel (as.untaken (as.renames ss)) pins ++ as.settle ss := by
    rw [settle, relabel_eq_map, relabel_eq_map, relabel_eq_map, map_append]
  simp only [moveDeclarations, hsplit] at h
  split at h
  · cases h
  · split at h
    · cases h
    · exact (Option.some.inj h).symm

/-- Aliases made for some statements: different identifiers with different names, none of which the
statements declare or export, and each of which occurs in them under its own name. -/
structure Fresh (as : Aliases) (ss : List Stmt) : Prop where
  keys : (as.map (·.1)).Nodup
  marked : ∀ a ∈ as, a.2.ident.mark.isSome
  marks : (as.map (·.2.ident.mark)).Nodup
  names : (as.map (·.2.ident.name)).Nodup
  declared : ∀ a ∈ as, ∀ name ∈ ss.flatMap declaredBy, ∀ id ∈ name,
    id.name ≠ a.2.ident.name ∧ id.mark ≠ a.2.ident.mark
  exported : ∀ a ∈ as, ∀ id ∈ ss.flatMap Stmt.exported, id.mark ≠ a.2.ident.mark
  occurs : ∀ a ∈ as, ∀ id ∈ ss.flatMap Stmt.idents, id.mark = a.2.ident.mark →
    id.name = a.2.ident.name

end Aliases

/-! ## One declaration at a time -/

namespace Stmt

variable {s : Stmt}

theorem filterMap_declaredBy (s : Stmt) :
    (Aliases.declaredBy s).filterMap id = s.singles.filterMap binder? := by
  cases s with
  | varDecl t x k ds =>
    simp [singles, binder?, Aliases.declaredBy, filterMap_map, Function.comp_def]
  | _ => rfl

theorem filterMap_declaredBy_all (ss : List Stmt) :
    (ss.flatMap Aliases.declaredBy).filterMap id = (ss.flatMap singles).filterMap binder? := by
  rw [filterMap_flatMap, filterMap_flatMap]
  exact flatMap_congr fun s _ => filterMap_declaredBy s

theorem binds_iff {y : String} : s.binds y = true ↔ ∃ id, s.binder? = some id ∧ id.name = y := by
  simp [binds]

theorem singles_under (b : Ident) (h : s.singles = [s]) : (s.under b).singles = [s.under b] := by
  cases s with
  | varDecl t x k ds =>
    obtain ⟨⟨t', name, type, init⟩, rfl⟩ := exists_declarator h
    rfl
  | _ => rfl

theorem singles_sequel (s : Stmt) (orig : String) (b : Ident) :
    (s.sequel orig b).flatMap singles = s.sequel orig b := by
  rw [sequel]
  cases s.isClass <;> cases s.isExported <;> cases s.isFixed <;> rfl

theorem binder?_under (b : Ident) (h : s.binder?.isSome) : (s.under b).binder? = some b := by
  cases s with
  | funcDecl => rfl
  | classDecl => rfl
  | varDecl t x k ds =>
    match ds, h with
    | [.mk t' name type init], _ => rfl
  | _ => cases h

end Stmt

theorem declaredNames_eq (ss : List Stmt) :
    declaredNames ss = ((ss.flatMap Stmt.singles).filterMap Stmt.binder?).map (·.name) := by
  rw [declaredNames, Stmt.filterMap_declaredBy_all]

theorem mem_declaredNames_single {x : String} :
    x ∈ declaredNames ss ↔
      ∃ s ∈ ss.flatMap Stmt.singles, ∃ id, s.binder? = some id ∧ id.name = x := by
  rw [declaredNames_eq, mem_map]
  constructor
  · rintro ⟨id, hid, rfl⟩
    obtain ⟨s, hs, hid⟩ := mem_filterMap.1 hid
    exact ⟨s, hs, id, hid, rfl⟩
  · rintro ⟨s, hs, id, hid, rfl⟩
    exact ⟨id, mem_filterMap.2 ⟨s, hs, hid⟩, rfl⟩

theorem mem_declaredNames_of_declaring {y : String} (h : s ∈ declaring ss y) :
    y ∈ declaredNames ss := by
  obtain ⟨hs, hbinds⟩ := mem_filter.1 h
  obtain ⟨id, hid, hy⟩ := Stmt.binds_iff.1 hbinds
  exact mem_declaredNames_single.2 ⟨s, hs, id, hid, hy⟩

/-- A declaration is the only one of its name. -/
theorem exists_split_of_nodup (hnodup : (declaredNames ss).Nodup) (hs : s ∈ ss.flatMap Stmt.singles)
    {id : Ident} (hid : s.binder? = some id) :
    ∃ before after, ss.flatMap Stmt.singles = before ++ s :: after ∧
      ∀ x ∈ before ++ after, ∀ id', x.binder? = some id' → id'.name ≠ id.name := by
  obtain ⟨before, after, hsplit⟩ := append_of_mem hs
  refine ⟨before, after, hsplit, fun x hx id' hid' heq => ?_⟩
  rw [declaredNames_eq, hsplit, filterMap_append, filterMap_cons_some hid,
    map_append, map_cons, nodup_middle, ← map_append, ← filterMap_append,
    nodup_cons] at hnodup
  exact hnodup.1 (mem_map.2 ⟨id', mem_filterMap.2 ⟨x, hx, hid'⟩, heq⟩)

namespace Aliases

variable {as : Aliases} {s : Stmt} {orig : String} {b : Ident}

theorem moveStmt_single (hs : s.singles = [s]) :
    (as.moveStmt s).flatMap Stmt.singles = as.moveStmt s := by
  cases h : as.moved? s.binder? with
  | none => rw [moveStmt_of_unmoved hs h, flatMap_singleton, hs]
  | some p =>
    rw [moveStmt_of_moved hs h, flatMap_cons, Stmt.singles_sequel, Stmt.singles_under _ hs,
      singleton_append]

/-- A statement that is taken apart moves as its parts do. -/
theorem moveStmt_singles (s : Stmt) :
    (as.moveStmt s).flatMap Stmt.singles = s.singles.flatMap as.moveStmt := by
  rw [flatMap_moveStmt (F := Stmt.singles) fun _ _ _ _ => map_eq_flatMap]
  exact flatMap_congr fun _ hpart => moveStmt_single (Stmt.singles_of_mem hpart)

theorem moveAll_singles (as : Aliases) (ss : List Stmt) :
    (as.moveAll ss).flatMap Stmt.singles = (ss.flatMap Stmt.singles).flatMap as.moveStmt := by
  rw [moveAll, flatMap_assoc, flatMap_assoc]
  exact flatMap_congr fun s _ => moveStmt_singles s

end Aliases

/-! ## Where a name is declared -/

theorem Stmt.some_mem_declaredBy (hs : s ∈ ss.flatMap singles) {name : Ident}
    (hname : s.binder? = some name) : some name ∈ ss.flatMap Aliases.declaredBy := by
  obtain ⟨s₀, hs₀, hs⟩ := mem_flatMap.1 hs
  exact mem_flatMap.2 ⟨s₀, hs₀, Aliases.mem_declaredBy_of_part hs hname⟩

theorem Stmt.mem_singles_single (hs : s ∈ ss.flatMap singles) : s.singles = [s] := by
  obtain ⟨s₀, -, hs⟩ := mem_flatMap.1 hs
  exact singles_of_mem hs

theorem Stmt.filter_sequel (s : Stmt) (orig y : String) (b : Ident) :
    (s.sequel orig b).filter (binds y) =
      if s.isExported && s.isFixed && orig = y then [forwarding orig b] else [] := by
  have hforward : (forwarding orig b).binds y = decide (orig = y) := by
    simp [forwarding, binds, binder?, Declarator.name, Ident.synthetic]
  have hclass : (naming orig b).binds y = false := rfl
  have hlist : (listing orig b).binds y = false := rfl
  cases hc : s.isClass <;> cases hx : s.isExported <;> cases hf : s.isFixed <;>
    simp [sequel, hc, hx, hf, filter_cons, hforward, hclass, hlist]

namespace Aliases

variable {as : Aliases} {ss : List Stmt} {s : Stmt} {id : Ident} {a : Alias}

theorem moved?_of_lookup (hid : s.binder? = some id) (h : as.lookup id.name = some a) :
    as.moved? s.binder? = some (id.name, a.ident) := by
  simp [moved?, hid, h]

theorem moved?_of_lookup_none (hid : s.binder? = some id) (h : as.lookup id.name = none) :
    as.moved? s.binder? = none := by
  simp [moved?, hid, h]

theorem moved?_cases (as : Aliases) (s : Stmt) :
    as.moved? s.binder? = none ∨ ∃ id a, s.binder? = some id ∧ as.lookup id.name = some a := by
  cases hid : s.binder? with
  | none => exact .inl rfl
  | some id =>
    cases ha : as.lookup id.name with
    | none => exact .inl (by simp [moved?, ha])
    | some a => exact .inr ⟨id, a, rfl, ha⟩

/-- What a declaration with an alias declares of a name. -/
theorem filter_moveStmt_of_moved (hs : s.singles = [s]) (hid : s.binder? = some id)
    (ha : as.lookup id.name = some a) (y : String) :
    (as.moveStmt s).filter (Stmt.binds y) =
      (if a.ident.name = y then [s.under a.ident] else []) ++
        if s.isExported && s.isFixed && id.name = y then [.forwarding id.name a.ident]
        else [] := by
  have hunder : (s.under a.ident).binds y = decide (a.ident.name = y) := by
    simp [Stmt.binds, Stmt.binder?_under _ (Option.isSome_of_eq_some hid)]
  rw [moveStmt_of_moved hs (moved?_of_lookup hid ha), filter_cons, Stmt.filter_sequel, hunder]
  by_cases hy : a.ident.name = y <;> simp [hy]

/-- A declaration shows its own name and that of its alias, no others. -/
theorem filter_moveStmt_eq_nil (hs : s.singles = [s]) {y : String}
    (hname : ∀ id, s.binder? = some id → id.name ≠ y)
    (halias : ∀ id a, s.binder? = some id → as.lookup id.name = some a → a.ident.name ≠ y) :
    (as.moveStmt s).filter (Stmt.binds y) = [] := by
  obtain hnone | ⟨id, a, hid, ha⟩ := as.moved?_cases s
  · have hbinds : s.binds y = false := by
      refine Bool.eq_false_iff.2 fun h => ?_
      obtain ⟨id, hid, hy⟩ := Stmt.binds_iff.1 h
      exact hname id hid hy
    rw [moveStmt_of_unmoved hs hnone, filter_cons_of_neg (by simp [hbinds]), filter_nil]
  · simp [filter_moveStmt_of_moved hs hid ha, hname id hid, halias id a hid ha]

theorem declaring_moveAll (as : Aliases) (ss : List Stmt) (y : String) :
    declaring (as.moveAll ss) y =
      (ss.flatMap Stmt.singles).flatMap fun s => (as.moveStmt s).filter (Stmt.binds y) := by
  rw [declaring, moveAll_singles, filter_flatMap]

/-- A name that only one declaration can show is declared where that one moves. -/
theorem declaring_moveAll_of_split {before after : List Stmt}
    (hsplit : ss.flatMap Stmt.singles = before ++ s :: after) {y : String}
    (hname : ∀ x ∈ before ++ after, ∀ id, x.binder? = some id → id.name ≠ y)
    (halias : ∀ x ∈ before ++ after, ∀ id a, x.binder? = some id → as.lookup id.name = some a →
      a.ident.name ≠ y) :
    declaring (as.moveAll ss) y = (as.moveStmt s).filter (Stmt.binds y) := by
  have hothers : ∀ x ∈ before ++ after, (as.moveStmt x).filter (Stmt.binds y) = [] := by
    intro x hx
    have hmem : x ∈ ss.flatMap Stmt.singles := by
      rw [hsplit]
      grind
    exact filter_moveStmt_eq_nil (Stmt.mem_singles_single hmem) (hname x hx) (halias x hx)
  have hbefore : before.flatMap (fun s => (as.moveStmt s).filter (Stmt.binds y)) = [] :=
    flatMap_eq_nil_iff.2 fun x hx => hothers x (mem_append_left _ hx)
  have hafter : after.flatMap (fun s => (as.moveStmt s).filter (Stmt.binds y)) = [] :=
    flatMap_eq_nil_iff.2 fun x hx => hothers x (mem_append_right _ hx)
  rw [declaring_moveAll, hsplit, flatMap_append, flatMap_cons, hbefore, hafter,
    nil_append, append_nil]

namespace Fresh

variable (h : as.Fresh ss)

include h

/-- No declared name is that of an alias. -/
theorem declared_ne (hs : s ∈ ss.flatMap Stmt.singles) (hid : s.binder? = some id) {x : String}
    (ha : as.lookup x = some a) : id.name ≠ a.ident.name :=
  (h.declared _ (mem_of_lookup ha) _ (Stmt.some_mem_declaredBy hs hid) id rfl).1

/-- Different names have aliases of different names. -/
theorem alias_ne {x x' : String} {a' : Alias} (ha : as.lookup x = some a)
    (ha' : as.lookup x' = some a') (hne : x' ≠ x) : a'.ident.name ≠ a.ident.name := by
  intro heq
  have := inj_on_of_nodup_map h.names (mem_of_lookup ha') (mem_of_lookup ha) heq
  exact hne (congrArg Prod.fst this)

variable (hnodup : (declaredNames ss).Nodup) (hs : s ∈ ss.flatMap Stmt.singles)
  (hid : s.binder? = some id)

include hnodup hs hid

/-- A declared name with an alias is declared once, under the alias. -/
theorem declaring_alias (ha : as.lookup id.name = some a) :
    declaring (as.moveAll ss) a.ident.name = [s.under a.ident] := by
  obtain ⟨before, after, hsplit, hothers⟩ := exists_split_of_nodup hnodup hs hid
  have hmem : ∀ x ∈ before ++ after, x ∈ ss.flatMap Stmt.singles := fun x hx => by
    rw [hsplit]
    grind
  rw [declaring_moveAll_of_split hsplit
      (fun x hx id' hid' => h.declared_ne (hmem x hx) hid' ha)
      (fun x hx id' a' hid' ha' => h.alias_ne ha ha' (hothers x hx id' hid')),
    filter_moveStmt_of_moved (Stmt.mem_singles_single hs) hid ha]
  simp [h.declared_ne hs hid ha]

/-- The old name of a declaration is only declared to export it. -/
theorem declaring_old (ha : as.lookup id.name = some a) :
    declaring (as.moveAll ss) id.name =
      if s.isExported && s.isFixed then [.forwarding id.name a.ident] else [] := by
  obtain ⟨before, after, hsplit, hothers⟩ := exists_split_of_nodup hnodup hs hid
  rw [declaring_moveAll_of_split hsplit hothers
      (fun x hx id' a' hid' ha' => (h.declared_ne hs hid ha').symm),
    filter_moveStmt_of_moved (Stmt.mem_singles_single hs) hid ha]
  simp [(h.declared_ne hs hid ha).symm]

/-- A declared name without an alias is declared as before. -/
theorem declaring_unmoved (ha : as.lookup id.name = none) :
    declaring (as.moveAll ss) id.name = [s] := by
  obtain ⟨before, after, hsplit, hothers⟩ := exists_split_of_nodup hnodup hs hid
  have hmoved := moved?_of_lookup_none hid ha
  rw [declaring_moveAll_of_split hsplit hothers
      (fun x hx id' a' hid' ha' => (h.declared_ne hs hid ha').symm),
    moveStmt_of_unmoved (Stmt.mem_singles_single hs) hmoved]
  exact filter_cons_of_pos (Stmt.binds_iff.2 ⟨id, hid, rfl⟩)

end Fresh

end Aliases

/-! ## What is exported -/

namespace Stmt

variable {s : Stmt}

theorem exported_singles (s : Stmt) : s.singles.flatMap exported = s.exported := by
  cases s with
  | varDecl t x k ds =>
    cases x
    · simp [singles, exported, isExported, exports, flatMap_map]
    · simp only [singles, exported, isExported, exports, flatMap_map, if_true,
        Aliases.declaredBy, filterMap_nil, append_nil, filterMap_map]
      exact (filterMap_eq_flatMap_toList ..).symm
  | _ => exact flatMap_singleton ..

theorem exported_mapIdents (g : Ident → Ident) (s : Stmt) :
    (s.mapIdents g).exported = s.exported.map g := by
  have hflag : (s.mapIdents g).isExported = s.isExported := by cases s <;> rfl
  have hnames : Aliases.declaredBy (s.mapIdents g) = (Aliases.declaredBy s).map (.map g) := by
    rw [declaredBy_eq, declaredBy_eq, declares_mapIdents, map_map, map_map]
    rfl
  rw [exported, exported, hflag, hnames, exports_mapIdents, map_append, filterMap_map,
    filterMap_map, map_filterMap]
  congr 1
  · split
    · rw [map_filterMap]
      rfl
    · rfl
  · exact filterMap_congr fun e _ => e.or_mapIdents g

theorem exported_of_binder (hs : s.singles = [s]) {id : Ident} (hid : s.binder? = some id) :
    s.exported = if s.isExported then [id] else [] := by
  cases s with
  | funcDecl t x name | classDecl t x name =>
    obtain rfl : name = some id := hid
    cases x <;> rfl
  | varDecl t x k ds =>
    obtain ⟨⟨t', name, type, init⟩, rfl⟩ := exists_declarator hs
    obtain rfl : name = some id := hid
    cases x <;> rfl
  | _ => cases hid

theorem exported_under (b : Ident) (hid : s.binder?.isSome) : (s.under b).exported = [] := by
  cases s with
  | funcDecl => rfl
  | classDecl => rfl
  | varDecl t x k ds =>
    match ds, hid with
    | [.mk t' name type init], _ => rfl
  | _ => cases hid

theorem exported_sequel (s : Stmt) (orig : String) (b : Ident) :
    (s.sequel orig b).flatMap exported = if s.isExported then [.synthetic orig] else [] := by
  rw [sequel]
  cases s.isClass <;> cases s.isExported <;> cases s.isFixed <;> rfl

end Stmt

theorem flatMap_exported_singles (ss : List Stmt) :
    (ss.flatMap Stmt.singles).flatMap Stmt.exported = ss.flatMap Stmt.exported := by
  rw [flatMap_assoc]
  exact flatMap_congr fun s _ => s.exported_singles

namespace Aliases

variable {as : Aliases} {ss : List Stmt} {s : Stmt} {id : Ident} {a : Alias}

theorem exported_moveStmt_of_moved (hs : s.singles = [s]) (hid : s.binder? = some id)
    (ha : as.lookup id.name = some a) :
    (as.moveStmt s).flatMap Stmt.exported =
      if s.isExported then [.synthetic id.name] else [] := by
  rw [moveStmt_of_moved hs (moved?_of_lookup hid ha), flatMap_cons,
    Stmt.exported_under _ (Option.isSome_of_eq_some hid), Stmt.exported_sequel, nil_append]

theorem exported_moveAll (as : Aliases) (ss : List Stmt) :
    (as.moveAll ss).flatMap Stmt.exported =
      (ss.flatMap Stmt.singles).flatMap fun s => (as.moveStmt s).flatMap Stmt.exported := by
  rw [← flatMap_exported_singles, moveAll_singles, flatMap_assoc]

/-- Moving changes the identifiers through which names are exported, but not the names. -/
theorem exportedNames_moveAll (as : Aliases) (ss : List Stmt) :
    exportedNames (as.moveAll ss) = exportedNames ss := by
  rw [exportedNames, exported_moveAll, exportedNames, ← flatMap_exported_singles ss,
    map_flatMap, map_flatMap]
  refine flatMap_congr fun s hs => ?_
  have hsingle := Stmt.mem_singles_single hs
  obtain hnone | ⟨id, a, hid, ha⟩ := as.moved?_cases s
  · rw [moveStmt_of_unmoved hsingle hnone, flatMap_singleton]
  · rw [exported_moveStmt_of_moved hsingle hid ha, Stmt.exported_of_binder hsingle hid]
    split <;> rfl

theorem mem_exported_moveAll (hid : id ∈ (as.moveAll ss).flatMap Stmt.exported) :
    id ∈ ss.flatMap Stmt.exported ∨ id.mark = none := by
  rw [exported_moveAll] at hid
  obtain ⟨s, hs, hid⟩ := mem_flatMap.1 hid
  have hsingle := Stmt.mem_singles_single hs
  obtain hnone | ⟨name, a, hname, ha⟩ := as.moved?_cases s
  · rw [moveStmt_of_unmoved hsingle hnone, flatMap_singleton] at hid
    rw [← flatMap_exported_singles]
    exact .inl (mem_flatMap.2 ⟨s, hs, hid⟩)
  · rw [exported_moveStmt_of_moved hsingle hname ha] at hid
    split at hid
    · obtain rfl := mem_singleton.1 hid
      exact .inr rfl
    · cases hid

end Aliases

/-! ## Aliases that are given up -/

namespace Stmt

variable {labels : List (Nat × String)}

theorem singles_relabel (labels : List (Nat × String)) (s : Stmt) :
    (s.relabel labels).singles = s.singles.map (relabel labels) := by
  by_cases h : labels.isEmpty
  · have hid : relabel labels = id := funext fun s => if_pos h
    rw [hid, map_id]
    rfl
  · have hmap : relabel labels = mapIdents (Ident.relabel labels) := funext fun s => if_neg h
    rw [hmap]
    cases s <;> simp [mapIdents, singles, Declarator.mapAll_eq_map, Function.comp_def]

theorem binder?_relabel (labels : List (Nat × String)) (s : Stmt) :
    (s.relabel labels).binder? = s.binder?.map (Ident.relabel labels) := by
  by_cases h : labels.isEmpty
  · obtain rfl := isEmpty_iff.1 h
    rw [Ident.relabel_nil, Option.map_id']
    rfl
  · rw [relabel, if_neg h]
    cases s with
    | varDecl t x k ds =>
      cases ds with
      | nil => rfl
      | cons d ds =>
        cases d
        cases ds <;> rfl
    | _ => rfl

theorem isExported_relabel (labels : List (Nat × String)) (s : Stmt) :
    (s.relabel labels).isExported = s.isExported := by
  rw [relabel]
  split
  · rfl
  · cases s <;> rfl

theorem synthetic_relabel (labels : List (Nat × String)) (name : String) :
    (Ident.synthetic name).relabel labels = .synthetic name :=
  Ident.relabel_of_unmarked rfl

theorem forwarding_relabel (orig : String) {b : Ident} (hb : b.relabel labels = b) :
    (forwarding orig b).relabel labels = forwarding orig b := by
  simp [relabel, forwarding, mapIdents, Declarator.mapAll, Declarator.mapIdents, Expr.mapIdents, hb,
    synthetic_relabel]

/-- The statements behind a declaration mention its alias and names of their own. -/
theorem sequel_relabel (s : Stmt) (orig : String) {b : Ident} (hb : b.relabel labels = b) :
    (s.sequel orig b).map (relabel labels) = s.sequel orig b := by
  have hname := synthetic_relabel labels
  have hlist : (listing orig b).relabel labels = listing orig b := by
    simp [relabel, listing, mapIdents, Specifier.mapIdents, hb, hname]
  have hclass : (naming orig b).relabel labels = naming orig b := by
    simp [relabel, naming, mapIdents, Expr.mapIdents, Expr.mapAll, Property.mapAll,
      Property.mapIdents, hb, hname]
  rw [sequel]
  cases s.isClass <;> cases s.isExported <;> cases s.isFixed <;>
    simp [forwarding_relabel orig hb, hlist, hclass]

end Stmt

/-- Relabelling leaves declarations in place if their names stay. -/
theorem declaring_relabel {labels : List (Nat × String)}
    (h : ∀ s ∈ ss.flatMap Stmt.singles, ∀ id, s.binder? = some id → id.relabel labels = id)
    (y : String) :
    declaring (relabel labels ss) y = (declaring ss y).map (Stmt.relabel labels) := by
  have hsingles : (relabel labels ss).flatMap Stmt.singles =
      (ss.flatMap Stmt.singles).map (Stmt.relabel labels) := by
    rw [relabel_eq_map, flatMap_map, map_flatMap]
    exact flatMap_congr fun s _ => s.singles_relabel labels
  rw [declaring, declaring, hsingles, filter_map]
  refine congrArg _ (filter_congr fun s hs => ?_)
  have hbinder : (s.relabel labels).binder? = s.binder? := by
    rw [Stmt.binder?_relabel]
    cases hid : s.binder? with
    | none => rfl
    | some id => exact congrArg some (h s hs id hid)
  rw [Function.comp_apply, Stmt.binds, Stmt.binds, hbinder]

namespace Aliases

variable {as : Aliases} {ss : List Stmt} {s : Stmt} {id : Ident} {a : Alias}

theorem mem_renames (hs : s ∈ ss.flatMap Stmt.singles) (hid : s.binder? = some id)
    (ha : as.lookup id.name = some a) : (id.name, a.ident) ∈ as.renames ss := by
  refine mem_filterMap.2 ⟨some id, Stmt.some_mem_declaredBy hs hid, ?_⟩
  rw [← hid, moved?_of_lookup hid ha]

theorem binder_moveAll (hs : s ∈ (as.moveAll ss).flatMap Stmt.singles) (hid : s.binder? = some id) :
    some id ∈ ss.flatMap declaredBy ∨ id.mark = none ∨ ∃ b ∈ as.renames ss, b.2 = id := by
  rw [moveAll_singles] at hs
  obtain ⟨s₀, hs₀, hs⟩ := mem_flatMap.1 hs
  have hsingle := Stmt.mem_singles_single hs₀
  obtain hnone | ⟨name, a, hname, ha⟩ := as.moved?_cases s₀
  · rw [moveStmt_of_unmoved hsingle hnone] at hs
    obtain rfl := mem_singleton.1 hs
    exact .inl (Stmt.some_mem_declaredBy hs₀ hid)
  · rw [moveStmt_of_moved hsingle (moved?_of_lookup hname ha)] at hs
    obtain rfl | hs := mem_cons.1 hs
    · rw [Stmt.binder?_under _ (Option.isSome_of_eq_some hname)] at hid
      obtain rfl := Option.some.inj hid
      exact .inr (.inr ⟨_, mem_renames hs₀ hname ha, rfl⟩)
    · have hfilter := Stmt.filter_sequel s₀ name.name id.name a.ident
      have hmem : s ∈ (s₀.sequel name.name a.ident).filter (Stmt.binds id.name) :=
        mem_filter.2 ⟨hs, Stmt.binds_iff.2 ⟨id, hid, rfl⟩⟩
      rw [hfilter] at hmem
      split at hmem
      · obtain rfl := mem_singleton.1 hmem
        obtain rfl := Option.some.inj hid
        exact .inr (.inl rfl)
      · cases hmem

/-- A declaration and what follows it stand together after the move. -/
theorem moveStmt_infix_moveAll (hs : s ∈ ss.flatMap Stmt.singles)
    (hmoved : (as.moved? s.binder?).isSome) : as.moveStmt s <:+: as.moveAll ss := by
  obtain ⟨s₀, hs₀, hs⟩ := mem_flatMap.1 hs
  refine List.IsInfix.trans ?_ (infix_flatMap_of_mem hs₀ as.moveStmt)
  cases s₀ with
  | varDecl t x k ds =>
    obtain ⟨d, hd, rfl⟩ := mem_map.1 hs
    have hany : ds.any (fun d => (as.moved? d.name).isSome) :=
      any_eq_true.2 ⟨d, hd, hmoved⟩
    rw [moveStmt_declarator, moveStmt, if_pos hany, flatMap_def]
    exact infix_of_mem_flatten (mem_map_of_mem hd)
  | _ =>
    obtain rfl := mem_singleton.1 hs
    exact infix_rfl

namespace Fresh

variable {x : String}
variable (h : as.Fresh ss)

include h

theorem eq_of_mark {x' : String} {a' : Alias} (ha : (x, a) ∈ as) (ha' : (x', a') ∈ as)
    (hmark : a.ident.mark = a'.ident.mark) : x = x' ∧ a = a' :=
  Prod.mk.inj (inj_on_of_nodup_map h.marks ha ha' hmark)

/-- Only identifiers of aliases that are given up are relabelled. -/
theorem relabel_eq (hid : (∀ a ∈ as, id.mark ≠ a.2.ident.mark) ∨ id.mark = none ∨
      ∃ b ∈ as.renames ss, b.2.mark = id.mark) :
    id.relabel (as.untaken (as.renames ss)) = id := by
  refine Ident.relabel_of_lookup fun m hm => ?_
  by_contra hsome
  obtain ⟨name, hname⟩ := Option.ne_none_iff_exists'.1 hsome
  obtain ⟨a, ha, huntaken, hmark⟩ := lookup_untaken hname
  obtain hother | hnone | ⟨b, htaken, hb⟩ := hid
  · exact hother _ ha (hm.trans hmark.symm)
  · cases hm.symm.trans hnone
  · obtain ⟨a', ha', hident⟩ := mem_renames_lookup htaken
    obtain ⟨rfl, -⟩ := h.eq_of_mark ha (mem_of_lookup ha')
      (hmark.trans (hm.symm.trans (hident ▸ hb.symm)))
    cases huntaken.symm.trans (lookup_renames htaken)

theorem relabel_taken (hs : s ∈ ss.flatMap Stmt.singles) (hid : s.binder? = some id)
    (ha : as.lookup id.name = some a) : a.ident.relabel (as.untaken (as.renames ss)) = a.ident :=
  h.relabel_eq (.inr (.inr ⟨_, mem_renames hs hid ha, rfl⟩))

/-- Declared names are not relabelled, so a name is declared where it was after the move. -/
theorem declaring_settle (y : String) :
    declaring (as.settle ss) y =
      (declaring (as.moveAll ss) y).map (Stmt.relabel (as.untaken (as.renames ss))) := by
  refine declaring_relabel (fun s hs id hid => h.relabel_eq ?_) y
  refine (binder_moveAll hs hid).imp
    (fun hdeclared a ha => (h.declared a ha _ hdeclared id rfl).2) ?_
  exact Or.imp_right fun ⟨b, hb, hident⟩ => ⟨b, hb, congrArg Ident.mark hident⟩

theorem exportedNames_settle : exportedNames (as.settle ss) = exportedNames ss := by
  rw [← exportedNames_moveAll as ss, exportedNames, exportedNames, settle,
    relabel_flatMap Stmt.exported (fun g => g) Stmt.exported_mapIdents (fun _ => rfl)]
  refine congrArg _ ((map_congr_left fun id hid => h.relabel_eq ?_).trans (map_id _))
  exact (mem_exported_moveAll hid).imp (fun hmem a ha => h.exported a ha id hmem) .inl

/-- A declaration that moves is followed by what restores its name and its export. -/
theorem moved_infix_settle (hs : s ∈ ss.flatMap Stmt.singles) (hid : s.binder? = some id)
    (ha : as.lookup id.name = some a) :
    (s.under a.ident).relabel (as.untaken (as.renames ss)) :: s.sequel id.name a.ident <:+:
      as.settle ss := by
  have hmoved := moved?_of_lookup hid ha
  have hinfix := moveStmt_infix_moveAll hs (Option.isSome_of_eq_some hmoved)
  rw [moveStmt_of_moved (Stmt.mem_singles_single hs) hmoved] at hinfix
  have hsettled := hinfix.map (Stmt.relabel (as.untaken (as.renames ss)))
  rw [map_cons, Stmt.sequel_relabel _ _ (h.relabel_taken hs hid ha),
    ← relabel_eq_map] at hsettled
  exact hsettled

/-- An alias of a name that nothing declares is known by that name. -/
theorem relabel_untaken (ha : (x, a) ∈ as) (hx : x ∉ declaredNames ss)
    (hid : id.mark = a.ident.mark) : id.relabel (as.untaken (as.renames ss)) = id.rename x := by
  obtain ⟨m, hm⟩ := Option.isSome_iff_exists.1 (h.marked _ ha)
  have hlookup : (as.untaken (as.renames ss)).lookup m = _ := lookup_untaken_alias h.marks ha hm
  rw [if_neg hx] at hlookup
  simp [Ident.relabel, hid.trans hm, hlookup]

/-- An alias that a declaration took goes by its own name. -/
theorem name_of_taken (ha : (x, a) ∈ as) (hid : id ∈ (as.moveAll ss).flatMap Stmt.idents)
    (hmark : id.mark = a.ident.mark) : id.name = a.ident.name := by
  obtain hid | hnone | ⟨orig, hid⟩ := moveAll_idents hid
  · exact h.occurs _ ha id hid hmark
  · have := h.marked _ ha
    rw [← hmark, hnone] at this
    cases this
  · obtain ⟨a', ha', rfl⟩ := mem_renames_lookup hid
    rw [(h.eq_of_mark ha (mem_of_lookup ha') hmark.symm).2]

/-- The identifiers of an alias in the settled statements. -/
theorem idents_settle (ha : (x, a) ∈ as) (hid : id ∈ (as.settle ss).flatMap Stmt.idents)
    (hmark : id.mark = a.ident.mark) :
    (x ∈ declaredNames ss → id.name = a.ident.name) ∧
      (x ∉ declaredNames ss → id.name = x ∧ id.token.lexeme = x) := by
  rw [settle, relabel_idents] at hid
  obtain ⟨id', hid', rfl⟩ := mem_map.1 hid
  have hmark' : id'.mark = a.ident.mark := Ident.relabel_mark.symm.trans hmark
  refine ⟨fun hx => ?_, fun hx => ?_⟩
  · obtain ⟨s, hs, name, hname, rfl⟩ := mem_declaredNames_single.1 hx
    have htaken := mem_renames hs hname (lookup_of_mem_nodup h.keys ha)
    have hkept := h.relabel_eq (.inr (.inr ⟨_, htaken, hmark'.symm⟩))
    rw [hkept]
    exact h.name_of_taken ha hid' hmark'
  · have hlabel := h.relabel_untaken ha hx hmark'
    rw [hlabel]
    exact ⟨rfl, rfl⟩

end Fresh

/-! ## The order of the aliases -/

theorem lookup_perm {α β : Type} [BEq α] [LawfulBEq α] {l l' : List (α × β)} (hp : l.Perm l')
    (hnodup : (l.map (·.1)).Nodup) (x : α) : l.lookup x = l'.lookup x := by
  have hnodup' : (l'.map (·.1)).Nodup := (hp.map _).nodup_iff.1 hnodup
  cases hl : l.lookup x with
  | some v => exact (lookup_of_mem_nodup hnodup' (hp.mem_iff.1 (mem_of_lookup hl))).symm
  | none =>
    cases hl' : l'.lookup x with
    | none => rfl
    | some v =>
      have hv := lookup_of_mem_nodup hnodup (hp.mem_iff.2 (mem_of_lookup hl'))
      cases hl.symm.trans hv

/-- Every alias that is given up has a mark of its own. -/
theorem untaken_marks (as : Aliases) (r : Renaming) :
    ((as.untaken r).map fun label => some label.1).Sublist (as.map (·.2.ident.mark)) := by
  induction as with
  | nil => exact .slnil
  | cons p as ih =>
    have hcons : untaken (p :: as) r =
        (if (r.lookup p.1).isSome then none else p.2.ident.mark.map (·, p.1)).toList ++
          untaken as r := by
      rw [untaken, filterMap_cons]
      dsimp only
      split <;> rename_i heq <;> rw [heq] <;> rfl
    rw [hcons, map_append, map_cons]
    split
    · exact .cons _ ih
    · cases p.2.ident.mark with
      | none => exact .cons _ ih
      | some m => exact .cons_cons _ ih

theorem relabel_perm {labels labels' : List (Nat × String)} (hp : labels.Perm labels')
    (hnodup : (labels.map (·.1)).Nodup) (ss : List Stmt) :
    relabel labels ss = relabel labels' ss := by
  have hlookup : ∀ m, labels.lookup m = labels'.lookup m := lookup_perm hp hnodup
  have hempty : labels.isEmpty = labels'.isEmpty := hp.isEmpty_eq
  simp only [relabel, hempty, hlookup]

/-- The order in which the aliases are kept does not matter. -/
theorem settle_perm {as' : Aliases} (hp : as'.Perm as) (h : as.Fresh ss) :
    as'.settle ss = as.settle ss ∧ as'.renames ss = as.renames ss := by
  have hlookup := lookup_perm hp ((hp.map _).nodup_iff.2 h.keys)
  have hmoved : as'.moved? = as.moved? := by
    funext name
    simp only [moved?, hlookup]
  have hdeclarator : as'.moveDeclarator = as.moveDeclarator := by
    funext t x k d
    cases d
    simp only [moveDeclarator, hmoved]
  have hstmt : as'.moveStmt = as.moveStmt := by
    funext s
    cases s <;> simp only [moveStmt, hmoved, hdeclarator]
  have hrenames : as'.renames ss = as.renames ss := by rw [renames, renames, hmoved]
  have hlabels : (as'.untaken (as.renames ss)).Perm (as.untaken (as.renames ss)) :=
    hp.filterMap _
  have hnodup : ((as.untaken (as.renames ss)).map (·.1)).Nodup := by
    have hsome := h.marks.sublist (untaken_marks as (as.renames ss))
    rw [← Function.comp_def, ← map_map] at hsome
    exact List.Nodup.of_map _ hsome
  refine ⟨?_, hrenames⟩
  rw [settle, settle, hrenames, moveAll, moveAll, hstmt]
  exact (relabel_perm hlabels.symm hnodup _).symm

/-- Moving declarations to fresh aliases keeps what a file exports, name by name. A declaration with
an alias is made once, under the alias, not exported and otherwise as it was; its old name is
declared only to export it, and what restores its name and its export follows right behind it. A
declaration without one stays as it is. An alias that nothing declares is known by the name it
stands for, so that every alias that is left is declared. None of this depends on the order of the
aliases. All that is done to the statements then is to rename the references to what has moved. -/
theorem settle_interface (h : as.Fresh ss) (hnodup : (declaredNames ss).Nodup) :
    exportedNames (as.settle ss) = exportedNames ss ∧
    (∀ s ∈ ss.flatMap Stmt.singles, ∀ id a, s.binder? = some id → as.lookup id.name = some a →
      declaring (as.settle ss) a.ident.name =
        [(s.under a.ident).relabel (as.untaken (as.renames ss))] ∧
      declaring (as.settle ss) id.name =
        (if s.isExported && s.isFixed then [.forwarding id.name a.ident] else []) ∧
      (s.under a.ident).relabel (as.untaken (as.renames ss)) :: s.sequel id.name a.ident <:+:
        as.settle ss) ∧
    (∀ s ∈ ss.flatMap Stmt.singles, ∀ id, s.binder? = some id → as.lookup id.name = none →
      declaring (as.settle ss) id.name = [s.relabel (as.untaken (as.renames ss))] ∧
      (s.relabel (as.untaken (as.renames ss))).binder? = some id ∧
      (s.relabel (as.untaken (as.renames ss))).isExported = s.isExported) ∧
    (∀ x a, (x, a) ∈ as → ∀ id ∈ (as.settle ss).flatMap Stmt.idents, id.mark = a.ident.mark →
      (x ∈ declaredNames ss →
        id.name = a.ident.name ∧ a.ident.name ∈ declaredNames (as.settle ss)) ∧
      (x ∉ declaredNames ss → id.name = x ∧ id.token.lexeme = x)) ∧
    (∀ as' : Aliases, as'.Perm as →
      as'.settle ss = as.settle ss ∧ as'.renames ss = as.renames ss) ∧
    ∀ pins body, moveDeclarations as pins ss = some body →
      let r := as.renames ss
      let renamed := r.references (relabel (as.untaken r) pins ++ as.settle ss)
      body = relabel (r.carried renamed) renamed := by
  have halias : ∀ s ∈ ss.flatMap Stmt.singles, ∀ id a, s.binder? = some id →
      as.lookup id.name = some a → declaring (as.settle ss) a.ident.name =
        [(s.under a.ident).relabel (as.untaken (as.renames ss))] := by
    intro s hs id a hid ha
    rw [h.declaring_settle, h.declaring_alias hnodup hs hid ha, map_singleton]
  refine ⟨h.exportedNames_settle, fun s hs id a hid ha => ⟨halias s hs id a hid ha, ?_, ?_⟩,
    fun s hs id hid ha => ⟨?_, ?_, s.isExported_relabel _⟩, fun x a ha id hid hmark => ?_,
    fun as' hp => settle_perm hp h, fun pins body hbody => moveDeclarations_settle hbody⟩
  · rw [h.declaring_settle, h.declaring_old hnodup hs hid ha]
    split
    · rw [map_singleton, Stmt.forwarding_relabel id.name (h.relabel_taken hs hid ha)]
    · rfl
  · exact h.moved_infix_settle hs hid ha
  · rw [h.declaring_settle, h.declaring_unmoved hnodup hs hid ha, map_singleton]
  · have hkept := h.relabel_eq (.inl fun a ha =>
      (h.declared a ha _ (Stmt.some_mem_declaredBy hs hid) id rfl).2)
    rw [Stmt.binder?_relabel, hid, Option.map_some, hkept]
  · refine (h.idents_settle ha hid hmark).imp_left fun hname hx => ⟨hname hx, ?_⟩
    obtain ⟨s, hs, name, hbinder, rfl⟩ := mem_declaredNames_single.1 hx
    have hdeclared := halias s hs name a hbinder (lookup_of_mem_nodup h.keys ha)
    exact mem_declaredNames_of_declaring (hdeclared ▸ mem_singleton_self _)

/-- Aliases of a function, a class and a variable, and of a name that nothing declares. -/
def fourAliases : Aliases :=
  [("foo", ⟨{ name := "foo_1", mark := some 0 }, true⟩),
    ("K", ⟨{ name := "K_1", mark := some 1 }, true⟩),
    ("n", ⟨{ name := "n_1", mark := some 2 }, true⟩),
    ("ghost", ⟨{ name := "ghost_1", mark := some 3 }, false⟩)]

/-- `export function foo() {}`, `export class K {}` and `export let n = ghost_1, m = 0` -/
def mixedStmts : List Stmt :=
  [.funcDecl {} true (some { name := "foo" }) [] .missing (.ofStmts []),
    .classDecl {} true (some { name := "K" }) .missing [],
    .varDecl {} true .let
      [.mk {} (some { name := "n" }) .missing (.ident { name := "ghost_1", mark := some 3 }),
        .mk {} (some { name := "m" }) .missing (.number {} "0")]]

theorem settle_interface_mixed :
    fourAliases.Fresh mixedStmts ∧ (declaredNames mixedStmts).Nodup ∧
    exportedNames (fourAliases.settle mixedStmts) = ["foo", "K", "n", "m"] ∧
    (∃ s, declaring (fourAliases.settle mixedStmts) "n_1" = [s] ∧
      [s, .listing "n" { name := "n_1", mark := some 2 }] <:+: fourAliases.settle mixedStmts) ∧
    (∃ s, declaring (fourAliases.settle mixedStmts) "K_1" = [s] ∧
      [s, .naming "K" { name := "K_1", mark := some 1 },
        .forwarding "K" { name := "K_1", mark := some 1 }] <:+:
          fourAliases.settle mixedStmts) ∧
    (∃ s, declaring (fourAliases.settle mixedStmts) "m" = [s] ∧ s.isExported) ∧
    ∀ id ∈ (fourAliases.settle mixedStmts).flatMap Stmt.idents, id.mark = some 3 →
      id.name = "ghost" := by
  have hfresh : fourAliases.Fresh mixedStmts :=
    ⟨by decide, by decide, by decide, by decide, by decide, by decide, by decide⟩
  have hnodup : (declaredNames mixedStmts).Nodup := by decide
  obtain ⟨hexports, hmoved, hkept, hidents, -⟩ := settle_interface hfresh hnodup
  have hparts : mixedStmts.flatMap Stmt.singles =
      [.funcDecl {} true (some { name := "foo" }) [] .missing (.ofStmts []),
        .classDecl {} true (some { name := "K" }) .missing [],
        .varDecl {} true .let
          [.mk {} (some { name := "n" }) .missing (.ident { name := "ghost_1", mark := some 3 })],
        .varDecl {} true .let [.mk {} (some { name := "m" }) .missing (.number {} "0")]] := rfl
  simp only [hparts] at hmoved hkept
  obtain ⟨hn, -, hnafter⟩ := hmoved _ (.tail _ (.tail _ (.head _))) _ _ rfl rfl
  obtain ⟨hK, -, hKafter⟩ := hmoved _ (.tail _ (.head _)) _ _ rfl rfl
  obtain ⟨hm, -, hflag⟩ := hkept _ (.tail _ (.tail _ (.tail _ (.head _)))) _ rfl rfl
  refine ⟨hfresh, hnodup, hexports.trans (by decide), ⟨_, hn, hnafter⟩, ⟨_, hK, hKafter⟩,
    ⟨_, hm, hflag⟩, fun id hid hmark => ?_⟩
  exact ((hidents "ghost" _ (.tail _ (.tail _ (.tail _ (.head _)))) id hid hmark).2 (by decide)).1

end Aliases

end ExtensionLowering
