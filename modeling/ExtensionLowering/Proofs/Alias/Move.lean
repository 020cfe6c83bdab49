import ExtensionLowering.Proofs.Alias.Rename
import ExtensionLowering.Proofs.Import.Balance
import ExtensionLowering.Proofs.Import.Marking
import ExtensionLowering.Proofs.Lowering.Tracking
/-!
# Moved declarations

Moving declarations to their aliases touches the declared names and the references to them. An
object that is neither an alias nor declared, and whose name is not renamed, occurs afterwards where
it occurred before. Imports stay, up to the names of shared identifiers.
-/
namespace ExtensionLowering

open List

variable {m : Nat} (labels : List (Nat × String)) (ss : List Stmt)

/-- The occurrences of the object with mark `m` among some identifiers. -/
def marked (m : Nat) (ids : List Ident) : List Ident :=
  ids.filter fun id => id.mark = some m

theorem length_marked (m : Nat) (ids : List Ident) : (marked m ids).length = occurrences m ids :=
  countP_eq_length_filter.symm

@[simp] theorem marked_append (m : Nat) (a b : List Ident) :
    marked m (a ++ b) = marked m a ++ marked m b :=
  filter_append ..

theorem marked_flatMap (m : Nat) (ss : List Stmt) (f : Stmt → List Ident) :
    marked m (ss.flatMap f) = ss.flatMap fun s => marked m (f s) :=
  filter_flatMap ..

theorem marked_cons_of_ne {id : Ident} (h : id.mark ≠ some m) (ids : List Ident) :
    marked m (id :: ids) = marked m ids := by
  simp [marked, h]

theorem mem_marked {id : Ident} {ids : List Ident} :
    id ∈ marked m ids ↔ id ∈ ids ∧ id.mark = some m := by
  simp [marked]

@[simp] theorem Ident.synthetic_mark (name : String) : (Ident.synthetic name).mark = none := rfl

@[simp] theorem Ident.rename_mark (id : Ident) (name : String) : (id.rename name).mark = id.mark :=
  rfl

/-! ## One declaration at a time -/

namespace Stmt

variable {s : Stmt}

/-- A statement with several variables as one statement for each. -/
def singles : Stmt → List Stmt
  | .varDecl t exported kind ds => ds.map fun d => .varDecl t exported kind [d]
  | s => [s]

/-- The name that a single declaration declares. -/
def binder? : Stmt → Option Ident
  | .funcDecl _ _ name _ _ _ => name
  | .classDecl _ _ name _ _ => name
  | .varDecl _ _ _ [d] => d.name
  | _ => none

def isExported : Stmt → Bool
  | .funcDecl _ exported _ _ _ _ => exported
  | .classDecl _ exported _ _ _ => exported
  | .varDecl _ exported _ _ => exported
  | _ => false

/-- A binding that no assignment changes. -/
def isFixed : Stmt → Bool
  | .varDecl _ _ kind _ => kind = .const
  | _ => true

def isClass : Stmt → Bool
  | .classDecl .. => true
  | _ => false

/-- The declaration under another name and without its export, all else as it is. -/
def under (binding : Ident) : Stmt → Stmt
  | .funcDecl t _ _ ps result body => .funcDecl t false (some binding) ps result body
  | .classDecl t _ _ base ms => .classDecl t false (some binding) base ms
  | .varDecl t _ kind [.mk t' _ type init] =>
    .varDecl t false kind [.mk t' (some binding) type init]
  | s => s

/-- `const id = name` -/
def copying (token : Token) (id : Ident) (name : String) : Stmt :=
  .varDecl (.synthetic "const") false .const
    [.mk token (some id) .missing (.ident (.synthetic name))]

/-- `Object.defineProperty(binding, "name", { value: "orig" })` -/
def naming (orig : String) (binding : Ident) : Stmt :=
  .expr (.synthetic "") (.call (.synthetic "(") {}
    (.prop (.synthetic "defineProperty") {} (.ident (.synthetic "Object"))
      (some (.synthetic "defineProperty")) false) []
    [.ident binding, .string (.synthetic (Text.quote "name")) "name",
      .object (.synthetic "\x7b") [.assign binding.token (.ident (.synthetic "value"))
        (.string (.synthetic (Text.quote orig)) orig)]])

/-- `export const orig = binding` -/
def forwarding (orig : String) (binding : Ident) : Stmt :=
  .varDecl (.synthetic "const") true .const
    [.mk (.synthetic orig) (some (.synthetic orig)) .missing (.ident binding)]

/-- `export { binding as orig }` -/
def listing (orig : String) (binding : Ident) : Stmt :=
  .exportDecl (.synthetic "export") [{ name := some binding, newName := some (.synthetic orig) }]

/-- The statements behind a declaration that has moved: a class gets back its name, and what was
exported is exported under the old name. -/
def sequel (orig : String) (binding : Ident) (s : Stmt) : List Stmt :=
  (if s.isClass then [naming orig binding] else []) ++
    if s.isExported then [if s.isFixed then forwarding orig binding else listing orig binding]
    else []

theorem singles_of_mem {s' : Stmt} (h : s' ∈ s.singles) : s'.singles = [s'] := by
  cases s with
  | varDecl t exported kind ds =>
    obtain ⟨d, -, rfl⟩ := mem_map.1 h
    rfl
  | _ =>
    obtain rfl := mem_singleton.1 h
    rfl

theorem exists_declarator {t : Token} {x : Bool} {k : VarKind} {ds : List Declarator}
    (h : (varDecl t x k ds).singles = [.varDecl t x k ds]) : ∃ d, ds = [d] :=
  length_eq_one_iff.1 (by simpa [singles] using congrArg List.length h)

theorem flatMap_singles {β : Type} {F : Stmt → List β}
    (hF : ∀ t x k ds, F (.varDecl t x k ds) = ds.flatMap fun d => F (.varDecl t x k [d]))
    (s : Stmt) : s.singles.flatMap F = F s := by
  cases s with
  | varDecl t x k ds => rw [singles, flatMap_map, hF]
  | _ => exact flatMap_singleton ..

end Stmt

namespace Aliases

variable {as : Aliases} {s : Stmt} {orig : String} {b : Ident}

theorem moveStmt_declarator (t : Token) (x : Bool) (k : VarKind) (d : Declarator) :
    as.moveStmt (.varDecl t x k [d]) = as.moveDeclarator t x k d := by
  obtain ⟨t', name, type, init⟩ := d
  cases h : as.moved? name <;> simp [moveStmt, moveDeclarator, Declarator.name, h]

theorem moveStmt_of_unmoved (hs : s.singles = [s]) (h : as.moved? s.binder? = none) :
    as.moveStmt s = [s] := by
  cases s with
  | funcDecl | classDecl =>
    rw [Stmt.binder?] at h
    rw [moveStmt, h]
  | varDecl t x k ds =>
    obtain ⟨⟨t', name, type, init⟩, rfl⟩ := Stmt.exists_declarator hs
    rw [Stmt.binder?, Declarator.name] at h
    rw [moveStmt_declarator, moveDeclarator, h]
  | _ => rfl

theorem moveStmt_of_moved (hs : s.singles = [s]) (h : as.moved? s.binder? = some (orig, b)) :
    as.moveStmt s = s.under b :: s.sequel orig b := by
  cases s with
  | funcDecl t x | classDecl t x =>
    rw [Stmt.binder?] at h
    rw [moveStmt, h]
    cases x <;> rfl
  | varDecl t x k ds =>
    obtain ⟨⟨t', name, type, init⟩, rfl⟩ := Stmt.exists_declarator hs
    rw [Stmt.binder?, Declarator.name] at h
    rw [moveStmt_declarator, moveDeclarator, h]
    cases x <;> cases k <;> rfl
  | _ => cases h

/-- A statement moves as its parts do, or it is left and so are they. -/
theorem moveStmt_parts (as : Aliases) (s : Stmt) :
    as.moveStmt s = s.singles.flatMap as.moveStmt ∨
      as.moveStmt s = [s] ∧ ∀ part ∈ s.singles, as.moveStmt part = [part] := by
  cases s with
  | varDecl t x k ds =>
    by_cases hany : ds.any fun d => (as.moved? d.name).isSome
    · left
      rw [moveStmt, if_pos hany, Stmt.singles, flatMap_map]
      exact flatMap_congr fun d _ => (moveStmt_declarator t x k d).symm
    · refine .inr ⟨by rw [moveStmt, if_neg hany], fun part hpart => ?_⟩
      obtain ⟨d, hd, rfl⟩ := mem_map.1 hpart
      refine moveStmt_of_unmoved rfl (by_contra fun hne => hany ?_)
      exact any_eq_true.2 ⟨d, hd, Option.isSome_iff_ne_none.2 hne⟩
  | _ => exact .inl (flatMap_singleton ..).symm

section Parts

variable {β : Type} {F : Stmt → List β}
variable (hF : ∀ t x k ds, F (.varDecl t x k ds) = ds.flatMap fun d => F (.varDecl t x k [d]))

include hF

theorem flatMap_moveStmt (s : Stmt) :
    (as.moveStmt s).flatMap F = s.singles.flatMap fun part => (as.moveStmt part).flatMap F := by
  obtain h | ⟨h, hparts⟩ := as.moveStmt_parts s
  · rw [h, flatMap_assoc]
  · rw [h, flatMap_singleton, ← Stmt.flatMap_singles hF]
    exact flatMap_congr fun part hpart => by rw [hparts part hpart, flatMap_singleton]

/-- What belongs to the moved statement belonged to it before, or is due to a part that moves. -/
theorem mem_flatMap_moveStmt {q : β} (h : q ∈ (as.moveStmt s).flatMap F) :
    q ∈ F s ∨ ∃ part ∈ s.singles, ∃ b, as.moved? part.binder? = some b ∧
      (q ∈ F (part.under b.2) ∨ q ∈ (part.sequel b.1 b.2).flatMap F) := by
  rw [flatMap_moveStmt hF] at h
  obtain ⟨part, hpart, h⟩ := mem_flatMap.1 h
  cases hm : as.moved? part.binder? with
  | none =>
    rw [moveStmt_of_unmoved (Stmt.singles_of_mem hpart) hm, flatMap_singleton] at h
    exact .inl (Stmt.flatMap_singles hF s ▸ mem_flatMap.2 ⟨part, hpart, h⟩)
  | some b =>
    rw [moveStmt_of_moved (Stmt.singles_of_mem hpart) hm, flatMap_cons, mem_append] at h
    exact .inr ⟨part, hpart, b, hm, h⟩

/-- It is enough to look at the parts, those that are left and those that move. -/
theorem flatMap_moveStmt_eq {G : Stmt → List β}
    (hG : ∀ t x k ds, G (.varDecl t x k ds) = ds.flatMap fun d => G (.varDecl t x k [d]))
    (hleft : ∀ part ∈ s.singles, as.moved? part.binder? = none → F part = G part)
    (hmoved : ∀ part ∈ s.singles, ∀ b, as.moved? part.binder? = some b →
      F (part.under b.2) ++ (part.sequel b.1 b.2).flatMap F = G part) :
    (as.moveStmt s).flatMap F = G s := by
  rw [flatMap_moveStmt hF, ← Stmt.flatMap_singles hG]
  refine flatMap_congr fun part hpart => ?_
  have hsingle := Stmt.singles_of_mem hpart
  cases hm : as.moved? part.binder? with
  | none => rw [moveStmt_of_unmoved hsingle hm, flatMap_singleton, hleft part hpart hm]
  | some b => rw [moveStmt_of_moved hsingle hm, flatMap_cons, hmoved part hpart b hm]

end Parts

end Aliases

/-! ## Moving -/

namespace Aliases

variable {id : Ident}

theorem mem_idents_of_declaredBy {s : Stmt} (h : some id ∈ declaredBy s) : id ∈ s.idents := by
  cases s with
  | funcDecl t x name | classDecl t x name =>
    obtain rfl : some id = name := by simpa [declaredBy] using h
    simp
  | varDecl t x k ds =>
    obtain ⟨d, hd, hname⟩ := mem_map.1 h
    obtain ⟨t', name, type, init⟩ := d
    obtain rfl : name = some id := hname
    rw [Stmt.idents_varDecl]
    exact mem_flatMap.2 ⟨_, hd, by simp⟩
  | _ => simp [declaredBy] at h

theorem mem_file_of_declaredBy {f : File} (h : some id ∈ f.stmts.flatMap declaredBy) :
    id ∈ (Node.file f).idents := by
  obtain ⟨s, hs, hid⟩ := mem_flatMap.1 h
  exact f.mem_idents hs (mem_idents_of_declaredBy hid)

theorem mem_declaredBy_of_part {s part : Stmt} (hpart : part ∈ s.singles)
    (hid : part.binder? = some id) : some id ∈ declaredBy s := by
  cases s with
  | funcDecl | classDecl =>
    obtain rfl := mem_singleton.1 hpart
    exact mem_singleton.2 hid.symm
  | varDecl t x k ds =>
    obtain ⟨d, hd, rfl⟩ := mem_map.1 hpart
    exact mem_map.2 ⟨d, hd, hid⟩
  | _ =>
    obtain rfl := mem_singleton.1 hpart
    cases hid

variable {as : Aliases} {m : Nat}
variable {binding : Ident}

theorem moved?_eq_some {name : Option Ident} {orig : String}
    (h : as.moved? name = some (orig, binding)) :
    ∃ id a, name = some id ∧ id.name = orig ∧ (orig, a) ∈ as ∧ a.ident = binding := by
  simp only [moved?, Option.bind_eq_some_iff, Option.map_eq_some_iff, Prod.mk.injEq] at h
  obtain ⟨id, rfl, a, ha, rfl, rfl⟩ := h
  exact ⟨id, a, rfl, rfl, mem_of_lookup ha, rfl⟩

theorem marked_under {s : Stmt} (hs : s.singles = [s]) (hid : s.binder? = some id)
    (hmark : id.mark ≠ some m) (hb : binding.mark ≠ some m) :
    marked m (s.under binding).idents = marked m s.idents := by
  cases s with
  | funcDecl t x name | classDecl t x name =>
    obtain rfl : name = some id := hid
    simp [Stmt.under, marked_cons_of_ne hb, marked_cons_of_ne hmark]
  | varDecl t x k ds =>
    obtain ⟨⟨t', name, type, init⟩, rfl⟩ := Stmt.exists_declarator hs
    obtain rfl : name = some id := hid
    simp [Stmt.under, marked_cons_of_ne hb, marked_cons_of_ne hmark]
  | _ => cases hid

theorem marked_sequel (s : Stmt) (orig : String) (hb : binding.mark ≠ some m) :
    marked m ((s.sequel orig binding).flatMap Stmt.idents) = [] := by
  rw [Stmt.sequel]
  cases s.isClass <;> cases s.isExported <;> cases s.isFixed <;>
    simp [Stmt.naming, Stmt.forwarding, Stmt.listing, Specifier.idents, marked, hb]

variable (has : ∀ a ∈ as, a.2.ident.mark ≠ some m)

include has

theorem marked_moveStmt {s : Stmt} (hs : ∀ id, some id ∈ declaredBy s → id.mark ≠ some m) :
    marked m ((as.moveStmt s).flatMap Stmt.idents) = marked m s.idents := by
  have hF (t : Token) (x : Bool) (k : VarKind) (ds : List Declarator) :
      marked m (Stmt.varDecl t x k ds).idents =
        ds.flatMap fun d => marked m (Stmt.varDecl t x k [d]).idents := by
    simp [marked, filter_flatMap]
  rw [marked_flatMap]
  refine flatMap_moveStmt_eq hF hF (fun _ _ _ => rfl) fun part hpart b hm => ?_
  obtain ⟨id, a, hid, -, ha, hb⟩ := moved?_eq_some hm
  have hb : b.2.mark ≠ some m := hb ▸ has _ ha
  rw [← marked_flatMap, marked_sequel part _ hb, append_nil, marked_under
    (Stmt.singles_of_mem hpart) hid (hs id (mem_declaredBy_of_part hpart hid)) hb]

theorem marked_moveAll {ss : List Stmt}
    (hss : ∀ id, some id ∈ ss.flatMap declaredBy → id.mark ≠ some m) :
    marked m ((as.moveAll ss).flatMap Stmt.idents) = marked m (ss.flatMap Stmt.idents) := by
  rw [moveAll, flatMap_assoc, marked_flatMap, marked_flatMap]
  exact flatMap_congr fun s hs =>
    marked_moveStmt has fun id hid => hss id (mem_flatMap.2 ⟨s, hs, hid⟩)

end Aliases

/-! ## Relabelling -/

/-- The identifier with its new name, if its mark has one. -/
def Ident.relabel (labels : List (Nat × String)) (id : Ident) : Ident :=
  (id.mark.bind fun m => labels.lookup m).elim id id.rename

section Labels

variable {labels : List (Nat × String)} {id : Ident}

theorem Ident.relabel_of_lookup (h : ∀ m, id.mark = some m → labels.lookup m = none) :
    id.relabel labels = id := by
  cases hm : id.mark with
  | none => simp [relabel, hm]
  | some m => simp [relabel, hm, h m hm]

theorem Ident.relabel_nil : Ident.relabel [] = fun id => id :=
  funext fun _ => relabel_of_lookup fun _ _ => rfl

theorem Ident.relabel_of_unmarked (h : id.mark = none) : id.relabel labels = id :=
  relabel_of_lookup fun m hm => by simp [h] at hm

@[simp] theorem Ident.relabel_mark : (id.relabel labels).mark = id.mark := by
  rw [relabel]
  cases id.mark.bind fun m => labels.lookup m <;> rfl

theorem Ident.relabel_name_cases : (id.relabel labels).name = id.name ∨
    ∃ m name, id.mark = some m ∧ labels.lookup m = some name ∧ (id.relabel labels).name = name := by
  cases h : id.mark.bind fun m => labels.lookup m with
  | none => exact .inl (by simp [relabel, h])
  | some name =>
    obtain ⟨m, hm, hl⟩ := Option.bind_eq_some_iff.1 h
    exact .inr ⟨m, name, hm, hl, by simp [relabel, h, Ident.rename]⟩

/-- What a list of statements shows of its identifiers is relabelled one by one. -/
theorem relabel_flatMap {β : Type} (F : Stmt → List β) (G : (Ident → Ident) → β → β)
    (hF : ∀ g s, F (s.mapIdents g) = (F s).map (G g)) (hG : ∀ b, G (fun id => id) b = b)
    (labels : List (Nat × String)) (ss : List Stmt) :
    (relabel labels ss).flatMap F = (ss.flatMap F).map (G (Ident.relabel labels)) := by
  rw [ExtensionLowering.relabel]
  split
  · rename_i hempty
    obtain rfl := List.isEmpty_iff.1 hempty
    rw [Ident.relabel_nil, show G (fun id => id) = id from funext hG, map_id]
  · rw [Stmt.mapAll_eq_map, flatMap_map, map_flatMap]
    exact flatMap_congr fun s _ => hF _ s

theorem relabel_idents (labels : List (Nat × String)) (ss : List Stmt) :
    (relabel labels ss).flatMap Stmt.idents =
      (ss.flatMap Stmt.idents).map (Ident.relabel labels) :=
  relabel_flatMap Stmt.idents (fun g => g) Stmt.idents_mapIdents (fun _ => rfl) labels ss

theorem occurrences_relabel (m : Nat) (labels : List (Nat × String)) (ss : List Stmt) :
    occurrences m ((relabel labels ss).flatMap Stmt.idents) =
      occurrences m (ss.flatMap Stmt.idents) := by
  rw [relabel_idents, occurrences, occurrences, countP_map]
  exact countP_congr fun id _ => by simp

theorem marked_relabel (h : labels.lookup m = none) (ss : List Stmt) :
    marked m ((relabel labels ss).flatMap Stmt.idents) = marked m (ss.flatMap Stmt.idents) := by
  rw [relabel_idents, marked, marked]
  induction ss.flatMap Stmt.idents with
  | nil => rfl
  | cons id ids ih =>
    by_cases hid : id.mark = some m
    · simpa [Ident.relabel, hid, h] using ih
    · simpa [hid] using ih

end Labels

/-! ## Renaming references -/

namespace Renaming

variable {r : Renaming} {m : Nat}

/-- If no occurrence of an object has a name that is renamed, all its occurrences are left. -/
def Spares (r : Renaming) (m : Nat) (before after : List Ident) : Prop :=
  (∀ id ∈ marked m before, r.lookup id.name = none) → marked m after = marked m before

theorem Spares.refl (ids : List Ident) : Spares r m ids ids := fun _ => rfl

theorem Spares.append {a a' b b' : List Ident} (h : Spares r m a a') (h' : Spares r m b b') :
    Spares r m (a ++ b) (a' ++ b') := by
  intro hfree
  simp only [marked_append, forall_mem_append] at hfree
  rw [marked_append, marked_append, h hfree.1, h' hfree.2]

theorem ident_mark (r : Renaming) (bound : List String) (id : Ident) :
    (r.ident bound id).mark = id.mark := by
  rw [ident]
  split <;> rfl

theorem ident_spares (r : Renaming) (m : Nat) (bound : List String) (id : Ident) :
    Spares r m [id] [r.ident bound id] := by
  intro hfree
  by_cases hid : id.mark = some m
  · have hlookup := hfree id (by simp [mem_marked, hid])
    have hsame : r.ident bound id = id := by
      simp [ident, target?, hlookup]
    rw [hsame]
  · have hid' : (r.ident bound id).mark ≠ some m := by rwa [ident_mark]
    rw [marked_cons_of_ne hid, marked_cons_of_ne hid']

variable (hr : ∀ b ∈ r, b.2.mark ≠ some m)

include hr

theorem shorthand_spares (bound : List String) (t : Token) (name : Option Ident) :
    Spares r m (Property.shorthand t name).idents (r.shorthand bound t name).idents := by
  intro hfree
  rw [shorthand]
  split
  · rename_i key binding hsome
    simp only [Option.bind_eq_some_iff, Option.map_eq_some_iff, Prod.mk.injEq, target?] at hsome
    obtain ⟨id, rfl, b, hb, rfl, rfl⟩ := hsome
    split at hb
    · cases hb
    · have hbmark : b.mark ≠ some m := hr _ (mem_of_lookup hb)
      have hid : id.mark ≠ some m := by
        intro hid
        have := hfree id (by simp [mem_marked, hid])
        simp [hb] at this
      simp [marked, hbmark, hid]
  · rfl

/-- Sparing an object is a law of renaming. -/
def sparing (hr : ∀ b ∈ r, b.2.mark ≠ some m) : Law r where
  Rel ps qs := Spares r m (ps.map Spot.ident) (qs.map Spot.ident)
  Covers _ _ := True
  Hoists _ _ := True
  Clear _ := True
  free := False
  clear_append h := ⟨h, h⟩
  hoists_append h := ⟨h, h⟩
  nil := .refl _
  append h h' := by simpa using h.append h'
  kept _ _ _ := .refl _
  ofIdent _ id := r.ident_spares m _ id
  ofShorthand _ t name := by simpa only [Property.spots_spec] using shorthand_spares hr _ t name
  inParams _ _ := trivial
  inSelf _ _ := trivial
  inBlock _ _ _ _ := ⟨trivial, trivial⟩

theorem references_spares (ss : List Stmt) :
    Spares r m (ss.flatMap Stmt.idents) ((r.references ss).flatMap Stmt.idents) := by
  rw [references]
  split
  · exact .refl _
  · have hfits : (sparing hr).Fits [] [] (Stmt.allSpots [] ss) (Stmt.AllVarFree ss) :=
      ⟨trivial, trivial, False.elim⟩
    simpa only [sparing, Stmt.allSpots_spec] using (sparing hr).stmts_rel ss hfits trivial

end Renaming

/-! ## Imports -/

theorem Pin.imports_stmts (ps : List Pin) : (ps.map Pin.stmt).filter (·.isImport) = [] :=
  filter_eq_nil_iff.2 fun s hs => by
    obtain ⟨p, -, rfl⟩ := mem_map.1 hs
    simp [Pin.stmt, Stmt.constant, Stmt.isImport]

theorem Aliases.moveAll_imports (as : Aliases) (ss : List Stmt) :
    (as.moveAll ss).filter (·.isImport) = ss.filter (·.isImport) := by
  have hF (t : Token) (x : Bool) (k : VarKind) (ds : List Declarator) :
      [Stmt.varDecl t x k ds].filter (·.isImport) =
        ds.flatMap fun d => [Stmt.varDecl t x k [d]].filter (·.isImport) := by
    simp [Stmt.isImport]
  have hfilter (ss : List Stmt) :
      ss.filter (·.isImport) = ss.flatMap fun s => [s].filter (·.isImport) := by
    rw [← filter_flatMap, flatMap_singleton']
  rw [hfilter, hfilter, moveAll, flatMap_assoc]
  refine flatMap_congr fun s _ =>
    flatMap_moveStmt_eq hF hF (fun _ _ _ => rfl) fun part hpart b hm => ?_
  cases part with
  | funcDecl t x | classDecl t x => cases x <;> rfl
  | varDecl t x k ds =>
    obtain ⟨⟨⟩, rfl⟩ := Stmt.exists_declarator (Stmt.singles_of_mem hpart)
    cases x <;> cases k <;> rfl
  | _ => cases hm

theorem Renaming.stmts_imports (r : Renaming) (bound : List String) (ss : List Stmt) :
    (Renaming.stmts r bound ss).filter (·.isImport) = ss.filter (·.isImport) := by
  induction ss with
  | nil => rfl
  | cons s ss ih =>
    rw [Renaming.stmts, filter_cons, filter_cons, ih]
    cases s <;> rfl

theorem relabel_imports :
    (relabel labels ss).filter (·.isImport) = relabel labels (ss.filter (·.isImport)) := by
  rw [relabel, relabel]
  split
  · rfl
  · induction ss with
    | nil => rfl
    | cons s ss ih =>
      rw [Stmt.mapAll, filter_cons, filter_cons, ih]
      cases s <;> rfl

/-- What is read off imports only is read off the imports. -/
theorem Stmt.flatMap_imports {β : Type} {F : Stmt → List β}
    (hF : ∀ s : Stmt, s.isImport = false → F s = []) (ss : List Stmt) :
    (ss.filter (·.isImport)).flatMap F = ss.flatMap F := by
  induction ss with
  | nil => rfl
  | cons s ss ih =>
    cases h : s.isImport with
    | true => rw [filter_cons_of_pos h, flatMap_cons, flatMap_cons, ih]
    | false => rw [filter_cons_of_neg (by simp [h]), flatMap_cons, hF s h, ih, nil_append]

/-- The paths of the namespace imports among some statements. -/
def namespacePaths (ss : List Stmt) : List String :=
  ss.flatMap fun s => (s.namespaceImport?.map (·.2)).toList

theorem namespacePaths_imports : namespacePaths (ss.filter (·.isImport)) = namespacePaths ss := by
  refine Stmt.flatMap_imports (fun s h => ?_) ss
  cases s with
  | importDecl => cases h
  | _ => rfl

theorem namespacePaths_relabel : namespacePaths (relabel labels ss) = namespacePaths ss := by
  refine (relabel_flatMap _ (fun _ p => p) (fun g s => ?_) (fun _ => rfl) labels ss).trans
    (map_id' _)
  rw [map_id']
  cases s with
  | importDecl t space default named module => cases space <;> cases module <;> rfl
  | _ => rfl

theorem mem_namespacePaths {ss : List Stmt} {b : Ident × String}
    (h : b ∈ ss.filterMap Stmt.namespaceImport?) : b.2 ∈ namespacePaths ss := by
  obtain ⟨s, hs, hb⟩ := mem_filterMap.1 h
  exact mem_flatMap.2 ⟨s, hs, by simp [hb]⟩

/-! ## Files -/

section Moved

variable {as : Aliases} {pins : List Pin} {ss body : List Stmt}

theorem moveDeclarations_eq (h : moveDeclarations as (pins.map Pin.stmt) ss = some body) :
    ∃ labels, body = relabel labels ((as.renames ss).references
      (relabel (as.untaken (as.renames ss)) (pins.map Pin.stmt ++ as.moveAll ss))) := by
  rw [moveDeclarations] at h
  split at h
  · cases h
  · dsimp only at h
    split at h
    · cases h
    · cases h
      exact ⟨_, rfl⟩

theorem moveDeclarations_imports (h : moveDeclarations as (pins.map Pin.stmt) ss = some body) :
    ∃ labels labels', body.filter (·.isImport) =
      relabel labels (relabel labels' (ss.filter (·.isImport))) := by
  obtain ⟨labels, rfl⟩ := moveDeclarations_eq h
  refine ⟨labels, as.untaken (as.renames ss), ?_⟩
  rw [relabel_imports, Renaming.references]
  split
  · rw [relabel_imports, filter_append, Pin.imports_stmts, Aliases.moveAll_imports]
    rfl
  · rw [Renaming.stmts_imports, relabel_imports, filter_append, Pin.imports_stmts,
      Aliases.moveAll_imports]
    rfl

theorem mem_renames {name : String} {binding : Ident} (h : (name, binding) ∈ as.renames ss) :
    ∃ id a, some id ∈ ss.flatMap Aliases.declaredBy ∧ id.name = name ∧ (name, a) ∈ as ∧
      a.ident = binding := by
  obtain ⟨n, hn, hmoved⟩ := mem_filterMap.1 h
  obtain ⟨id, a, rfl, hname, ha, hbinding⟩ := Aliases.moved?_eq_some hmoved
  exact ⟨id, a, hn, hname, ha, hbinding⟩

/-- An object that is no alias, is not declared and does not share the name of a declaration occurs
as often after the declarations have moved as before. -/
theorem moveDeclarations_occurrences {m : Nat}
    (h : moveDeclarations as (pins.map Pin.stmt) ss = some body)
    (has : ∀ a ∈ as, a.2.ident.mark ≠ some m)
    (hdeclared : ∀ id, some id ∈ ss.flatMap Aliases.declaredBy → id.mark ≠ some m ∧
      ∀ x ∈ marked m (pins.flatMap Pin.idents ++ ss.flatMap Stmt.idents), x.name ≠ id.name) :
    occurrences m (body.flatMap Stmt.idents) =
      occurrences m (pins.flatMap Pin.idents ++ ss.flatMap Stmt.idents) := by
  obtain ⟨labels, rfl⟩ := moveDeclarations_eq h
  have hr : ∀ b ∈ as.renames ss, b.2.mark ≠ some m := by
    intro b hb
    obtain ⟨id, a, -, -, ha, hbinding⟩ := mem_renames hb
    exact hbinding ▸ has _ ha
  have huntaken : (as.untaken (as.renames ss)).lookup m = none := by
    cases hl : (as.untaken (as.renames ss)).lookup m with
    | none => rfl
    | some name =>
      obtain ⟨a, ha, hmem⟩ := mem_filterMap.1 (mem_of_lookup hl)
      dsimp only at hmem
      split at hmem
      · cases hmem
      · obtain ⟨k, hk, hpair⟩ := Option.map_eq_some_iff.1 hmem
        obtain rfl := (Prod.mk.inj hpair).1
        exact absurd hk (has a ha)
  have hmoved : marked m ((relabel (as.untaken (as.renames ss))
      (pins.map Pin.stmt ++ as.moveAll ss)).flatMap Stmt.idents) =
        marked m (pins.flatMap Pin.idents ++ ss.flatMap Stmt.idents) := by
    rw [marked_relabel huntaken, flatMap_append, marked_append, Pin.flatMap_idents_stmt,
      Aliases.marked_moveAll has fun id hid => (hdeclared id hid).1, marked_append]
  have hreferences := Renaming.references_spares hr _ fun x hx => by
    rw [hmoved] at hx
    cases hl : (as.renames ss).lookup x.name with
    | none => rfl
    | some binding =>
      obtain ⟨id, -, hid, hname, -⟩ := mem_renames (mem_of_lookup hl)
      exact absurd hname.symm ((hdeclared id hid).2 x hx)
  rw [occurrences_relabel, ← length_marked, hreferences, hmoved, length_marked]

end Moved

end ExtensionLowering
