import ExtensionLowering.Proofs.Alias.TopLevel
/-!
# Export lists

A declaration that moves to its alias has a new name. The lists by which a file exports its own
names are left as they are, and a list is added for each exported variable that moves. The main
statement says exactly when the lists still fit: no name in a list of the file may have moved. A
name that has moved is still declared if the declaration was exported and cannot be assigned to,
since then its old name is a constant; otherwise the list names nothing.
-/
namespace ExtensionLowering

open List

namespace Renaming

/-- The name after renaming. -/
def newName (r : Renaming) (x : String) : String :=
  ((r.lookup x).map (·.name)).getD x

/-- The name before renaming. -/
def oldName (r : Renaming) (y : String) : String :=
  ((r.find? (·.2.name = y)).map (·.1)).getD y

/-- Every name that an export list looks up afterwards stands for what it stood for before, under
its new name. Names that stood for nothing do not count. -/
def ExportsLinked (r : Renaming) (before after : List Stmt) : Prop :=
  ∀ y ∈ exportedLocals after, meaningOf before (r.oldName y) ≠ [] →
    y = r.newName (r.oldName y) ∧ meaningOf after y = meaningOf before (r.oldName y)

end Renaming

namespace Aliases

variable {as : Aliases} {ss : List Stmt}

theorem mem_renames_lookup {b : String × Ident} (h : b ∈ as.renames ss) :
    ∃ a, as.lookup b.1 = some a ∧ a.ident = b.2 := by
  obtain ⟨name, -, hmoved⟩ := mem_filterMap.1 h
  simp only [moved?, Option.bind_eq_some_iff, Option.map_eq_some_iff] at hmoved
  obtain ⟨id, -, a, ha, rfl⟩ := hmoved
  exact ⟨a, ha, rfl⟩

/-- All declarations of one name move to one alias. -/
theorem lookup_renames {b : String × Ident} (h : b ∈ as.renames ss) :
    (as.renames ss).lookup b.1 = some b.2 := by
  cases hl : (as.renames ss).lookup b.1 with
  | none => simpa using lookup_eq_none_iff.1 hl b h
  | some c =>
    obtain ⟨a, ha, hb⟩ := mem_renames_lookup h
    obtain ⟨a', ha', hc⟩ := mem_renames_lookup (mem_of_lookup hl)
    obtain rfl := Option.some.inj (ha.symm.trans ha')
    exact congrArg some (hc.symm.trans hb)

theorem lookup_renames_of_none {name : String} (h : as.lookup name = none) :
    (as.renames ss).lookup name = none := by
  by_contra hsome
  obtain ⟨b, hl⟩ := Option.ne_none_iff_exists'.1 hsome
  obtain ⟨a, ha, -⟩ := mem_renames_lookup (mem_of_lookup hl)
  simp [h] at ha

end Aliases

namespace Session

variable {x : String}
variable {session : Session} {f out : File}
variable {id : Ident} {p : Pin}

section Names

variable {x : String} {b : String × Ident}

/-- A name of the file is no synthesized name. -/
theorem name_ne_of_synthesized (hx : x ∈ f.names) {id : Ident}
    (hid : id ∈ (session.walk f).2.synthesized) : x ≠ id.name := by
  rintro rfl
  exact (session.walk_accounts f).sound.apart id hid hx

theorem newName_cases (session : Session) (f : File) (x : String) :
    ((session.moves f).lookup x = none ∧ (session.moves f).newName x = x) ∨
      ∃ b, (x, b) ∈ session.moves f ∧ (session.moves f).newName x = b.name := by
  rw [Renaming.newName]
  cases hl : (session.moves f).lookup x with
  | none => exact .inl ⟨rfl, rfl⟩
  | some b => exact .inr ⟨b, mem_of_lookup hl, rfl⟩

theorem newName_of_mem (hb : b ∈ session.moves f) : (session.moves f).newName b.1 = b.2.name := by
  rw [Renaming.newName, show (session.moves f).lookup b.1 = some b.2 from Aliases.lookup_renames hb]
  rfl

/-- What moves and has a name of the file is declared in the file. -/
theorem declared_of_moves (hx : x ∈ f.names) {b : Ident}
    (hb : (x, b) ∈ session.moves f) : x ∈ declaredNames f.stmts := by
  obtain ⟨id, -, hid, rfl, -⟩ := mem_renames hb
  obtain hfile | hpinned := session.walk_declared f hid
  · exact mem_map_of_mem (mem_filterMap.2 ⟨some id, hfile, rfl⟩)
  · exact absurd rfl (name_ne_of_synthesized hx (others_synthesized (pinned_others hpinned)))

/-- A name of the file gets the name of an alias only if it moves there. -/
theorem newName_eq_iff (hx : x ∈ f.names) (hb : b ∈ session.moves f) :
    (session.moves f).newName x = b.2.name ↔ b.1 = x := by
  refine ⟨fun h => ?_, fun h => h ▸ newName_of_mem hb⟩
  obtain ⟨-, hnew⟩ | ⟨c, hc, hnew⟩ := newName_cases session f x
  · exact absurd (hnew.symm.trans h) (name_ne_of_synthesized hx (moves_synthesized hb))
  · rw [eq_of_moves_name hb hc (h.symm.trans hnew)]

theorem oldName_of_mem (hb : b ∈ session.moves f) : (session.moves f).oldName b.2.name = b.1 := by
  rw [Renaming.oldName]
  cases hfind : (session.moves f).find? (·.2.name = b.2.name) with
  | none => simpa using find?_eq_none.1 hfind b hb
  | some c =>
    have hname : c.2.name = b.2.name := by simpa using find?_some hfind
    rw [eq_of_moves_name (mem_of_find?_eq_some hfind) hb hname]
    rfl

theorem oldName_of_file (hx : x ∈ f.names) : (session.moves f).oldName x = x := by
  have hnone : (session.moves f).find? (·.2.name = x) = none :=
    find?_eq_none.2 fun b hb h =>
      name_ne_of_synthesized hx (moves_synthesized hb) (of_decide_eq_true h).symm
  rw [Renaming.oldName, hnone]
  rfl

/-- A name that moves is given to nothing else. -/
theorem newName_ne_moved (x : String) (hb : b ∈ session.moves f) :
    (session.moves f).newName x ≠ b.1 := by
  have hmoved : (session.moves f).lookup b.1 = some b.2 := Aliases.lookup_renames hb
  intro h
  obtain ⟨hnone, hnew⟩ | ⟨c, hc, hnew⟩ := newName_cases session f x
  · rw [← hnew, h, hmoved] at hnone
    cases hnone
  · have hnone := lookup_moves_of_taken hc
    rw [← hnew, h, hmoved] at hnone
    cases hnone

/-- A name of the file is given to no synthesized identifier that is no alias. -/
theorem newName_ne_synthesized (hx : x ∈ f.names) {id : Ident}
    (hid : id ∈ (session.walk f).2.synthesized)
    (halias : ∀ a ∈ session.aliases f, id.mark ≠ a.2.ident.mark) :
    (session.moves f).newName x ≠ id.name := by
  intro h
  obtain ⟨-, hnew⟩ | ⟨c, hc, hnew⟩ := newName_cases session f x
  · exact name_ne_of_synthesized hx hid (hnew.symm.trans h)
  · obtain ⟨a, ha, hident⟩ := mem_moves hc
    have heq := eq_of_synthesized_name hid (moves_synthesized hc) (h.symm.trans hnew)
    exact halias _ ha (by rw [heq, ← hident])

/-- An identifier of the file is no alias. -/
theorem file_ne_alias {id : Ident} (hid : id ∈ (Node.file f).idents) {a : String × Alias}
    (ha : a ∈ session.aliases f) : id.mark ≠ a.2.ident.mark := by
  intro h
  obtain ⟨m, hmark, hbase, -⟩ := (session.walk_accounts f).sound.marked _
    (others_synthesized (alias_mem_others ha))
  have := f.idents_givenBelow id hid m (h.trans hmark)
  omega

end Names

/-- Neither a declaration of the file nor a pinned copy is an alias. -/
theorem declared_ne_alias (hid : some id ∈ session.declared f) :
    ∀ a ∈ session.aliases f, id.mark ≠ a.2.ident.mark := by
  intro a ha
  obtain hfile | hpinned := session.walk_declared f hid
  · exact file_ne_alias (Aliases.mem_file_of_declaredBy hfile) ha
  · exact pinned_ne_alias hpinned ha

/-- A declaration that does not move is shown as it is. -/
theorem shown_declared (hf : f.Marked) (hid : some id ∈ session.declared f)
    (hnone : (session.moves f).lookup id.name = none) : session.shown f id = id := by
  obtain ⟨s, hs, hs'⟩ := mem_flatMap.1 hid
  have hwalked := mem_flatMap.2 ⟨s, hs, Aliases.mem_idents_of_declaredBy hs'⟩
  obtain h | ⟨b, hb, -⟩ :=
    shown_name hf (mem_append_left _ hwalked) (declared_ne_alias hid)
  · exact h
  · rw [hnone] at hb
    cases hb

/-- A name of the file is given to what has it and does not move. -/
theorem newName_eq_declared (x : String) (hid : some id ∈ session.declared f)
    (hnone : (session.moves f).lookup id.name = none) :
    (session.moves f).newName x = id.name ↔ id.name = x := by
  obtain ⟨-, hnew⟩ | ⟨b, hb, hnew⟩ := newName_cases session f x
  · rw [hnew, eq_comm]
  · have hmoved : (session.moves f).lookup x = some b := Aliases.lookup_renames hb
    refine iff_of_false (fun h => ?_) fun h => by rw [h, hmoved] at hnone; cases hnone
    obtain ⟨a, ha, hident⟩ := mem_moves hb
    have hb := moves_synthesized hb
    rw [hnew] at h
    obtain hfile | hcopy := session.walk_declared f hid
    · exact name_ne_of_synthesized (mem_map_of_mem (Aliases.mem_file_of_declaredBy hfile)) hb h.symm
    · have heq := eq_of_synthesized_name hb (others_synthesized (pinned_others hcopy)) h
      exact declared_ne_alias hid _ ha (by rw [← heq, ← hident])

/-- What the output shows at its top level, for anything that the outlines of statements show. -/
theorem lower_flatMap {β : Type} {F : Stmt → List β} {G : (Ident → Ident) → β → β}
    (hF : ∀ s, F s.outline = F s) (hG : ∀ g s, F (s.mapIdents g) = (F s).map (G g))
    (hid : ∀ b, G (fun id => id) b = b) (hcomp : ∀ g g' b, G g (G g' b) = G (g ∘ g') b)
    (h : session.Lowers f out) :
    out.stmts.flatMap F = (preamble (session.env f) (session.walk f).2).flatMap F ++
      (((session.walk f).1.2.map Pin.stmt).flatMap F ++
        ((session.aliases f).moveAll (session.walk f).1.1).flatMap F).map
          (G (session.shown f)) := by
  rw [lower_body h, flatMap_append, relabel_flatMap F G hG hid, renamedStmts,
    Renaming.references_flatMap hF, movedStmts, relabel_flatMap F G hG hid, map_map, flatMap_append]
  congr 2
  funext b
  exact hcomp _ _ b

theorem lower_declares (h : session.Lowers f out) : out.stmts.flatMap Stmt.declares =
    (preamble (session.env f) (session.walk f).2).flatMap Stmt.declares ++
      (((session.walk f).1.2.map Pin.stmt).flatMap Stmt.declares ++
        ((session.walk f).1.1.flatMap Stmt.declares).flatMap (session.aliases f).moveDecl).map
          (TopDecl.map (session.shown f)) := by
  rw [lower_flatMap Stmt.declares_outline Stmt.declares_mapIdents (fun d => by simp [TopDecl.map])
    (fun g g' d => by simp [TopDecl.map]) h, Aliases.moveAll_declares]

theorem lower_importBinders (h : session.Lowers f out) : out.stmts.flatMap Stmt.importBinders =
    (preamble (session.env f) (session.walk f).2).flatMap Stmt.importBinders ++
      ((session.walk f).1.1.flatMap Stmt.importBinders).map fun b =>
        (b.1.map (session.shown f), b.2) := by
  have hleft : ((session.walk f).1.2.map Pin.stmt).flatMap Stmt.importBinders = [] := by
    rw [← flatMap_filter_isImport, Pin.imports_stmts, flatMap_nil]
  rw [lower_flatMap Stmt.importBinders_outline Stmt.importBinders_mapIdents (fun b => by simp)
    (fun g g' b => by simp) h, hleft, nil_append, Aliases.moveAll_importBinders]

section

variable (hf : f.Marked)
include hf

/-- A declaration of the lowered statements has a new name exactly if its name has it. -/
theorem moveDecl_under (hx : x ∈ f.names) {d : TopDecl}
    (hd : d ∈ (session.walk f).1.1.flatMap Stmt.declares) :
    ((session.aliases f).moveDecl d).filterMap (fun e =>
        e.binder.under ((session.moves f).newName x)
          (e.name.map (session.shown f))) =
      (d.binder.under x d.name).toList := by
  obtain ⟨name, binder, forwards⟩ := d
  cases name with
  | none => rfl
  | some id =>
    have hid : some id ∈ session.declared f := by
      rw [declared, flatMap_declaredBy]
      exact mem_map_of_mem (f := TopDecl.name) hd
    cases hm : (session.aliases f).moved? (some id) with
    | none =>
      have hnone : (session.moves f).lookup id.name = none :=
        Aliases.lookup_renames_of_none (by simpa [Aliases.moved?] using hm)
      have hunder := binder.under_congr (newName_eq_declared x hid hnone)
      simp only [Aliases.moveDecl, hm, filterMap_cons, filterMap_nil, Option.map_some,
        shown_declared hf hid hnone, hunder]
      cases binder.under x (some id) <;> rfl
    | some b =>
      have hb : b ∈ session.moves f := mem_filterMap.2 ⟨some id, hid, hm⟩
      have horig : b.1 = id.name := by
        obtain ⟨_, -, hsome, hname, -⟩ := Aliases.moved?_eq_some hm
        rw [← hname, Option.some.inj hsome]
      have hunder := binder.under_congr (horig ▸ newName_eq_iff hx hb)
      have hforward (b' : TopBinder) : b'.under ((session.moves f).newName x)
          (some (session.shown f (.synthetic b.1))) = none := by
        rw [shown_unmarked rfl]
        exact TopBinder.under_of_ne (newName_ne_moved x hb)
      simp only [Aliases.moveDecl, hm, filterMap_cons, Option.map_some, shown_taken hb, hunder]
      cases forwards <;> cases binder.under x (some id) <;> simp [hforward]

/-- A pin that found no place is shown under its name or under its new name. -/
theorem shown_left (hp : p ∈ (session.walk f).1.2) :
    (session.shown f p.ident).name = p.ident.name ∨
      ∃ b, (p.ident.name, b) ∈ session.moves f ∧
        (session.shown f p.ident).name = b.name := by
  have hwalked : p.ident ∈ (session.walk f).1.2.flatMap Pin.idents :=
    mem_flatMap.2 ⟨p, hp, Aliases.mem_idents_of_declaredBy (mem_singleton_self _)⟩
  obtain h | ⟨b, hb, h⟩ := shown_name hf (mem_append_right _ hwalked)
    fun a ha => pinned_ne_alias (session.walk_left f hp) ha
  · exact .inl (by rw [h])
  · exact .inr ⟨b, mem_of_lookup hb, h⟩

theorem newName_ne_left (hx : x ∈ f.names) (hp : p ∈ (session.walk f).1.2) :
    (session.moves f).newName x ≠ (session.shown f p.ident).name := by
  have hpinned := session.walk_left f hp
  have hsynth := others_synthesized (pinned_others hpinned)
  obtain h | ⟨b, hb, h⟩ := shown_left hf hp
  · rw [h]
    exact newName_ne_synthesized hx hsynth fun a ha => pinned_ne_alias hpinned ha
  · rw [h, Ne, newName_eq_iff hx hb]
    exact (name_ne_of_synthesized hx hsynth).symm

theorem name_ne_left (hx : x ∈ f.names) (hp : p ∈ (session.walk f).1.2) :
    x ≠ (session.shown f p.ident).name := by
  obtain h | ⟨b, hb, h⟩ := shown_left hf hp
  · rw [h]
    exact name_ne_of_synthesized hx
      (others_synthesized (pinned_others (session.walk_left f hp)))
  · rw [h]
    exact name_ne_of_synthesized hx (moves_synthesized hb)

/-- The declarations of a name of the file are those of its new name in the output. -/
theorem declarationsOf_newName (h : session.Lowers f out) (hx : x ∈ f.names) :
    declarationsOf out.stmts ((session.moves f).newName x) = declarationsOf f.stmts x := by
  have hpre : ((preamble (session.env f) (session.walk f).2).flatMap
      Stmt.declares).filterMap (fun d =>
        d.binder.under ((session.moves f).newName x) d.name) = [] := by
    refine filterMap_eq_nil_iff.2 fun d hd => ?_
    obtain ⟨id, hid, hname⟩ := preamble_declares hd
    have hothers := mem_append_left (session.copies f)
      (mem_append_left ((session.walk f).2.names.derivations.map (·.2)) hid)
    rw [hname]
    exact TopBinder.under_of_ne (newName_ne_synthesized hx
      (others_synthesized (mem_append_left _ hothers)) fun a ha => ne_alias hothers ha)
  have hleft : (((session.walk f).1.2.map Pin.stmt).flatMap Stmt.declares).filterMap
      (fun d => d.binder.under ((session.moves f).newName x)
        (d.name.map (session.shown f))) = [] := by
    refine filterMap_eq_nil_iff.2 fun d hd => ?_
    obtain ⟨_, hs, hd⟩ := mem_flatMap.1 hd
    obtain ⟨p, hp, rfl⟩ := mem_map.1 hs
    obtain rfl := mem_singleton.1 (p.declares_stmt ▸ hd)
    exact TopBinder.under_of_ne (newName_ne_left hf hx hp)
  have hwalk : declarationsOf (session.walk f).1.1 x = declarationsOf f.stmts x := by
    obtain ⟨pins, u, hwalk, hpins⟩ := session.walk_pins f
    rw [hwalk, Pin.place_declarationsOf fun p hp => (name_ne_of_synthesized hx
        (others_synthesized (pinned_others (hpins p hp)))).symm, declarationsOf,
      Lower.stmts_flatMap Stmt.declares_outline]
    rfl
  rw [declarationsOf, lower_declares h, filterMap_append, hpre, nil_append, filterMap_map,
    filterMap_append, ← hwalk]
  simp only [Function.comp_def, TopDecl.map]
  rw [hleft, nil_append, filterMap_flatMap, declarationsOf, filterMap_eq_flatMap_toList]
  exact flatMap_congr fun d hd => moveDecl_under hf hx hd

/-- What an import of the walked statements binds stands in the file. It is no alias, so it is shown
as it is or under a new name. -/
theorem shown_import {b : TopBinder}
    (hb : (some id, b) ∈ (session.walk f).1.1.flatMap Stmt.importBinders) :
    id ∈ (Node.file f).idents ∧ (session.shown f id = id ∨
      ∃ b, (session.moves f).lookup id.name = some b ∧
        (session.shown f id).name = b.name) := by
  obtain ⟨s, hs, hid⟩ := mem_flatMap.1 hb
  have hwalked := mem_flatMap.2 ⟨s, hs, Stmt.mem_idents_of_importBinders hid⟩
  have hfile : id ∈ (Node.file f).idents := by
    rw [← flatMap_filter_isImport, session.walk_imports, flatMap_filter_isImport] at hb
    obtain ⟨s, hs, hid⟩ := mem_flatMap.1 hb
    exact f.mem_idents hs (Stmt.mem_idents_of_importBinders hid)
  exact ⟨hfile, shown_name hf (mem_append_left _ hwalked) fun a ha => file_ne_alias hfile ha⟩

/-- The imports of a name of the file that does not move are its imports in the output. -/
theorem importsOf_lower (h : session.Lowers f out) (hx : x ∈ f.names)
    (hnone : (session.moves f).lookup x = none) : importsOf out.stmts x = importsOf f.stmts x := by
  have hpre : ((preamble (session.env f) (session.walk f).2).flatMap
      Stmt.importBinders).filterMap (fun b => b.2.under x b.1) = [] := by
    refine filterMap_eq_nil_iff.2 fun b hb => ?_
    obtain ⟨_ | id, binder⟩ := b
    · rfl
    · obtain ⟨e, he, rfl, -⟩ := preamble_importBinders hb
      exact TopBinder.under_of_ne (name_ne_of_synthesized hx
        (mem_append_left _ (mem_append_left _ (mem_map_of_mem he))))
  have hwalk : (session.walk f).1.1.flatMap Stmt.importBinders =
      f.stmts.flatMap Stmt.importBinders := by
    rw [← flatMap_filter_isImport, session.walk_imports, flatMap_filter_isImport]
  have hshown : ∀ b ∈ (session.walk f).1.1.flatMap Stmt.importBinders,
      b.2.under x (b.1.map (session.shown f)) = b.2.under x b.1 := by
    rintro ⟨_ | id, binder⟩ hb
    · rfl
    · obtain hsame | ⟨b, hb, hname⟩ := (shown_import hf hb).2
      · rw [Option.map_some, hsame]
      · refine TopBinder.under_congr (iff_of_false ?_ ?_)
        · rw [hname]
          exact name_ne_of_synthesized hx (moves_synthesized (mem_of_lookup hb))
        · rintro rfl
          rw [hnone] at hb
          cases hb
  rw [importsOf, importsOf, lower_importBinders h, filterMap_append, hpre, nil_append,
    filterMap_map, ← hwalk]
  exact filterMap_congr hshown

theorem meaningOf_newName (h : session.Lowers f out) (hx : x ∈ f.names) :
    meaningOf out.stmts ((session.moves f).newName x) = meaningOf f.stmts x := by
  have hdecls := declarationsOf_newName hf h hx
  rw [meaningOf, meaningOf, hdecls]
  split
  · rename_i hnil
    obtain ⟨hnone, hnew⟩ | ⟨b, hb, -⟩ := newName_cases session f x
    · rw [hnew, importsOf_lower hf h hx hnone]
    · exact absurd (declared_of_moves hx hb) (declarationsOf_eq_nil.1 hnil)
  · rfl

/-- The names that the export lists of the output look up: those of the file, and new names. -/
theorem exportedLocals_lower (h : session.Lowers f out) :
    exportedLocals f.stmts ⊆ exportedLocals out.stmts ∧
      ∀ y ∈ exportedLocals out.stmts,
        y ∈ exportedLocals f.stmts ∨ ∃ b ∈ session.moves f, b.2.name = y := by
  have hwalk : (session.walk f).1.1.flatMap Stmt.exports =
      f.stmts.flatMap Stmt.exports := by
    obtain ⟨pins, u, hwalk, -⟩ := session.walk_pins f
    rw [hwalk, Pin.place_exports, Lower.stmts_flatMap Stmt.exports_outline]
  have hshown : ∀ e ∈ f.stmts.flatMap Stmt.exports,
      e.name.map (session.shown f) = e.name := by
    intro e he
    cases hname : e.name with
    | none => rfl
    | some id =>
      obtain ⟨s, hs, himport, hid⟩ := exists_of_exports he hname
      rw [Option.map_some, shown_unmarked (hf.plain s hs himport id hid)]
  have hout := lower_flatMap Stmt.exports_outline Stmt.exports_mapIdents
    (fun e => by simp [Specifier.mapIdents]) (fun g g' e => by simp [Specifier.mapIdents]) h
  rw [preamble_exports, nil_append, Pin.exports_stmts, nil_append] at hout
  simp only [exportedLocals, hout, map_map]
  constructor
  · intro x hx
    obtain ⟨id, hid, rfl⟩ := mem_namesOf.1 hx
    obtain ⟨e, he, hname⟩ := mem_map.1 hid
    refine mem_namesOf.2 ⟨id, mem_map.2 ⟨e, Aliases.exports_subset_moveAll _ (hwalk ▸ he), ?_⟩,
      rfl⟩
    exact (hshown e he).trans hname
  · intro y hy
    obtain ⟨id, hid, rfl⟩ := mem_namesOf.1 hy
    obtain ⟨e, he, hname⟩ := mem_map.1 hid
    obtain he | ⟨b, hb, hnew⟩ := Aliases.moveAll_exports he
    · rw [hwalk] at he
      refine .inl (mem_namesOf.2 ⟨id, mem_map.2 ⟨e, he, ?_⟩, rfl⟩)
      exact (hshown e he).symm.trans hname
    · refine .inr ⟨b, hb, ?_⟩
      have hid : (e.mapIdents (session.shown f)).name = some b.2 := by
        rw [Specifier.mapIdents, hnew, Option.map_some, shown_taken hb]
      rw [Option.some.inj (hid.symm.trans hname)]

/-- Where a declaration of the output comes from: it stands in front of the file, is a pin that found
no place, or a declaration of the walked statements that stays, has moved or is forwarded. -/
theorem declares_lower (h : session.Lowers f out) (hx : x ∈ declaredNames out.stmts) :
    (∃ id ∈ (session.walk f).2.traceVar.toList, id.name = x) ∨
      (∃ p ∈ (session.walk f).1.2, (session.shown f p.ident).name = x) ∨
      (∃ b ∈ session.moves f, b.2.name = x) ∨
      ∃ d ∈ (session.walk f).1.1.flatMap Stmt.declares, ∃ id, d.name = some id ∧
        id.name = x ∧ ((session.moves f).lookup x = none ∨ d.forwards) := by
  rw [mem_declaredNames, lower_declares h] at hx
  obtain ⟨d, hd, id, hid, rfl⟩ := hx
  obtain hd | hd := mem_append.1 hd
  · obtain ⟨id', hid', hname⟩ := preamble_declares hd
    obtain rfl := Option.some.inj (hid.symm.trans hname)
    exact .inl ⟨id, hid', rfl⟩
  obtain ⟨e, he, rfl⟩ := mem_map.1 hd
  obtain ⟨i, hi, rfl⟩ := Option.map_eq_some_iff.1 hid
  obtain he | he := mem_append.1 he
  · obtain ⟨_, hs, he⟩ := mem_flatMap.1 he
    obtain ⟨p, hp, rfl⟩ := mem_map.1 hs
    obtain rfl := mem_singleton.1 (p.declares_stmt ▸ he)
    obtain rfl := Option.some.inj hi
    exact .inr (.inl ⟨p, hp, rfl⟩)
  obtain ⟨d, hd, he⟩ := mem_flatMap.1 he
  have hdeclared : d.name ∈ session.declared f := by
    rw [declared, flatMap_declaredBy]
    exact mem_map_of_mem hd
  obtain ⟨hnone, rfl⟩ | ⟨b, hb, hnew | ⟨hforward, hold⟩⟩ := Aliases.mem_moveDecl he
  · rw [hi] at hnone hdeclared
    have hfree : (session.moves f).lookup i.name = none :=
      Aliases.lookup_renames_of_none (by simpa [Aliases.moved?] using hnone)
    rw [shown_declared hf hdeclared hfree]
    exact .inr (.inr (.inr ⟨e, hd, i, hi, rfl, .inl hfree⟩))
  · have hb : b ∈ session.moves f := mem_filterMap.2 ⟨_, hdeclared, hb⟩
    obtain rfl := Option.some.inj (hi.symm.trans hnew)
    exact .inr (.inr (.inl ⟨b, hb, congrArg Ident.name (shown_taken hb).symm⟩))
  · obtain rfl := Option.some.inj (hi.symm.trans hold)
    obtain ⟨id, -, hname, horig, -⟩ := Aliases.moved?_eq_some hb
    rw [shown_unmarked rfl]
    exact .inr (.inr (.inr ⟨d, hd, id, hname, horig, .inr hforward⟩))

/-- A name that has moved is declared if its declaration is forwarded. -/
theorem mem_declaredNames_moved (h : session.Lowers f out)
    (hx : x ∈ f.names) (hmoved : (session.moves f).lookup x ≠ none) :
    x ∈ declaredNames out.stmts ↔ x ∈ forwardedNames f.stmts := by
  have hwalk : forwardedNames (session.walk f).1.1 = forwardedNames f.stmts := by
    obtain ⟨pins, u, hwalk, -⟩ := session.walk_pins f
    rw [hwalk, Pin.place_forwardedNames, forwardedNames, Lower.stmts_flatMap Stmt.declares_outline]
    rfl
  rw [← hwalk]
  constructor
  · intro hdecl
    obtain ⟨id, hid, rfl⟩ | ⟨p, hp, rfl⟩ | ⟨b, hb, rfl⟩ | ⟨d, hd, id, hname, rfl, hnone | hforward⟩ :=
      declares_lower hf h hdecl
    · exact absurd rfl (name_ne_of_synthesized hx (others_synthesized (mem_append_left _
        (mem_append_left _ (mem_append_left _ hid)))))
    · exact absurd rfl (name_ne_left hf hx hp)
    · exact absurd rfl (name_ne_of_synthesized hx (moves_synthesized hb))
    · exact absurd hnone hmoved
    · exact mem_namesOf.2 ⟨id, mem_map.2 ⟨d, mem_filter.2 ⟨hd, hforward⟩, hname⟩, rfl⟩
  · intro hforward
    obtain ⟨id, hid, rfl⟩ := mem_namesOf.1 hforward
    obtain ⟨d, hd, hname⟩ := mem_map.1 hid
    obtain ⟨hd, hforward⟩ := mem_filter.1 hd
    obtain ⟨b, hb⟩ := Option.ne_none_iff_exists'.1 hmoved
    obtain ⟨a, ha, -⟩ := Aliases.mem_renames_lookup (mem_of_lookup hb)
    have hm : (session.aliases f).moved? d.name =
        some (id.name, a.ident) := by
      rw [hname]
      simp [Aliases.moved?, ha]
    have hmem := mem_flatMap.2 ⟨d, hd, Aliases.mem_moveDecl_forward hm hforward⟩
    rw [mem_declaredNames, lower_declares h]
    exact ⟨_, mem_append_right _ (mem_map_of_mem (mem_append_right _ hmem)), _,
      congrArg some (shown_unmarked rfl), rfl⟩

end

end Session

namespace File

variable (f : File)

theorem markImports_declares :
    f.markImports.stmts.flatMap Stmt.declares = f.stmts.flatMap Stmt.declares :=
  markImports_flatMap _ (fun _ _ _ _ _ _ => rfl) 0 f.stmts

theorem markImports_declaredNames : declaredNames f.markImports.stmts = declaredNames f.stmts := by
  rw [declaredNames, markImports, markImports_flatMap _ fun _ _ _ _ _ _ => rfl]
  rfl

theorem markImports_meaningOf : meaningOf f.markImports.stmts = meaningOf f.stmts := by
  funext x
  have himports : importsOf f.markImports.stmts x = importsOf f.stmts x := by
    rw [importsOf, importsOf, filterMap_flatMap, filterMap_flatMap]
    exact markImports_flatMap _ (fun _ _ _ _ _ _ => rfl) 0 f.stmts
  rw [meaningOf, meaningOf, himports, declarationsOf, f.markImports_declares]
  rfl

theorem markImports_exportedLocals :
    exportedLocals f.markImports.stmts = exportedLocals f.stmts := by
  rw [exportedLocals, markImports, markImports_flatMap _ fun _ _ _ _ _ _ => rfl]
  rfl

theorem markImports_forwardedNames :
    forwardedNames f.markImports.stmts = forwardedNames f.stmts := by
  rw [forwardedNames, f.markImports_declares]
  rfl

end File

namespace Session

/-- The top level of the output: what a name of the file stood for, its new name stands for; the
names of export lists are still there, and one that has moved is declared if it was exported and
cannot be assigned to. So the export lists are linked exactly if no name in them has moved. -/
theorem exports_linked_iff (session : Session) (f out : File) (hf : f.Unshared)
    (h : (session.lower f.markImports).1 = .lowered out) :
    (∀ x, meaningOf f.stmts x ≠ [] →
      meaningOf out.stmts ((session.moves f.markImports).newName x) = meaningOf f.stmts x) ∧
    exportedLocals f.stmts ⊆ exportedLocals out.stmts ∧
    (∀ x ∈ exportedLocals f.stmts, (session.moves f.markImports).lookup x ≠ none →
      (x ∈ declaredNames out.stmts ↔ x ∈ forwardedNames f.stmts)) ∧
    ((session.moves f.markImports).ExportsLinked f.stmts out.stmts ↔
      ∀ x ∈ exportedLocals f.stmts, (session.moves f.markImports).lookup x = none) := by
  replace hf := hf.marked
  simp only [Renaming.ExportsLinked, ← f.markImports_meaningOf, ← f.markImports_exportedLocals,
    ← f.markImports_forwardedNames]
  generalize f.markImports = f at hf h ⊢
  have hexported : ∀ x ∈ exportedLocals f.stmts, x ∈ f.names := by
    intro x hx
    obtain ⟨id, hid, rfl⟩ := mem_namesOf.1 hx
    obtain ⟨e, he, hname⟩ := mem_map.1 hid
    obtain ⟨s, hs, -, hid⟩ := exists_of_exports he hname
    exact mem_map_of_mem (f.mem_idents hs hid)
  obtain ⟨hkept, hnew⟩ := exportedLocals_lower hf h
  refine ⟨fun x hx => meaningOf_newName hf h (mem_file_of_meaningOf hx), hkept,
    fun x hx => mem_declaredNames_moved hf h (hexported x hx), fun hlinked x hx => ?_,
    fun hfree y hy hmeans => ?_⟩
  · by_contra hsome
    obtain ⟨b, hb⟩ := Option.ne_none_iff_exists'.1 hsome
    have hfile := hexported x hx
    have hdeclared := declared_of_moves hfile (mem_of_lookup hb)
    have hold : (session.moves f).oldName x = x := oldName_of_file hfile
    have hmeans : meaningOf f.stmts x ≠ [] := meaningOf_ne_nil_of_declared hdeclared
    have := (hlinked x (hkept hx) (by rwa [hold])).1
    rw [hold] at this
    exact newName_ne_moved x (mem_of_lookup hb) this.symm
  · have hmeaning := meaningOf_newName hf h (mem_file_of_meaningOf hmeans)
    have hsame : y = (session.moves f).newName
        ((session.moves f).oldName y) := by
      obtain hy | ⟨b, hb, rfl⟩ := hnew y hy
      · rw [oldName_of_file (hexported y hy), Renaming.newName, hfree y hy]
        rfl
      · rw [oldName_of_mem hb, newName_of_mem hb]
    exact ⟨hsame, (congrArg (meaningOf out.stmts) hsame).trans hmeaning⟩

/-- A session in which `size` is a declaration of the file. -/
def sizeSession : Session :=
  { compilation := { declarations := #[{ name := "size", exported := true }] } }

/-- `function name(xs) { return 0; }` -/
def zeroFunction (name : Ident) : Stmt :=
  .funcDecl {} false (some name) [.ofIdent { name := "xs" }] .missing
    (.mk {} [] [.ret {} (.number {} "0")])

/-- `export { name }` -/
def exportList (name : String) : Stmt :=
  .exportDecl {} [{ name := some { name } }]

/-- The function `size` and `xs.size` with this extension, followed by other statements. -/
def sizeFile (rest : List Stmt) : File :=
  { stmts := zeroFunction { name := "size" } ::
      .expr {} (.prop {} { signature := some { kind := .getter, decl := some 0 } }
        (.ident { name := "xs" }) (some { name := "size" }) false) :: rest }

/-- The function `size` under its alias and a call of it, followed by other statements. -/
def sizeLowered (rest : List Stmt) : File :=
  let size : Ident := { Ident.synthetic "size_1" with mark := some 0 }
  { stmts := zeroFunction size ::
      .expr {} ((Expr.ofIdent size).apply [.ident { name := "xs" }]) :: rest }

/-- `function count(xs) { return 0; }` and `export { count }` -/
def countExport : List Stmt :=
  [zeroFunction { name := "count" }, exportList "count"]

/-- A function that does not move is exported by its list. -/
theorem exports_linked_iff_unmoved :
    (sizeSession.lower (sizeFile countExport).markImports).1 = .lowered (sizeLowered countExport) ∧
      (sizeSession.moves (sizeFile countExport).markImports).newName "size" = "size_1" ∧
      (sizeSession.moves (sizeFile countExport).markImports).ExportsLinked
        (sizeFile countExport).stmts (sizeLowered countExport).stmts := by
  have hout : (sizeSession.lower (sizeFile countExport).markImports).1 =
      .lowered (sizeLowered countExport) := by
    rfl
  have hlinked := exports_linked_iff sizeSession (sizeFile countExport) (sizeLowered countExport)
    (by decide +kernel) hout
  exact ⟨hout, by decide +kernel, hlinked.2.2.2.2 (by decide +kernel)⟩

/-- A function that has moved is still listed under its old name, which nothing declares. -/
theorem moved_export_unlinked :
    (sizeSession.lower (sizeFile [exportList "size"]).markImports).1 =
        .lowered (sizeLowered [exportList "size"]) ∧
      exportedLocals (sizeLowered [exportList "size"]).stmts = ["size"] ∧
      meaningOf (sizeFile [exportList "size"]).stmts "size" = [.function {}] ∧
      meaningOf (sizeLowered [exportList "size"]).stmts "size" = [] := by
  refine ⟨by rfl, by decide +kernel, by decide +kernel, by decide +kernel⟩

end Session

end ExtensionLowering
