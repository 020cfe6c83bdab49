import ExtensionLowering.Proofs.Alias.Transfer
/-!
# The register of synthesized names

Every identifier that lowering synthesizes is entered in the state under what it stands for. The
names of a register are all different, whatever they are made for, and the file mentions none of
them. The passes that follow the walk keep them, up to the aliases that no declaration takes.
-/
namespace ExtensionLowering

open List

/-- What an identifier is synthesized for. -/
inductive Entity where
  | module (path : String)
  | trace
  | derivation (d : Option DerivId)
  | pin (d : DeclId)
  | declaration (name : String)
  deriving Repr, DecidableEq

namespace Lowering

/-- The synthesized identifiers with what they stand for. A module that is needed again after its
last reference was taken back has an identifier for each time. -/
def register (s : Lowering) : List (Entity × Ident) :=
  s.ledger.counted.map (fun e => (.module e.path, e.ident)) ++
    s.ledger.retired.map (fun r => (.module r.2, r.1)) ++
    s.traceVar.toList.map (fun id => (.trace, id)) ++
    s.names.derivations.map (fun d => (.derivation d.1, d.2)) ++
    s.pinned.map (fun p => (.pin p.1, p.2)) ++
    s.names.aliases.map (fun a => (.declaration a.1, a.2.ident))

theorem register_idents (s : Lowering) : s.register.map (·.2) = s.synthesized := by
  simp [register, synthesized, others, Ledger.aliases, Function.comp_def]

theorem mem_synthesized {s : Lowering} {a : Entity × Ident} (ha : a ∈ s.register) :
    a.2 ∈ s.synthesized :=
  s.register_idents ▸ mem_map_of_mem ha

theorem declaration_mem_register {s : Lowering} {name : String} {id : Ident} :
    (.declaration name, id) ∈ s.register ↔ ∃ a, (name, a) ∈ s.names.aliases ∧ a.ident = id := by
  simp [register]

end Lowering

/-- What stands in front of a file is entered for a module or for the trace. -/
theorem preamble_idents {env : Env} {u : Lowering} {id : Ident}
    (hid : id ∈ (preamble env u).flatMap Stmt.idents) :
    ∃ entity, (entity, id) ∈ u.register ∧ ∀ name, entity ≠ .declaration name := by
  obtain ⟨s, hs, hid⟩ := mem_flatMap.1 hid
  obtain ⟨v, hv, rfl⟩ | ⟨e, he, rfl⟩ := mem_preamble hs
  · obtain rfl : id = v := by simpa [Expr.ofString] using hid
    refine ⟨.trace, ?_, by simp⟩
    simpa [Lowering.register] using hv
  · obtain rfl : id = e.ident := by simpa using hid
    refine ⟨.module e.path, ?_, by simp⟩
    simp only [Lowering.register, append_assoc]
    exact mem_append_left _ (mem_map_of_mem he)

namespace Session

variable {session : Session} {f out : File} {a : Entity × Ident} {id : Ident} {m : Nat}

/-- A marked identifier of the output stands in front of the file, or the renamed statements have
its mark and its name. -/
theorem lower_idents (h : session.Lowers f out)
    (hid : id ∈ out.stmts.flatMap Stmt.idents) (hm : id.mark = some m) :
    (∃ entity, (entity, id) ∈ (session.walk f).2.register ∧ ∀ name, entity ≠ .declaration name) ∨
      ∃ i ∈ (session.renamedStmts f).flatMap Stmt.idents, i.mark = some m ∧ i.name = id.name := by
  rw [lower_body h, flatMap_append, mem_append, relabel_idents] at hid
  refine hid.imp preamble_idents fun hid => ?_
  obtain ⟨i, hi, rfl⟩ := mem_map.1 hid
  rw [Ident.relabel_mark] at hm
  obtain hname | ⟨k, name, hk, hl, hname⟩ := Ident.relabel_name_cases
  · exact ⟨i, hi, hm, hname.symm⟩
  · obtain rfl := Option.some.inj (hk.symm.trans hm)
    obtain ⟨i', hi', hm', rfl, -⟩ := Renaming.lookup_carried hl
    exact ⟨i', hi', hm', hname.symm⟩

/-- What has the mark of an alias that no declaration takes has the plain name. -/
theorem renamedStmts_untaken {name : String} (hl : (session.untaken f).lookup m = some name)
    (hid : id ∈ (session.renamedStmts f).flatMap Stmt.idents) (hm : id.mark = some m) :
    id.name = name := by
  have hmoved {i : Ident} (hi : i ∈ (session.movedStmts f).flatMap Stmt.idents)
      (hm : i.mark = some m) : i.name = name := by
    rw [movedStmts, relabel_idents] at hi
    obtain ⟨j, -, rfl⟩ := mem_map.1 hi
    rw [Ident.relabel_mark] at hm
    simp [Ident.relabel, hm, hl, Ident.rename]
  obtain hid | ⟨x, hx⟩ | ⟨i, hi, b, hb, rfl⟩ := Renaming.references_idents hid (by simp [hm])
  · exact hmoved hid hm
  · simp [lookup_untaken_of_taken hx hm] at hl
  · obtain ⟨-, -, hnone, -⟩ := Aliases.lookup_untaken hl
    simp [hmoved hi hm, hnone] at hb

/-- Any other synthesized identifier keeps its name, or the name has moved. -/
theorem lower_name (h : session.Lowers f out) {a : Ident}
    (ha : a ∈ (session.walk f).2.synthesized) (hid : id ∈ out.stmts.flatMap Stmt.idents)
    (hmark : id.mark = a.mark) (hm : a.mark = some m) (hl : (session.untaken f).lookup m = none) :
    id.name = a.name ∨ ∃ b, (session.moves f).lookup a.name = some b ∧ id.name = b.name := by
  obtain ⟨_, hmem, -⟩ | ⟨i, hi, him, hname⟩ := lower_idents h hid (hmark.trans hm)
  · exact .inl (by rw [← eq_of_synthesized_mark (Lowering.mem_synthesized hmem) ha hmark])
  rw [← hname]
  obtain hi | ⟨x, hx⟩ | ⟨j, hj, hjm, b, hb, rfl⟩ := renamedStmts_idents hl hi him
  · exact .inl (by rw [eq_of_walked_mark hi ha (him.trans hm.symm)])
  · obtain rfl := eq_of_synthesized_mark (moves_synthesized hx) ha (him.trans hm.symm)
    exact .inl rfl
  · rw [eq_of_walked_mark hj ha (hjm.trans hm.symm)] at hb
    exact .inr ⟨b, hb, rfl⟩

/-- One mark stands for one entry. -/
theorem eq_of_register_mark {b : Entity × Ident} (ha : a ∈ (session.walk f).2.register)
    (hb : b ∈ (session.walk f).2.register) (h : a.2.mark = b.2.mark) : a = b := by
  have hmarks := (session.walk_accounts f).sound.marks
  rw [← Lowering.register_idents, map_map] at hmarks
  exact inj_on_of_nodup_map hmarks ha hb h

/-- The name that the output has for an entry is the synthesized one. But an alias that no
declaration takes falls back to the plain name, and the name of a copy may move as any other name
does. -/
def ShowsAs (session : Session) (f : File) (shown : String) : Entity × Ident → Prop
  | (.declaration name, id) =>
    shown = if name ∈ declaredNames (session.walk f).1.1 then id.name else name
  | (.pin _, id) =>
    shown = id.name ∨ ∃ b, (id.name, b) ∈ session.moves f ∧ shown = b.name
  | (_, id) => shown = id.name

/-- Of the synthesized names only those of copies move. -/
theorem pin_of_moves (ha : a ∈ (session.walk f).2.register) {b : Ident}
    (hb : (session.moves f).lookup a.2.name = some b) : ∃ d, a.1 = .pin d := by
  have hdecl : some a.2 ∈ session.declared f := by
    by_contra hdecl
    simp [lookup_moves_eq_none (Lowering.mem_synthesized ha) hdecl] at hb
  obtain hfile | hpinned := session.walk_declared f hdecl
  · exact absurd (mem_map_of_mem (Aliases.mem_file_of_declaredBy hfile))
      ((session.walk_accounts f).sound.apart _ (Lowering.mem_synthesized ha))
  · obtain ⟨c, hc, hident⟩ := mem_map.1 hpinned
    have hmem : (.pin c.1, c.2) ∈ (session.walk f).2.register := by
      simp only [Lowering.register, mem_append, mem_map]
      exact .inl (.inr ⟨c, hc, rfl⟩)
    rw [eq_of_register_mark ha hmem (congrArg Ident.mark hident.symm)]
    exact ⟨c.1, rfl⟩

/-- What stands for an alias has its name if a declaration takes it, and else the plain name. -/
theorem lower_alias_name (h : session.Lowers f out) {name : String} {a : Alias}
    (ha : (name, a) ∈ session.aliases f) (hid : id ∈ out.stmts.flatMap Stmt.idents)
    (hmark : id.mark = a.ident.mark) :
    id.name = if name ∈ declaredNames (session.walk f).1.1 then a.ident.name else name := by
  have hmem := Lowering.declaration_mem_register.2 ⟨a, ha, rfl⟩
  have hsynth := Lowering.mem_synthesized hmem
  obtain ⟨m, hm, -⟩ := (session.walk_accounts f).sound.marked _ hsynth
  have hl : (session.untaken f).lookup m = _ := Aliases.lookup_untaken_alias alias_marks ha hm
  split at hl
  · rename_i hdecl
    rw [if_pos hdecl]
    refine (lower_name h hsynth hid hmark hm hl).resolve_right ?_
    rintro ⟨b, hb, -⟩
    obtain ⟨d, hd⟩ := pin_of_moves hmem hb
    cases hd
  · rename_i hdecl
    rw [if_neg hdecl]
    obtain ⟨entity, hentry, hne⟩ | ⟨i, hi, him, hname⟩ := lower_idents h hid (hmark.trans hm)
    · exact absurd (Prod.mk.inj (eq_of_register_mark hentry hmem hmark)).1 (hne name)
    · rw [← hname, renamedStmts_untaken hl hi him]

theorem lower_showsAs (h : session.Lowers f out)
    (ha : a ∈ (session.walk f).2.register) (hid : id ∈ out.stmts.flatMap Stmt.idents)
    (hmark : id.mark = a.2.mark) : session.ShowsAs f id.name a := by
  by_cases halias : ∃ name, a.1 = .declaration name
  · obtain ⟨entity, x⟩ := a
    obtain ⟨name, rfl⟩ := halias
    obtain ⟨a, halias, rfl⟩ := Lowering.declaration_mem_register.1 ha
    exact lower_alias_name h halias hid hmark
  have hne (b : String × Alias) (hb : b ∈ session.aliases f) : a.2.mark ≠ b.2.ident.mark := by
    intro heq
    have hmem := Lowering.declaration_mem_register.2 ⟨b.2, hb, rfl⟩
    exact halias ⟨b.1, congrArg Prod.fst (eq_of_register_mark ha hmem heq)⟩
  have hsynth := Lowering.mem_synthesized ha
  obtain ⟨m, hm, -⟩ := (session.walk_accounts f).sound.marked _ hsynth
  obtain hname | ⟨b, hb, hname⟩ := lower_name h hsynth hid hmark hm (lookup_untaken_of_ne hne hm)
  · obtain ⟨_ | _ | _ | _ | name, x⟩ := a
    case declaration => exact absurd ⟨name, rfl⟩ halias
    case pin => exact .inl hname
    all_goals exact hname
  · obtain ⟨entity, x⟩ := a
    obtain ⟨d, rfl⟩ := pin_of_moves ha hb
    exact .inr ⟨b, mem_of_lookup hb, hname⟩

/-- The names synthesized for a file are all different, none is mentioned in the file, they are all
that was taken besides the names of the file, and what lowering puts into the tree under a mark of
its own is one of them. The passes that follow keep them: the output shows what a mark stands for
under its synthesized name, up to the aliases that no declaration takes. -/
theorem synthesized_names_apart (session : Session) (f : File) :
    ((session.walk f).2.register.Pairwise fun a b => a.2.name ≠ b.2.name) ∧
      (∀ a ∈ (session.walk f).2.register, ¬ f.Mentions a.2.name) ∧
      (session.walk f).2.names.supply.taken.Perm
        ((session.walk f).2.register.map (·.2.name) ++ (Node.file f).idents.map (·.name)) ∧
      (∀ id ∈ (session.walk f).1.1.flatMap Stmt.idents ++ (session.walk f).1.2.flatMap Pin.idents,
        id.GivenBelow f.freeMark ∨ ∃ a ∈ (session.walk f).2.register, a.2 = id) ∧
      ∀ out, (session.lower f).1 = .lowered out → ∀ a ∈ (session.walk f).2.register,
        ∀ id ∈ out.stmts.flatMap Stmt.idents, id.mark = a.2.mark →
          session.ShowsAs f id.name a := by
  have haccount := session.walk_accounts f
  have hregister := (session.walk f).2.register_idents
  have hsound := haccount.sound
  refine ⟨?_, fun a ha => ?_, ?_, fun id hid => ?_,
    fun out h a ha id hid hmark => lower_showsAs h ha hid hmark⟩
  · have hnames := hsound.names
    rw [← hregister, map_map] at hnames
    exact pairwise_map.1 hnames
  · rw [f.mentions_iff]
    exact hsound.apart a.2 (Lowering.mem_synthesized ha)
  · have htaken := hsound.taken
    rwa [← hregister, map_map] at htaken
  · refine (haccount.known id hid).imp_right fun hmem => ?_
    rw [← hregister] at hmem
    exact mem_map.1 hmem

/-- A file that mentions the first name that its import would get. -/
def mentioningFile : File :=
  { stmts :=
      [.expr {} (.ident { name := "tsplus_module_1" }),
       .expr {} (.ident { name := "x", globalImport := some { path := "m", name := "x" } })] }

theorem synthesized_names_apart_mentioned :
    (({ compilation := {} } : Session).walk mentioningFile).2.register.map
        (fun a => (a.1, a.2.name)) = [(.module "m", "tsplus_module_2")] ∧
      mentioningFile.Mentions "tsplus_module_1" ∧ ¬ mentioningFile.Mentions "tsplus_module_2" := by
  have hregister : (({ compilation := {} } : Session).walk mentioningFile).2.register.map
      (fun a => (a.1, a.2.name)) = [(.module "m", "tsplus_module_2")] := by
    decide +kernel
  obtain ⟨a, ha, hname⟩ : ∃ a ∈ (({ compilation := {} } : Session).walk mentioningFile).2.register,
      (a.1, a.2.name) = (.module "m", "tsplus_module_2") := by
    rw [← mem_map, hregister]
    exact mem_singleton_self _
  have hfree := (synthesized_names_apart { compilation := {} } mentioningFile).2.1 a ha
  rw [(Prod.mk.inj hname).2] at hfree
  exact ⟨hregister, .inl rfl, hfree⟩

end Session

end ExtensionLowering
