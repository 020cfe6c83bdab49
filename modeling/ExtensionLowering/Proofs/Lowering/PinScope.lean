import ExtensionLowering.Proofs.Import.Shadowing
/-!
# Where pinned copies are in scope

A declaration is copied once: by the first scope on the walk that lists it. Every derivation that
asks for the copy from then on refers to it, wherever it stands. So a reference to a copy is bound
exactly if the scope that holds the copy is around the request, or the file itself lists the
declaration; another scope that lists it gets no copy of its own.
-/
namespace ExtensionLowering

open List

/-! ## Requests for copies -/

/-- A scope around a request: the names of the file that it binds, and the declarations whose copies
stand in it. -/
structure Region where
  names : List String
  copies : List DeclId
  deriving Repr, DecidableEq

mutual

/-- The requests for copies that are registered by then, each with the regions around it, and what is
registered afterwards. The nearest listing registers the copies of `home`. -/
def Event.copyRequests (home registered : List DeclId) (around : List Region) :
    Event → List (DeclId × List Region) × List DeclId
  | .module _ => ([], registered)
  | .pin d => (if d ∈ registered then [(d, around)] else [], registered)
  | .listing unique inner =>
    let new := unique.filter (· ∉ registered)
    Event.allCopyRequests new (new ++ registered) around inner
  | .frame names held inner =>
    Event.allCopyRequests home registered (⟨names, held.filter (· ∈ home)⟩ :: around) inner

def Event.allCopyRequests (home registered : List DeclId) (around : List Region) :
    List Event → List (DeclId × List Region) × List DeclId
  | [] => ([], registered)
  | e :: es =>
    let first := Event.copyRequests home registered around e
    let rest := Event.allCopyRequests home first.2 around es
    (first.1 ++ rest.1, rest.2)

end

/-- The requests of a file. The copies that the file itself lists are registered first. -/
def File.copyRequests (env : Env) (f : File) : List (DeclId × List Region) :=
  (Event.allCopyRequests [] f.unique [] (f.events env)).1

theorem File.markImports_copyRequests (env : Env) (f : File) :
    f.markImports.copyRequests env = f.copyRequests env := by
  rw [copyRequests, f.markImports_events]
  rfl

theorem Event.allCopyRequests_append (home registered : List DeclId) (around : List Region)
    (es es' : List Event) :
    Event.allCopyRequests home registered around (es ++ es') =
      let first := Event.allCopyRequests home registered around es
      let rest := Event.allCopyRequests home first.2 around es'
      (first.1 ++ rest.1, rest.2) := by
  induction es generalizing registered with
  | nil => simp [Event.allCopyRequests]
  | cons e es ih => simp [Event.allCopyRequests, ih]

theorem Event.allCopyRequests_singleton (home registered : List DeclId) (around : List Region)
    (e : Event) :
    Event.allCopyRequests home registered around [e] =
      Event.copyRequests home registered around e := by
  simp [Event.allCopyRequests]

/-- The declarations that some copies are copies of. -/
def CopiesOf (o : List (DeclId × Ident)) (ds : List DeclId) : Prop :=
  ∀ d, d ∈ ds ↔ ∃ id, (d, id) ∈ o

theorem CopiesOf.nil : CopiesOf [] [] := by
  simp [CopiesOf]

theorem lookup_eq_none_of_copiesOf {o : List (DeclId × Ident)} {ds : List DeclId}
    (h : CopiesOf o ds) {d : DeclId} : o.lookup d = none ↔ d ∉ ds := by
  rw [h d, lookup_eq_none_iff]
  simp only [Prod.forall, not_exists]
  grind

/-- The scopes of a tree bind what the regions around a request bind: names of the file and copies.
Besides these they bind `fresh` names. -/
structure Region.Agree (own fresh : List String) (copies : List (DeclId × Ident)) (tree : Scopes)
    (around : List Region) : Prop where
  own : ∀ r ∈ around, r.names ⊆ own
  names : ∀ r ∈ around, ∀ x ∈ r.names, x ∈ tree.flatten
  held : ∀ r ∈ around, ∀ d ∈ r.copies, ∃ id, (d, id) ∈ copies ∧ id.name ∈ tree.flatten
  only : ∀ x ∈ tree.flatten,
    (∃ r ∈ around, x ∈ r.names ∨ ∃ d ∈ r.copies, ∃ id, (d, id) ∈ copies ∧ id.name = x) ∨ x ∈ fresh

theorem Region.Agree.nil (own fresh : List String) (copies : List (DeclId × Ident)) :
    Region.Agree own fresh copies [] [] :=
  ⟨by simp, by simp, by simp, by simp⟩

namespace Lowering

variable {own fresh : List String} {o copies : List (DeclId × Ident)} {s t : Lowering}
  {E : List Event} {p : View} {home registered : List DeclId}
variable {around : List Region}

/-- A listing registers copies of what it lists and is not copied yet. -/
theorem Registers.copiesOf {unique : List DeclId} {new : List (DeclId × Ident)}
    (h : s.Registers unique new t) (hreg : CopiesOf s.pinned registered) :
    CopiesOf new (unique.filter (· ∉ registered)) ∧
      CopiesOf t.pinned (unique.filter (· ∉ registered) ++ registered) := by
  have hnew : CopiesOf new (unique.filter (· ∉ registered)) := by
    intro d
    simp only [mem_filter, decide_eq_true_eq, ← lookup_eq_none_of_copiesOf hreg]
    exact ⟨fun hd => h.registered d hd.1 hd.2, fun ⟨id, hid⟩ => h.listed d id hid⟩
  refine ⟨hnew, fun d => ?_⟩
  rw [h.pinned, mem_append, hnew d, hreg d]
  simp only [mem_append, exists_or]

/-- The requests tell what is registered. -/
theorem Lays.copiesOf (h : Lays own o s E p t) (hreg : CopiesOf s.pinned registered)
    (around : List Region) :
    CopiesOf t.pinned (Event.allCopyRequests home registered around E).2 := by
  induction h generalizing home registered around with
  | append _ _ ih ih' =>
    rw [Event.allCopyRequests_append]
    exact ih' (ih hreg around) around
  | within _ _ ih => exact ih hreg around
  | quiet h => exact h.pinned ▸ hreg
  | named | module | pin => exact hreg
  | unanswered e h => obtain ⟨path, rfl⟩ | ⟨d, rfl⟩ := h <;> exact hreg
  | frame _ _ _ _ ih =>
    rw [Event.allCopyRequests_singleton]
    exact ih hreg _
  | listing hnew _ ih =>
    rw [Event.allCopyRequests_singleton]
    exact ih (hnew.copiesOf hreg).2 around

/-- A declaration is copied once. -/
theorem Lays.pinned_nodup (h : Lays own o s E p t) (hs : (s.pinned.map (·.1)).Nodup) :
    (t.pinned.map (·.1)).Nodup := by
  induction h with
  | append _ _ ih ih' => exact ih' (ih hs)
  | within _ _ ih | frame _ _ _ _ ih => exact ih hs
  | quiet h => exact h.pinned ▸ hs
  | named | module | pin | unanswered => exact hs
  | listing hnew _ ih =>
    refine ih ?_
    rw [hnew.pinned, map_append]
    refine nodup_append'.2 ⟨hnew.distinct, hs, fun d hd hd' => ?_⟩
    obtain ⟨⟨d, id⟩, hid, rfl⟩ := mem_map.1 hd
    obtain ⟨⟨d', id'⟩, hid', rfl⟩ := mem_map.1 hd'
    simpa using lookup_eq_none_iff.1 (hnew.listed d' id hid).2 _ hid'

/-- The scopes that a frame becomes bind its names and the copies of `home` that it holds. -/
theorem agree_frame {names : List String} {held : List DeclId} {frames : Scopes}
    (hown : names ⊆ own) (hnames : ∀ x, x ∈ frames.flatten ↔
      x ∈ names ∨ ∃ d id, (d, id) ∈ o ∧ d ∈ held ∧ id.name = x)
    (hhome : CopiesOf o home) (ho : o ⊆ copies) {tree : Scopes}
    (h : Region.Agree own fresh copies tree around) :
    Region.Agree own fresh copies (frames ++ tree) (⟨names, held.filter (· ∈ home)⟩ :: around) where
  own := forall_mem_cons.2 ⟨hown, h.own⟩
  names := by
    simp only [flatten_append, mem_append, hnames, forall_mem_cons]
    exact ⟨fun x hx => .inl (.inl hx), fun r hr x hx => .inr (h.names r hr x hx)⟩
  held := by
    simp only [flatten_append, mem_append, hnames, forall_mem_cons]
    refine ⟨fun d hd => ?_, fun r hr d hd => ?_⟩
    · obtain ⟨hd, hmem⟩ : d ∈ held ∧ d ∈ home := by simpa using hd
      obtain ⟨id, hid⟩ := (hhome d).1 hmem
      exact ⟨id, ho hid, .inl (.inr ⟨d, id, hid, hd, rfl⟩)⟩
    · obtain ⟨id, hid, hmem⟩ := h.held r hr d hd
      exact ⟨id, hid, .inr hmem⟩
  only := by
    intro x hx
    rw [flatten_append, mem_append, hnames] at hx
    obtain (hx | ⟨d, id, hid, hd, rfl⟩) | hx := hx
    · exact .inl ⟨_, mem_cons_self, .inl hx⟩
    · refine .inl ⟨_, mem_cons_self, .inr ⟨d, ?_, id, ho hid, rfl⟩⟩
      simpa using ⟨hd, (hhome d).2 ⟨id, hid⟩⟩
    · obtain ⟨r, hr, hx⟩ | hx := h.only x hx
      · exact .inl ⟨r, mem_cons_of_mem _ hr, hx⟩
      · exact .inr hx

/-- A marked reference that is laid answers a request for a copy, within scopes that agree with the
regions around the request, or it refers to something else. -/
theorem Lays.copy_asked (h : Lays own o s E p t) (hpaths : (s.ledger.entries.map (·.path)).Nodup)
    (hhome : CopiesOf o home) (hreg : CopiesOf s.pinned registered) (ho : o ⊆ copies)
    (hcopies : t.pinned ⊆ copies) (hfresh : ∀ id ∈ t.derived, id.name ∈ fresh) {tree : Scopes}
    (hagree : Region.Agree own fresh copies tree around) {q : Spot} (hq : p tree q)
    (href : q.IsReference) :
    q.ident ∈ t.unpinned ∨ (∃ path, t.ledger.Knows path q.ident) ∨
      ∃ d regions, (d, regions) ∈ (Event.allCopyRequests home registered around E).1 ∧
        (d, q.ident) ∈ copies ∧ Region.Agree own fresh copies q.scopes regions := by
  induction h generalizing home registered tree around with
  | append h h' ih ih' =>
    obtain ⟨hpaths', -⟩ := h.ledger_grows hpaths
    obtain ⟨more, hmore⟩ := h'.pinned_append
    rw [Event.allCopyRequests_append]
    simp only [mem_append]
    obtain hq | hq := hq
    · obtain hid | ⟨path, hknows⟩ | ⟨d, regions, hmem, hasked⟩ :=
        ih hpaths hhome hreg ho (fun c hc => hcopies (hmore ▸ mem_append_right _ hc))
          (fun id hid => hfresh id (h'.derived_subset hid)) hagree hq
      · exact .inl (h'.unpinned_subset hid)
      · exact .inr (.inl ⟨path, (h'.ledger_grows hpaths').2 _ _ hknows⟩)
      · exact .inr (.inr ⟨d, regions, .inl hmem, hasked⟩)
    · obtain hid | hknows | ⟨d, regions, hmem, hasked⟩ :=
        ih' hpaths' hhome (h.copiesOf hreg around) ho hcopies hfresh hagree hq
      · exact .inl hid
      · exact .inr (.inl hknows)
      · exact .inr (.inr ⟨d, regions, .inr hmem, hasked⟩)
  | within h hp ih =>
    obtain ⟨frames, hnames, hq⟩ | ⟨hrole, -⟩ := hp tree q hq
    · refine ih hpaths hhome hreg ho hcopies hfresh ⟨hagree.own, ?_, ?_, fun x hx => ?_⟩ hq
      · simp only [flatten_append, mem_append]
        exact fun r hr x hx => .inr (hagree.names r hr x hx)
      · simp only [flatten_append, mem_append]
        exact fun r hr d hd => (hagree.held r hr d hd).imp fun id hid => hid.imp_right .inr
      · rw [flatten_append, mem_append] at hx
        obtain hx | hx := hx
        · obtain ⟨id, hid, rfl⟩ := hnames x hx
          exact .inr (hfresh id hid)
        · exact hagree.only x hx
    · simp [Spot.IsReference, hrole] at href
  | quiet | unanswered => exact hq.elim
  | named h =>
    obtain rfl := hq
    exact .inl h
  | module h =>
    obtain rfl := hq
    exact .inr (.inl ⟨_, h⟩)
  | @pin _ _ d id h =>
    obtain rfl := hq
    have hmem := mem_of_lookup h
    have hd : d ∈ registered := (hreg d).2 ⟨id, hmem⟩
    exact .inr (.inr ⟨d, around, by simp [Event.allCopyRequests, Event.copyRequests, hd],
      hcopies hmem, hagree⟩)
  | frame h frames hown hnames ih =>
    rw [Event.allCopyRequests_singleton]
    obtain hq | ⟨hrole, -⟩ := hq
    · exact ih hpaths hhome hreg ho hcopies hfresh (agree_frame hown hnames hhome ho hagree) hq
    · simp [Spot.IsReference, hrole] at href
  | listing hnew h ih =>
    obtain ⟨more, hmore⟩ := h.pinned_append
    obtain ⟨hhome', hreg'⟩ := hnew.copiesOf hreg
    rw [Event.allCopyRequests_singleton]
    refine ih (hnew.ledger ▸ hpaths) hhome' hreg' (fun c hc => hcopies ?_) hcopies hfresh hagree hq
    rw [hmore, hnew.pinned]
    exact mem_append_right _ (mem_append_left _ hc)

end Lowering

/-! ## Copies at the top level -/

theorem Pin.stmt_mem_place {ps : List Pin} {ss : List Stmt} {p : Pin} (hp : p ∈ ps) :
    p.stmt ∈ (place ps ss).1 ∨ p ∈ (place ps ss).2 := by
  induction ss generalizing ps with
  | nil => exact .inr hp
  | cons s ss ih =>
    have hsplit : p ∈ (after ps s).1 ∨ p ∈ (after ps s).2 :=
      mem_append.1 ((take_perm ps (constants s)).mem_iff.2 hp)
    rw [place_cons]
    obtain hp | hp := hsplit
    · exact .inl (mem_cons_of_mem _ (mem_append_left _ (mem_map_of_mem hp)))
    · exact (ih hp).imp_left fun h => mem_cons_of_mem _ (mem_append_right _ h)

namespace Aliases

variable {as : Aliases}

/-- Moving a declaration changes no name of a `var` inside a block. -/
theorem mem_hoisted_moveStmt {s : Stmt} {x : String} (h : x ∈ Stmt.allHoisted (as.moveStmt s)) :
    x ∈ s.hoisted ∨ ∃ b ∈ as.renames [s], b.2.name = x := by
  have hF (t : Token) (x : Bool) (k : VarKind) (ds : List Declarator) :
      (Stmt.varDecl t x k ds).hoisted = ds.flatMap fun d => (Stmt.varDecl t x k [d]).hoisted := by
    cases k with
    | var =>
      simp only [Stmt.hoisted, namesOf, map_singleton]
      rw [← map_flatMap, ← filterMap_flatMap, ← map_eq_flatMap]
    | _ => simp [Stmt.hoisted]
  rw [Stmt.allHoisted_eq_flatMap] at h
  obtain h | ⟨part, hpart, b, hm, h⟩ := mem_flatMap_moveStmt hF h
  · exact .inl h
  refine .inr ⟨b, mem_renames_of_part hpart hm, ?_⟩
  have hsequel : (part.sequel b.1 b.2).flatMap Stmt.hoisted = [] := by
    rw [Stmt.sequel]
    cases part.isClass <;> cases part.isExported <;> cases part.isFixed <;> rfl
  rw [hsequel, or_iff_left not_mem_nil] at h
  cases part with
  | funcDecl | classDecl => cases h
  | varDecl t exported k ds =>
    obtain ⟨⟨⟩, rfl⟩ := Stmt.exists_declarator (Stmt.singles_of_mem hpart)
    cases k with
    | var => exact (mem_singleton.1 h).symm
    | _ => cases h
  | _ => cases hm

end Aliases

/-- Some declaration binds the name: in a scope around the reference or at the top level. -/
def Spot.IsBound (q : Spot) (ss : List Stmt) : Prop :=
  q.scopes.resolve q.ident.name ≠ none ∨ q.ident.name ∈ declaredNames ss

namespace Session

variable {session : Session} {f out : File}

/-- What the walked statements declare, the output declares under its new name. -/
theorem newName_declared (hf : f.Marked) (h : session.Lowers f out)
    {id : Ident} (hid : some id ∈ session.declared f) :
    (session.moves f).newName id.name ∈ declaredNames out.stmts := by
  have hmem {e : TopDecl} {i : Ident}
      (he : e ∈ ((session.walk f).1.1.flatMap Stmt.declares).flatMap
        ((session.aliases f).moveDecl)) (hi : e.name = some i) :
      (session.shown f i).name ∈ declaredNames out.stmts := by
    rw [mem_declaredNames, lower_declares h]
    exact ⟨_, mem_append_right _ (mem_map_of_mem (mem_append_right _ he)), _,
      by simp [TopDecl.map, hi], rfl⟩
  have hdeclared := hid
  rw [Session.declared, flatMap_declaredBy] at hdeclared
  obtain ⟨d, hd, hname⟩ := mem_map.1 hdeclared
  cases hm : (session.aliases f).moved? d.name with
  | none =>
    have hnone : (session.moves f).lookup id.name = none :=
      Aliases.lookup_renames_of_none (by simpa [Aliases.moved?, hname] using hm)
    have hmem := hmem (mem_flatMap.2 ⟨d, hd, by simp [Aliases.moveDecl, hm]⟩) hname
    rw [shown_declared hf hid hnone] at hmem
    simpa [Renaming.newName, hnone] using hmem
  | some b =>
    have hb : b ∈ session.moves f := mem_filterMap.2 ⟨some id, hid, hname ▸ hm⟩
    have horig : b.1 = id.name := by
      obtain ⟨i, -, hi, horig, -⟩ := Aliases.moved?_eq_some hm
      rw [← horig, Option.some.inj (hi.symm.trans hname)]
    have hmem := hmem (mem_flatMap.2 ⟨d, hd, by simp [Aliases.moveDecl, hm]; exact .inl rfl⟩) rfl
    rwa [shown_taken hb, ← newName_of_mem hb, horig] at hmem

namespace Walks

variable {new : List (DeclId × Ident)} {pins : List Pin} {ss : List Stmt} {s : Lowering} {p : View}
  (hw : session.Walks f new pins ss s p)
variable {d : DeclId} {id : Ident}
include hw

/-- The copies that the file lists are declared in the output. -/
theorem pin_declared (hf : f.Marked) (h : session.Lowers f out) {pin : Pin} (hpin : pin ∈ pins) :
    (session.moves f).newName pin.ident.name ∈ declaredNames out.stmts := by
  by_cases hleft : pin ∈ (session.walk f).1.2
  · have hnone : (session.moves f).lookup pin.ident.name = none :=
      hw.lookup_moves (pinned_others (hw.pin_pinned hpin)) fun pin' hpin' hplaced heq =>
        hplaced (hw.eq_of_pin_ident hpin' hpin heq ▸ hleft)
    have hshown : (session.shown f pin.ident).name = pin.ident.name := by
      obtain hname | ⟨b, hb, -⟩ := shown_left hf hleft
      · exact hname
      · exact absurd (hnone.symm.trans (Aliases.lookup_renames hb)) (by simp)
    rw [mem_declaredNames, lower_declares h]
    refine ⟨_, mem_append_right _ (mem_map_of_mem (mem_append_left _
      (mem_flatMap.2 ⟨_, mem_map_of_mem hleft, pin.declares_stmt ▸
        mem_singleton_self _⟩))), session.shown f pin.ident, rfl, ?_⟩
    simpa [Renaming.newName, hnone] using hshown
  · have hstmt : pin.stmt ∈ (session.walk f).1.1 := by
      rw [hw.placed] at hleft ⊢
      exact (Pin.stmt_mem_place hpin).resolve_right hleft
    exact newName_declared hf h (mem_flatMap.2 ⟨_, hstmt, mem_singleton_self _⟩)

/-- A `var` of the moved statements has a name of the file or an alias. -/
theorem hoisted_movedStmts (hf : f.Marked) {x : String}
    (hx : x ∈ Stmt.allHoisted (session.movedStmts f)) :
    x ∈ f.names ∨ ∃ b ∈ session.moves f, b.2.name = x := by
  have hmoved : Stmt.allHoisted (session.movedStmts f) =
      Stmt.allHoisted ((session.aliases f).moveAll
        (session.walk f).1.1) := by
    rw [movedStmts, relabel]
    split
    · rw [Stmt.allHoisted_append, Pin.hoisted_stmts, nil_append]
    · refine (Stmt.allHoisted_mapAll _ _ [] fun q hq hrole => ?_).trans ?_
      · exact congrArg Ident.name (hw.settled hf hq hrole).1
      · rw [Stmt.allHoisted_append, Pin.hoisted_stmts, nil_append]
  rw [hmoved, Stmt.allHoisted_eq_flatMap, Aliases.moveAll, flatMap_assoc] at hx
  obtain ⟨s, hs, hx⟩ := mem_flatMap.1 hx
  rw [← Stmt.allHoisted_eq_flatMap] at hx
  obtain hx | ⟨b, hb, rfl⟩ := Aliases.mem_hoisted_moveStmt hx
  · have hfile : x ∈ Stmt.allHoisted f.stmts := by
      rw [← hw.hoists, ← Pin.allHoisted_place pins, ← hw.placed, Stmt.allHoisted_eq_flatMap]
      exact mem_flatMap.2 ⟨s, hs, hx⟩
    obtain ⟨id, hid, rfl⟩ := Stmt.allHoisted_idents x f.stmts hfile
    rw [File.names, Node.idents_file]
    exact .inl (mem_map_of_mem hid)
  · obtain ⟨name, hname, hb⟩ := mem_filterMap.1 hb
    exact .inr ⟨b, mem_filterMap.2 ⟨name, mem_flatMap.2 ⟨s, hs, by simpa using hname⟩, hb⟩,
      rfl⟩

theorem copy_not_hoisted (hf : f.Marked) (hid : id ∈ session.copies f) :
    id.name ∉ Stmt.allHoisted (session.movedStmts f) := by
  intro hmem
  have hsynth := others_synthesized (pinned_others hid)
  obtain hfile | ⟨b, hb, hname⟩ := hw.hoisted_movedStmts hf hmem
  · exact name_ne_of_synthesized hfile hsynth rfl
  · obtain ⟨a, ha, hident⟩ := mem_moves hb
    have heq := eq_of_synthesized_name (moves_synthesized hb) hsynth hname
    exact pinned_ne_alias hid ha (by rw [hident, heq])

theorem copiesOf : CopiesOf s.pinned f.unique := by
  rw [hw.pinned_eq]
  exact fun d => ⟨fun hd => hw.registers.registered d hd rfl,
    fun ⟨id, hid⟩ => (hw.registers.listed d id hid).1⟩

theorem eq_of_copy {id' : Ident} (hid : (d, id) ∈ (session.walk f).2.pinned)
    (hid' : (d, id') ∈ (session.walk f).2.pinned) : id = id' := by
  have hkeys := hw.lays.pinned_nodup (hw.pinned_eq ▸ hw.registers.distinct)
  exact (Prod.mk.inj (inj_on_of_nodup_map hkeys hid hid' rfl)).2

/-- The copies at the top level are those of what the file lists. -/
theorem pin_of_copy_iff (hid : (d, id) ∈ (session.walk f).2.pinned) :
    (∃ pin ∈ pins, pin.ident = id) ↔ d ∈ f.unique := by
  obtain ⟨more, hmore⟩ := hw.lays.pinned_append
  have hsub {c : DeclId × Ident} (hc : c ∈ new) : c ∈ (session.walk f).2.pinned := by
    rw [hmore, hw.pinned_eq]
    exact mem_append_right _ hc
  constructor
  · rintro ⟨pin, hpin, rfl⟩
    obtain ⟨d', id', hid', hd', rfl⟩ := (hw.copies pin).1 hpin
    have heq := inj_on_of_nodup_map (session.pinned_nodup f) hid (hsub hid') rfl
    exact (Prod.mk.inj heq).1 ▸ hd'
  · intro hd
    obtain ⟨id', hid'⟩ := hw.registers.registered d hd rfl
    obtain rfl := hw.eq_of_copy (hsub hid') hid
    exact ⟨_, (hw.copies _).2 ⟨d, id', hid', hd, rfl⟩, rfl⟩

/-- A reference to a copy answers a request. A scope around it binds the name of the copy exactly if
a region around the request holds the copy. -/
theorem copy_reference (hid : (d, id) ∈ (session.walk f).2.pinned) {q : Spot}
    (hq : q ∈ Stmt.allSpots [] ss) (href : q.IsReference) (hmark : q.ident.mark = id.mark) :
    q.ident = id ∧ ∃ around, (d, around) ∈ f.copyRequests (session.env f) ∧
      (∀ r ∈ around, ∀ x ∈ r.names, x ∈ q.scopes.flatten) ∧
      (id.name ∈ q.scopes.flatten ↔ ∃ r ∈ around, d ∈ r.copies) := by
  have hpinned : id ∈ session.copies f := mem_map_of_mem hid
  have hsynth := others_synthesized (pinned_others hpinned)
  obtain ⟨m, hm, -⟩ := (session.walk_accounts f).sound.marked id hsynth
  have hins : q.isInserted := by
    obtain hrole | hrole := href <;> simp [Spot.isInserted, hrole, hmark, hm]
  have hpaths : (s.ledger.entries.map (·.path)).Nodup :=
    hw.registers.ledger ▸ f.ledger_initial.paths
  obtain hothers | ⟨path, hknows⟩ | ⟨d', around, hasked, hcopy, hagree⟩ :=
    hw.lays.copy_asked hpaths CopiesOf.nil hw.copiesOf (nil_subset _)
      (List.Subset.refl _) (fun id hid => mem_map_of_mem hid) (Region.Agree.nil ..)
      (hw.shows [] q hq hins) href
  · have heq := eq_of_synthesized_mark (others_synthesized (Lowering.mem_others.2 (.inl hothers)))
      hsynth hmark
    exact absurd heq (unpinned_ne_pinned hothers hpinned)
  · exact absurd hmark (knows_ne_others hknows (pinned_others hpinned)).1
  · have hcopied : q.ident ∈ session.copies f :=
      mem_map_of_mem hcopy
    obtain rfl := eq_of_synthesized_mark (others_synthesized (pinned_others hcopied)) hsynth hmark
    have hidents := session.pinned_nodup f
    obtain ⟨rfl, -⟩ := Prod.mk.inj (inj_on_of_nodup_map hidents hcopy hid rfl)
    refine ⟨rfl, around, hasked, hagree.names, fun hmem => ?_, fun ⟨r, hr, hd⟩ => ?_⟩
    · obtain ⟨r, hr, hown | ⟨d, hd, id, hid, hname⟩⟩ | hfresh := hagree.only _ hmem
      · exact absurd rfl (name_ne_of_synthesized (hagree.own r hr hown) hsynth)
      · obtain rfl := eq_of_synthesized_name (others_synthesized (pinned_others
          (mem_map_of_mem hid))) hsynth hname
        obtain ⟨rfl, -⟩ := Prod.mk.inj (inj_on_of_nodup_map hidents hid hcopy rfl)
        exact ⟨r, hr, hd⟩
      · obtain ⟨id, hid, hname⟩ := mem_map.1 hfresh
        have hunpinned := Lowering.derived_subset_unpinned _ hid
        have heq := eq_of_synthesized_name
          (others_synthesized (Lowering.mem_others.2 (.inl hunpinned))) hsynth hname
        exact absurd heq (unpinned_ne_pinned hunpinned hpinned)
    · obtain ⟨id, hid, hmem⟩ := hagree.held r hr _ hd
      obtain rfl := hw.eq_of_copy hid hcopy
      exact hmem

end Walks

/-- Every reference of the output to a pinned copy answers a request, within scopes that bind what
the regions around the request bind. Its name is bound exactly if one of these regions holds the
copy or the file itself lists the declaration. Nothing in the file has the name of a copy. -/
theorem copy_reference_bound_iff (session : Session) (f out : File) (hf : f.Unshared)
    (h : (session.lower f.markImports).1 = .lowered out) :
    ∀ d id, (d, id) ∈ (session.walk f.markImports).2.pinned → ¬ f.Mentions id.name ∧
      ∀ q ∈ Stmt.allSpots [] out.stmts, q.IsReference → q.ident.mark = id.mark →
        ∃ around, (d, around) ∈ f.copyRequests (session.env f) ∧
          (∀ r ∈ around, ∀ x ∈ r.names, q.scopes.resolve x ≠ none) ∧
          (q.IsBound out.stmts ↔ d ∈ f.unique ∨ ∃ r ∈ around, d ∈ r.copies) := by
  replace hf := hf.marked
  simp only [f.mentions_iff, ← f.markImports_names, ← f.markImports_copyRequests,
    ← session.env_markImports f, show f.unique = f.markImports.unique from rfl]
  generalize f.markImports = f at hf h ⊢
  intro d id hid
  have hpinned : id ∈ session.copies f := List.mem_map_of_mem hid
  have hsynth := others_synthesized (pinned_others hpinned)
  refine ⟨fun hmem => name_ne_of_synthesized hmem hsynth rfl, ?_⟩
  intro q hq href hmark
  obtain ⟨m, hm, -⟩ := (session.walk_accounts f).sound.marked id hsynth
  obtain ⟨new, pins, ss, s, p, hw⟩ := session.walk_laid hf
  obtain ⟨q', hq', href', hscopes, hm', hname⟩ := hw.lower_reference hf h hq href (hmark.trans hm)
    fun a ha heq => pinned_ne_alias hpinned ha (hmark.symm.trans heq)
  obtain ⟨rfl, around, hasked, hnames, hbound⟩ :=
    hw.copy_reference hid hq' href' (hm'.trans hm.symm)
  rw [hscopes] at hnames hbound hname
  refine ⟨around, hasked, fun r hr x hx => ?_, ?_⟩
  · rw [Ne, Scopes.resolve_eq_none, not_not]
    exact hnames r hr x hx
  rw [Spot.IsBound, Ne, Scopes.resolve_eq_none, not_not]
  by_cases hd : d ∈ f.unique
  · refine iff_of_true ?_ (.inl hd)
    obtain ⟨pin, hpin, hident⟩ := (hw.pin_of_copy_iff hid).2 hd
    have hdeclared := hw.pin_declared hf h hpin
    rw [hident, Renaming.newName] at hdeclared
    obtain ⟨hsame, hnone | hscope | hvar⟩ | ⟨b, hb, hname⟩ := hname
    · rw [hnone] at hdeclared
      exact .inr (hsame ▸ hdeclared)
    · exact .inl (hsame ▸ hscope)
    · exact absurd hvar (hw.copy_not_hoisted hf hpinned)
    · rw [hb] at hdeclared
      exact .inr (hname ▸ hdeclared)
  · have hne : ∀ pin ∈ pins, pin.ident ≠ q'.ident := fun pin hpin heq =>
      hd ((hw.pin_of_copy_iff hid).1 ⟨pin, hpin, heq⟩)
    have hnone := hw.lookup_moves (pinned_others hpinned) fun pin hpin _ => hne pin hpin
    obtain ⟨hsame, -⟩ | ⟨b, hb, -⟩ := hname
    · have hundeclared : q'.ident.name ∉ declaredNames out.stmts := by
        intro hdeclared
        obtain hfile | ⟨pin, hpin, heq⟩ | ⟨id, hother, heq⟩ := hw.declaredNames_lower hf h hdeclared
        · exact name_ne_of_synthesized hfile hsynth rfl
        · exact hne pin hpin (eq_of_synthesized_name
            (others_synthesized (pinned_others (hw.pin_pinned hpin))) hsynth heq)
        · exact unpinned_ne_pinned hother hpinned (eq_of_synthesized_name
            (others_synthesized (Lowering.mem_others.2 (.inl hother))) hsynth heq)
      rw [hsame, or_iff_left hundeclared, or_iff_right hd]
      exact hbound
    · exact absurd (hnone.symm.trans hb) (by simp)

/-- A session in which a derived value is a copy of the variable `ord`. -/
def ordSession : Session :=
  { compilation :=
      { declarations := #[{ name := "ord", file := "src/main.ts", kind := .variable }]
        derivations := #[.blockScope (some 0)] } }

/-- `const ord = mk` and some blocks, each of which lists `ord`. -/
def ordFile (blocks : List (List Stmt)) : File :=
  { name := "src/main.ts"
    stmts := .varDecl {} false .const [.mk {} (some { name := "ord" }) .missing
      (.ident { name := "mk" })] :: blocks.map fun ss => .block (.mk {} [0] ss) }

/-- `sort(arg)` -/
def sortStmt (arg : Expr) : Stmt :=
  .expr {} ((Expr.ident { name := "sort" }).apply [arg])

/-- `sort(Derive())` -/
def sortDerived : Stmt :=
  sortStmt (.call {} { intrinsic := some .derive, derivation := some 0 }
    (.ident { name := "Derive" }) [] [])

def ordCopy : Ident :=
  { Ident.synthetic "ord_1" with mark := some 0 }

/-- `const ord_1 = ord` -/
def ordPin : Stmt :=
  Pin.stmt { name := "ord", line := 0, ident := ordCopy }

/-- A single block that lists the declaration holds its copy. -/
theorem copy_reference_bound_iff_single :
    (ordSession.lower (ordFile [[sortDerived]]).markImports).1 =
        .lowered (ordFile [[ordPin, sortStmt (.ofIdent ordCopy)]]) ∧
      ⟨ordCopy, .reference, [["ord_1"]]⟩ ∈
        Stmt.allSpots [] (ordFile [[ordPin, sortStmt (.ofIdent ordCopy)]]).stmts ∧
      Spot.IsBound ⟨ordCopy, .reference, [["ord_1"]]⟩
        (ordFile [[ordPin, sortStmt (.ofIdent ordCopy)]]).stmts := by
  have hout : (ordSession.lower (ordFile [[sortDerived]]).markImports).1 =
      .lowered (ordFile [[ordPin, sortStmt (.ofIdent ordCopy)]]) := by
    rfl
  have hmem : ⟨ordCopy, .reference, [["ord_1"]]⟩ ∈
      Stmt.allSpots [] (ordFile [[ordPin, sortStmt (.ofIdent ordCopy)]]).stmts := by
    decide +kernel
  have hrequests : (ordFile [[sortDerived]]).copyRequests (ordSession.env (ordFile [[sortDerived]])) =
      [(0, [⟨[], [0]⟩])] := by
    decide +kernel
  obtain ⟨around, hasked, -, hiff⟩ := (copy_reference_bound_iff ordSession (ordFile [[sortDerived]])
    _ (by decide +kernel) hout 0 ordCopy (by decide +kernel)).2 _ hmem (.inl rfl) rfl
  rw [hrequests, List.mem_singleton] at hasked
  obtain ⟨-, rfl⟩ := Prod.mk.inj hasked
  exact ⟨hout, hmem, hiff.2 (by decide)⟩

/-- Of two blocks that list the declaration only the first holds a copy, and the other refers to
it. -/
theorem sibling_copy_unbound :
    (ordSession.lower (ordFile [[sortDerived], [sortDerived]]).markImports).1 = .lowered
        (ordFile [[ordPin, sortStmt (.ofIdent ordCopy)], [sortStmt (.ofIdent ordCopy)]]) ∧
      (ordSession.walk (ordFile [[sortDerived], [sortDerived]]).markImports).2.pinned =
        [(0, ordCopy)] ∧
      ⟨ordCopy, .reference, [[]]⟩ ∈ Stmt.allSpots []
        (ordFile [[ordPin, sortStmt (.ofIdent ordCopy)], [sortStmt (.ofIdent ordCopy)]]).stmts ∧
      ¬ Spot.IsBound ⟨ordCopy, .reference, [[]]⟩
        (ordFile [[ordPin, sortStmt (.ofIdent ordCopy)], [sortStmt (.ofIdent ordCopy)]]).stmts := by
  refine ⟨by rfl, by decide +kernel, by decide +kernel, fun h => ?_⟩
  exact absurd h (by rw [Spot.IsBound]; decide +kernel)

end Session

end ExtensionLowering
