import ExtensionLowering.Proofs.Lowering.Outline
/-!
# Where marked identifiers come from

What lowering hands out has marks from `base` on. An identifier with a smaller mark that stands in a
lowered tree is therefore one that the file had, in its place or as the import that the ledger
reuses.
-/
namespace ExtensionLowering

open List

/-- If the identifier has a mark below `base`, it is one of `own`. -/
def Ident.OwnBelow (base : Nat) (own : List Ident) (id : Ident) : Prop :=
  ∀ m, id.mark = some m → m < base → id ∈ own

namespace Lowering

variable {base : Nat} {own : List Ident} {s t : Lowering}

/-- All identifiers that can be handed out again are the file's own or have marks from `base` on. -/
structure Owned (base : Nat) (own : List Ident) (s : Lowering) : Prop where
  issued : base ≤ s.names.supply.issued
  ledger : ∀ e ∈ s.ledger.entries, e.ident.OwnBelow base own
  others : ∀ id ∈ s.others, id.OwnBelow base own

theorem Owned.issues (hs : s.Owned base own) {id : Ident} {supply : NameSupply}
    (h : s.names.supply.Issues id supply) : id.OwnBelow base own := by
  intro m hm hlt
  have := hs.issued
  rw [h.mark, Option.some.injEq] at hm
  omega

theorem Owned.supplies (hs : s.Owned base own) {id : Ident} (h : Supplies s id t) :
    t.Owned base own ∧ id.OwnBelow base own := by
  have hothers := h.forall_others hs.others fun _ _ => hs.issues
  exact ⟨⟨Nat.le_trans hs.issued h.issued_le, h.ledger ▸ hs.ledger, hothers.1⟩, hothers.2⟩

theorem Owned.importAlias (hs : s.Owned base own) (path : String) :
    ((Lower.importAlias path).run s).2.Owned base own ∧
      ((Lower.importAlias path).run s).1.OwnBelow base own := by
  have hget := s.ledger.get_entries s.names.supply path hs.ledger fun _ _ => hs.issues
  exact ⟨⟨Nat.le_trans hs.issued (s.ledger.get_issued_le _ path), hget.1, hs.others⟩, hget.2⟩

/-- Lowering puts identifiers into a tree that are the file's own or have marks from `base` on. -/
theorem owned_tracking (base : Nat) (own : List Ident) :
    Lower.Tracking
      (fun s ids t => s.Owned base own → t.Owned base own ∧ ∀ id ∈ ids, id.OwnBelow base own)
      (Ident.OwnBelow base own) where
  synthetic name m hm := by cases hm
  still h hs := ⟨hs, h⟩
  trans h h' hs := by
    obtain ⟨ht, ha⟩ := h hs
    obtain ⟨hu, hb⟩ := h' ht
    exact ⟨hu, fun id hid => (mem_append.1 hid).elim (ha id) (hb id)⟩
  perm h hab hs := ⟨(h hs).1, fun id hid => (h hs).2 id (hab.symm.subset hid)⟩
  fail env d s _ hs := ⟨⟨hs.issued, hs.ledger, hs.others⟩, by simp⟩
  giveUp s hs := ⟨⟨hs.issued, hs.ledger, hs.others⟩, by simp⟩
  importAlias path s hs := by simpa using hs.importAlias path
  exportAlias name exported s hs := by simpa using hs.supplies (.exportAlias name exported s)
  derivationName d s hs := by simpa using hs.supplies (.derivationName d s)
  traceVar s hs := by simpa using hs.supplies (.traceVar s)
  pinName d name s _ hs := by simpa using hs.supplies (.pinName d name s)
  reusePin d id s hid hs := by simpa using hs.supplies (.reusePin hid)
  reuseDerivation d id s hid hs := by simpa using hs.supplies (.reuseDerivation hid)
  retract {s t ids} env dead h hs := by
    obtain ⟨ht, hids⟩ := h hs
    obtain ⟨errors, hrun⟩ := Lower.retract_run env dead t
    rw [hrun]
    refine ⟨⟨ht.issued, fun e he => ?_, ht.others⟩, fun id hid => hids id (mem_append_left _ hid)⟩
    obtain ⟨e', he', hident, -⟩ := t.ledger.retractAll_entries dead.idents e he
    exact hident ▸ ht.ledger e' he'

end Lowering

/-- Every identifier of the lowered statements whose mark is not a new one stands in the file. -/
theorem Session.walk_ownBelow (session : Session) (f : File) :
    ∀ id ∈ session.walkedIdents f, id.OwnBelow f.freeMark (Node.file f).idents := by
  have T := Lowering.owned_tracking f.freeMark (Node.file f).idents
  have hown : ∀ id ∈ (Node.file f).idents, id.OwnBelow f.freeMark (Node.file f).idents :=
    fun id hid _ _ _ => hid
  have hothers : (session.start f).others = [] :=
    (append_eq_nil_iff.1 (session.start_synthesized f)).2
  have hstart : (session.start f).Owned f.freeMark (Node.file f).idents := by
    refine ⟨Nat.le_refl _, fun e he => ?_, by simp [hothers]⟩
    obtain ⟨s, hs, himport⟩ := mem_filterMap.1 (f.ledger_initial.permanent e he).2
    exact hown e.ident (f.mem_idents hs (Stmt.namespaceImport?_mem himport))
  have hfile := T.file_carries (session.env f) (by simp [env, Env.TraceIs]) f hown
  exact (hfile [] _ _ (T.still (by simp)) hstart).2

/-- Pinned copies are registered and never forgotten. -/
theorem Lowering.pinned_tracking :
    Lower.Tracking (fun s _ t => ∃ new, t.pinned = new ++ s.pinned) fun _ => True where
  synthetic _ := trivial
  still _ := ⟨[], rfl⟩
  trans := by
    rintro s t u _ _ ⟨new, h⟩ ⟨new', h'⟩
    exact ⟨new' ++ new, by rw [h', h, append_assoc]⟩
  perm h _ := h
  fail _ _ _ _ := ⟨[], rfl⟩
  giveUp _ := ⟨[], rfl⟩
  importAlias _ _ := ⟨[], rfl⟩
  exportAlias _ _ _ := ⟨[], rfl⟩
  derivationName _ _ := ⟨[], rfl⟩
  traceVar s := by
    refine ⟨[], ?_⟩
    cases hv : s.traceVar <;>
      simp only [Lower.traceVar, StateT.run_bind, StateT.run_get, pure_bind, hv] <;> rfl
  pinName d base s _ := ⟨[(d, ((Lower.pinName d base).run s).1)], rfl⟩
  reusePin _ _ _ _ := ⟨[], rfl⟩
  reuseDerivation _ _ _ _ := ⟨[], rfl⟩
  retract {s t _} env dead h := by
    obtain ⟨errors, hrun⟩ := Lower.retract_run env dead t
    rw [hrun]
    exact h

theorem Pin.place_rest_subset (ps : List Pin) (ss : List Stmt) : (place ps ss).2 ⊆ ps := by
  induction ss generalizing ps with
  | nil => exact List.Subset.refl _
  | cons s ss ih =>
    exact List.Subset.trans (ih (after ps s).2) fun p hp =>
      (take_perm ps (constants s)).subset (mem_append_right _ hp)

namespace Session

variable (session : Session) (f : File)

/-- The pins of a file are registered copies, placed among its lowered statements. -/
theorem walk_pins : ∃ pins u,
    (session.walk f).1 = Pin.place pins ((Lower.stmts (session.env f) f.stmts).run u).1 ∧
      ∀ p ∈ pins, p.ident ∈ session.copies f := by
  let pins := (Lower.registerPins (session.env f) f.unique).run (session.start f)
  let ss := (Lower.stmts (session.env f) f.stmts).run pins.2
  obtain ⟨new, hpinned, hnew⟩ :=
    Lower.registerPins_pinned (session.env f) f.unique (session.start f)
  obtain ⟨more, hss⟩ : ∃ more, ss.2.pinned = more ++ pins.2.pinned :=
    Lowering.pinned_tracking.stmts_carries f.stmts ⟨fun _ _ => trivial, fun _ _ => trivial⟩ []
      pins.2 _ ⟨[], rfl⟩
  have hplaced : ((Lower.placePins pins.1 ss.1).run ss.2).1 = Pin.place pins.1 ss.1 ∧
      ((Lower.placePins pins.1 ss.1).run ss.2).2.pinned = ss.2.pinned := by
    rw [Lower.placePins]
    dsimp only
    split <;> exact ⟨rfl, rfl⟩
  refine ⟨pins.1, pins.2, hplaced.1, fun p hp => ?_⟩
  have hwalk : (session.walk f).2.pinned = ss.2.pinned := hplaced.2
  rw [copies, hwalk, hss, hpinned, map_append, map_append]
  exact mem_append_right _ (mem_append_left _ (hnew p hp))

theorem walk_left {p : Pin} (h : p ∈ (session.walk f).1.2) : p.ident ∈ session.copies f := by
  obtain ⟨pins, u, hwalk, hpins⟩ := session.walk_pins f
  exact hpins p (Pin.place_rest_subset _ _ (hwalk ▸ h))

theorem pinned_others {session : Session} {f : File} {id : Ident} (hid : id ∈ session.copies f) :
    id ∈ (session.walk f).2.others :=
  mem_append_left _ (mem_append_right _ hid)

/-- What the lowered statements declare is declared in the file or is a pinned copy. -/
theorem walk_declared {id : Ident} (h : some id ∈ session.declared f) :
    some id ∈ f.stmts.flatMap Aliases.declaredBy ∨ id ∈ session.copies f := by
  obtain ⟨pins, u, hwalk, hpins⟩ := session.walk_pins f
  rw [declared, hwalk] at h
  obtain h | ⟨p, hp, rfl⟩ := Pin.place_declaredBy h
  · exact .inl (Lower.stmts_declaredBy .. ▸ h)
  · exact .inr (hpins p hp)

end Session

end ExtensionLowering
