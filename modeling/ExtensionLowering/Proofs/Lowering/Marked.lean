import ExtensionLowering.Proofs.Import.Marking
import ExtensionLowering.Proofs.Lowering.Account
/-!
# Marked names

The names that the state of a lowering hands out have marks, if the imports of the file itself have
marks. So a name without one that is not synthetic stood in the source. What holds of all marked and
synthetic names is a tracking, and with it lowering keeps whatever holds of the names of the source.
-/
namespace ExtensionLowering

open List

namespace Lowering

/-- Every name that the state can hand out has a mark. -/
structure Marked (s : Lowering) : Prop where
  imports : ∀ id ∈ s.ledger.entries.map (·.ident), id.mark.isSome
  others : ∀ id ∈ s.others, id.mark.isSome

namespace Marked

variable {s t : Lowering}

theorem step (h : s.Marked)
    (hledger : t.ledger.entries.map (·.ident) ⊆ s.ledger.entries.map (·.ident))
    (hothers : t.others = s.others) : t.Marked :=
  ⟨fun id hid => h.imports id (hledger hid), hothers ▸ h.others⟩

theorem issued {id : Ident} {supply supply' : NameSupply} (h : supply.Issues id supply') :
    id.mark.isSome := by
  simp [h.mark]

theorem supplies (h : s.Marked) {id : Ident} (hid : Supplies s id t) :
    t.Marked ∧ id.mark.isSome := by
  have hothers := hid.forall_others h.others fun _ _ => issued
  exact ⟨⟨hid.ledger ▸ h.imports, hothers.1⟩, hothers.2⟩

theorem importAlias (h : s.Marked) (path : String) :
    ((Lower.importAlias path).run s).2.Marked ∧
      ((Lower.importAlias path).run s).1.mark.isSome := by
  have hget := s.ledger.get_entries s.names.supply path (forall_mem_map.1 h.imports)
    fun _ _ => issued
  exact ⟨⟨forall_mem_map.2 hget.1, h.others⟩, hget.2⟩

theorem retract (h : s.Marked) (env : Env) (dead : Expr) :
    ((Lower.retract env dead).run s).2.Marked := by
  obtain ⟨errors, hrun⟩ := Lower.retract_run env dead s
  rw [hrun]
  refine ⟨forall_mem_map.2 fun e he => ?_, h.others⟩
  obtain ⟨e', he', hident, -⟩ := s.ledger.retractAll_entries dead.idents e he
  exact hident ▸ h.imports _ (mem_map_of_mem he')

theorem insertPins (h : s.Marked) (pins : List Pin) (ss : List Stmt) :
    ((Lower.insertPins pins ss).run s).2.Marked := by
  have hsame : ((Lower.insertPins pins ss).run s).2.ledger = s.ledger ∧
      ((Lower.insertPins pins ss).run s).2.others = s.others := by
    rw [Lower.insertPins, Lower.placePins]
    dsimp only
    split <;> exact ⟨rfl, rfl⟩
  exact h.step (by rw [hsame.1]; exact List.Subset.refl _) hsame.2

end Marked

/-- What holds of all marked and synthetic names, and of those given, holds of all names that
lowering puts into a tree. -/
theorem marked_tracking {P : Ident → Prop} (hmarked : ∀ id, id.mark.isSome → P id)
    (hsynthetic : ∀ name, P (.synthetic name)) :
    Lower.Tracking (fun s ids t => s.Marked → t.Marked ∧ ∀ id ∈ ids, P id) P := by
  have hsupplies {s t : Lowering} {id : Ident} (hid : Supplies s id t) (hs : s.Marked) :
      t.Marked ∧ ∀ x ∈ [id], P x :=
    ⟨(hs.supplies hid).1, by simpa using hmarked id (hs.supplies hid).2⟩
  exact
    { synthetic := hsynthetic
      still := fun h hs => ⟨hs, h⟩
      trans := fun h h' hs =>
        have ht := h hs
        have hu := h' ht.1
        ⟨hu.1, forall_mem_append.2 ⟨ht.2, hu.2⟩⟩
      perm := fun h hab hs => ⟨(h hs).1, fun id hid => (h hs).2 id (hab.symm.subset hid)⟩
      fail := fun env d s _ hs => ⟨hs.step (List.Subset.refl _) rfl, by simp⟩
      giveUp := fun s hs => ⟨hs.step (List.Subset.refl _) rfl, by simp⟩
      importAlias := fun path s hs =>
        ⟨(hs.importAlias path).1, by simpa using hmarked _ (hs.importAlias path).2⟩
      exportAlias := fun name exported s => hsupplies (.exportAlias name exported s)
      derivationName := fun d s => hsupplies (.derivationName d s)
      traceVar := fun s => hsupplies (.traceVar s)
      pinName := fun d name s _ => hsupplies (.pinName d name s)
      reusePin := fun d id s hid => hsupplies (.reusePin hid)
      reuseDerivation := fun d id s hid => hsupplies (.reuseDerivation hid)
      retract := fun env dead h hs =>
        ⟨(h hs).1.retract env dead, fun id hid => (h hs).2 id (mem_append_left _ hid)⟩ }

end Lowering

theorem markImports_marked (n : Nat) (ss : List Stmt) :
    ∀ b ∈ (markImports n ss).filterMap Stmt.namespaceImport?, b.1.mark.isSome := by
  fun_induction markImports n ss with
  | case1 => simp
  | case2 n t binding default named module ss ih =>
    intro b hb
    obtain ⟨s, hs, himport⟩ := mem_filterMap.1 hb
    obtain rfl | hs := mem_cons.1 hs
    · cases module with
      | none => cases himport
      | some path =>
        cases himport
        rfl
    · exact ih b (mem_filterMap.2 ⟨s, hs, himport⟩)
  | case3 n s ss hspace ih =>
    intro b hb
    obtain ⟨s', hs, himport⟩ := mem_filterMap.1 hb
    obtain rfl | hs := mem_cons.1 hs
    · rw [Stmt.namespaceImport?_eq_none hspace] at himport
      cases himport
    · exact ih b (mem_filterMap.2 ⟨s', hs, himport⟩)

/-- A file with marked imports is begun in a state that hands out marked names only. -/
theorem Session.start_marked (session : Session) (f : File) :
    (session.start f.markImports).Marked where
  imports id hid := by
    obtain ⟨e, he, rfl⟩ := mem_map.1 hid
    exact markImports_marked 0 f.stmts _ (f.markImports.ledger_initial.permanent e he).2
  others id hid := by
    have hnone := session.start_synthesized f.markImports
    rw [Lowering.synthesized, append_eq_nil_iff] at hnone
    simp [hnone.2] at hid

end ExtensionLowering
