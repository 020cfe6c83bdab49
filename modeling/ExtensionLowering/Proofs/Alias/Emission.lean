import ExtensionLowering.Proofs.Alias.ExportList
import ExtensionLowering.Proofs.Lowering.LayoutWalk
/-!
# From the walk to the output

The passes after the walk keep every binding below the top level, so the scopes of the output are
those of the walk. A marked reference of the output therefore stands where the walk has laid it; its
name is the one it had there, or the new name if that name has moved.
-/
namespace ExtensionLowering

open List

theorem relabel_spots {labels : List (Nat × String)} {ss : List Stmt} {sc : Scopes}
    (h : KeepsBinders (Ident.relabel labels) (Stmt.allSpots sc ss)) :
    Stmt.allSpots sc (relabel labels ss) =
      (Stmt.allSpots sc ss).map (Spot.map (Ident.relabel labels)) := by
  rw [relabel]
  split
  · rename_i hempty
    obtain rfl := List.isEmpty_iff.1 hempty
    rw [Ident.relabel_nil]
    exact (map_id'' (fun _ => rfl) _).symm
  · exact Stmt.spots_mapAll _ ss sc h

/-- Nothing in front of the output refers to a name. -/
theorem preamble_spots {env : Env} {u : Lowering} {sc : Scopes} {q : Spot}
    (hq : q ∈ Stmt.allSpots sc (preamble env u)) : ¬ q.IsReference := by
  rw [Stmt.allSpots_eq_flatMap] at hq
  obtain ⟨s, hs, hq⟩ := mem_flatMap.1 hq
  obtain ⟨id, -, rfl⟩ | ⟨e, -, rfl⟩ := mem_preamble hs
  · obtain rfl : q = ⟨id, .binder, sc⟩ := by
      simpa [Stmt.constant, Stmt.spots, Declarator.allSpots, Declarator.spots, spotsOf,
        Expr.ofString, Expr.spots] using hq
    simp [Spot.IsReference]
  · obtain rfl : q = ⟨e.ident, .label, sc⟩ := by
      simpa [Stmt.namespaceImport, Stmt.spots, spotsOf] using hq
    simp [Spot.IsReference]

namespace Aliases

variable {as : Aliases}

/-- A pin that moves binds its alias only. -/
theorem moveStmt_pin {p : Pin} {b : String × Ident} (h : as.moved? (some p.ident) = some b)
    {sc : Scopes} {q : Spot} (hq : q ∈ Stmt.allSpots sc (as.moveStmt p.stmt))
    (hrole : q.role = .binder) : q.ident = b.2 := by
  obtain ⟨orig, binding⟩ := b
  obtain ⟨t, t', hmove⟩ : ∃ t t', as.moveStmt p.stmt =
      [.varDecl t false .const [.mk t' (some binding) .missing (.ofName p.name)]] := by
    simp [Pin.stmt, Stmt.constant, moveStmt, moveDeclarator, Declarator.name, h]
  rw [hmove] at hq
  have hq : q = ⟨binding, .binder, sc⟩ ∨ q = ⟨.synthetic p.name, .reference, sc⟩ := by
    simpa [Stmt.allSpots, Stmt.spots, Declarator.allSpots, Declarator.spots, spotsOf, Expr.ofName,
      Expr.ofIdent, Expr.spots] using hq
  obtain rfl | rfl := hq
  · rfl
  · cases hrole

end Aliases

namespace Session

variable {session : Session} {f out : File}

theorem pinned_nodup (session : Session) (f : File) : (session.copies f).Nodup := by
  have hmarks := (session.walk_accounts f).sound.marks
  simp only [Lowering.synthesized, Lowering.others, map_append] at hmarks
  have hothers := (nodup_append'.1 (nodup_append'.1 hmarks).2.1).1
  exact (nodup_append'.1 hothers).2.1.of_map

/-- What is synthesized for something else is no copy. -/
theorem unpinned_ne_pinned {a b : Ident} (ha : a ∈ (session.walk f).2.unpinned)
    (hb : b ∈ session.copies f) : a ≠ b := by
  have hmarks := (session.walk_accounts f).sound.marks
  simp only [Lowering.synthesized, Lowering.others, map_append] at hmarks
  obtain ⟨hothers, -, haliases⟩ := nodup_append'.1 (nodup_append'.1 hmarks).2.1
  rintro rfl
  obtain ha | ha := mem_append.1 ha
  · refine (nodup_append'.1 hothers).2.2 ?_ (mem_map_of_mem hb)
    rw [← map_append]
    exact mem_map_of_mem ha
  · exact haliases (mem_append_right _ (mem_map_of_mem hb)) (mem_map_of_mem ha)

/-- The passes after moving leave the identifier as it is. -/
def Settled (session : Session) (f : File) (id : Ident) : Prop :=
  id.relabel (session.untaken f) = id ∧ session.shown f id = id

theorem Settled.of_unmarked {id : Ident} (h : id.mark = none) : session.Settled f id :=
  ⟨Ident.relabel_of_unmarked h, shown_unmarked h⟩

theorem Settled.of_taken {b : String × Ident} (hb : b ∈ session.moves f) : session.Settled f b.2 :=
  ⟨Ident.relabel_of_lookup fun _ => lookup_untaken_of_taken hb, shown_taken hb⟩

theorem Settled.of_walked (hf : f.Marked) {id : Ident} (hid : id ∈ session.walkedIdents f)
    (halias : ∀ a ∈ session.aliases f, id.mark ≠ a.2.ident.mark)
    (hnone : (session.moves f).lookup id.name = none) : session.Settled f id := by
  refine ⟨Ident.relabel_of_lookup fun _ => lookup_untaken_of_ne halias, ?_⟩
  obtain h | ⟨b, hb, -⟩ := shown_name hf hid halias
  · exact h
  · rw [hnone] at hb
    cases hb

namespace Walks

variable {new : List (DeclId × Ident)} {pins : List Pin} {ss : List Stmt} {s : Lowering} {p : View}
  (hw : session.Walks f new pins ss s p)
variable {q : Spot}
include hw

theorem pinned_eq : s.pinned = new := by
  rw [hw.registers.pinned]
  exact append_nil new

theorem pin_pinned {pin : Pin} (hpin : pin ∈ pins) : pin.ident ∈ session.copies f := by
  obtain ⟨d, id, hid, -, rfl⟩ := (hw.copies pin).1 hpin
  obtain ⟨more, hmore⟩ := hw.lays.pinned_append
  rw [Session.copies, hmore, hw.pinned_eq]
  exact mem_map_of_mem (mem_append_right _ hid)

/-- What is bound inside the statements is unmarked, a derivation, or a copy that is none of the
file's. -/
theorem binder {sc : Scopes} (hq : q ∈ Stmt.allSpots sc ss) (hrole : q.role = .binder) :
    q.ident.mark = none ∨ q.ident ∈ (session.walk f).2.derived ∨
      (q.ident ∈ session.copies f ∧
        ∀ pin ∈ pins, pin.ident ≠ q.ident) := by
  cases hmark : q.ident.mark with
  | none => exact .inl rfl
  | some m =>
    have hins : q.isInserted := by simp [Spot.isInserted, hrole, hmark]
    obtain hderived | ⟨d, hd⟩ | ⟨more, hmore, hid⟩ := hw.lays.binder (hw.shows sc q hq hins) hrole
    · exact .inr (.inl hderived)
    · cases hd
    · have hnodup := session.pinned_nodup f
      rw [Session.copies, hmore, hw.pinned_eq] at hnodup ⊢
      rw [map_append] at hnodup ⊢
      refine .inr (.inr ⟨mem_append_left _ hid, fun pin hpin heq => ?_⟩)
      obtain ⟨d, id, hd, -, rfl⟩ := (hw.copies pin).1 hpin
      exact (nodup_append'.1 hnodup).2.2 hid (heq ▸ mem_map_of_mem hd)

theorem eq_of_pin_ident {pin pin' : Pin} (hpin : pin ∈ pins) (hpin' : pin' ∈ pins)
    (h : pin.ident = pin'.ident) : pin = pin' := by
  obtain ⟨d, id, hd, -, rfl⟩ := (hw.copies pin).1 hpin
  obtain ⟨d', id', hd', -, rfl⟩ := (hw.copies pin').1 hpin'
  obtain ⟨more, hmore⟩ := hw.lays.pinned_append
  have hnodup := session.pinned_nodup f
  rw [Session.copies, hmore, hw.pinned_eq, map_append] at hnodup
  have hpair := inj_on_of_nodup_map (nodup_append'.1 hnodup).2.1 hd hd' h
  obtain ⟨rfl, rfl⟩ := Prod.mk.inj hpair
  rfl

/-- What the walked statements declare the file declares, or it is a copy that found a place. -/
theorem declared {id : Ident} (hid : some id ∈ session.declared f) :
    id ∈ (Node.file f).idents ∨
      ∃ pin ∈ pins, pin ∉ (session.walk f).1.2 ∧ pin.ident = id := by
  obtain ⟨s, hs, hs'⟩ := mem_flatMap.1 hid
  rw [hw.placed] at hs ⊢
  obtain hs | ⟨pin, hpin, rfl, hplaced⟩ := Pin.mem_place hs
  · have hfile := mem_flatMap.2 ⟨s, hs, hs'⟩
    rw [hw.declares] at hfile
    exact .inl (Aliases.mem_file_of_declaredBy hfile)
  · exact .inr ⟨pin, hpin, hplaced, (Option.some.inj (mem_singleton.1 hs')).symm⟩

/-- What is synthesized moves only if it is a copy that stands at the top level. -/
theorem lookup_moves {id : Ident} (hid : id ∈ (session.walk f).2.others)
    (hne : ∀ pin ∈ pins, pin ∉ (session.walk f).1.2 → pin.ident ≠ id) :
    (session.moves f).lookup id.name = none := by
  refine lookup_moves_eq_none (others_synthesized hid) fun hdeclared => ?_
  obtain hfile | ⟨pin, hpin, hplaced, heq⟩ := hw.declared hdeclared
  · exact name_ne_of_synthesized (mem_map_of_mem hfile) (others_synthesized hid) rfl
  · exact hne pin hpin hplaced heq

section

variable (hf : f.Marked)
include hf

/-- What the statements bind is settled. -/
theorem settled_inside {sc : Scopes} (hq : q ∈ Stmt.allSpots sc ss)
    (hwalked : q.ident ∈ (session.walk f).1.1.flatMap Stmt.idents)
    (hrole : q.role = .binder) : session.Settled f q.ident := by
  obtain hmark | hderived | ⟨hpinned, hne⟩ := hw.binder hq hrole
  · exact .of_unmarked hmark
  · have hothers := mem_append_left (session.copies f)
      (mem_append_right ((session.walk f).2.traceVar.toList) hderived)
    refine .of_walked hf (mem_append_left _ hwalked) (fun a ha => ne_alias hothers ha)
      (hw.lookup_moves (mem_append_left _ hothers) fun pin hpin _ h => ?_)
    exact unpinned_ne_pinned (Lowering.derived_subset_unpinned _ hderived) (hw.pin_pinned hpin) h.symm
  · exact .of_walked hf (mem_append_left _ hwalked) (fun a ha => pinned_ne_alias hpinned ha)
      (hw.lookup_moves (pinned_others hpinned) fun pin hpin _ => hne pin hpin)

/-- What the moved statements bind, the passes after moving leave as it is. -/
theorem settled
    (hq : q ∈ Stmt.allSpots [] ((session.walk f).1.2.map Pin.stmt ++
      (session.aliases f).moveAll
        (session.walk f).1.1)) (hrole : q.role = .binder) :
    session.Settled f q.ident := by
  by_cases hmark : q.ident.mark = none
  · exact .of_unmarked hmark
  have hins : q.isInserted := by
    simp [Spot.isInserted, hrole, Option.isSome_iff_ne_none.2 hmark]
  have hpin {pin : Pin} (hpin : pin ∈ pins) {a : String × Alias}
      (ha : a ∈ session.aliases f) : pin.ident.mark ≠ a.2.ident.mark :=
    pinned_ne_alias (hw.pin_pinned hpin) ha
  rw [Stmt.allSpots_append, mem_append] at hq
  obtain hq | hq := hq
  · -- A pin that found no place.
    obtain ⟨-, pin, hleft, hid⟩ := Pin.mem_spots_stmts hins hq
    have hmem : pin ∈ pins := Pin.place_rest_subset _ _ (hw.placed ▸ hleft)
    have hwalked : pin.ident ∈ (session.walk f).1.2.flatMap Pin.idents :=
      mem_flatMap.2 ⟨pin, hleft, Aliases.mem_idents_of_declaredBy (mem_singleton_self _)⟩
    refine hid ▸ .of_walked hf (mem_append_right _ hwalked) (fun a => hpin hmem)
      (hw.lookup_moves (pinned_others (hw.pin_pinned hmem)) fun pin' hpin' hplaced heq => ?_)
    exact hplaced (hw.eq_of_pin_ident hpin' hmem heq ▸ hleft)
  · rw [Stmt.allSpots_eq_flatMap] at hq
    obtain ⟨s', hs', hq⟩ := mem_flatMap.1 hq
    obtain ⟨s, hs, hs'⟩ := mem_flatMap.1 hs'
    have hq : q ∈ Stmt.allSpots [] ((session.aliases f).moveStmt s) := by
      rw [Stmt.allSpots_eq_flatMap]
      exact mem_flatMap.2 ⟨s', hs', hq⟩
    have hspots := Aliases.moveStmt_spots _ [] s q hq
    have hmoves {b : String × Ident}
        (hb : b ∈ (session.aliases f).renames [s]) :
        b ∈ session.moves f := by
      obtain ⟨name, hname, hb⟩ := mem_filterMap.1 hb
      exact mem_filterMap.2 ⟨name, mem_flatMap.2 ⟨s, hs, by simpa using hname⟩, hb⟩
    obtain hstmt | ⟨-, hnone | ⟨orig, hb⟩⟩ := hspots
    · have hwalked : q.ident ∈ (session.walk f).1.1.flatMap Stmt.idents :=
        mem_flatMap.2 ⟨s, hs, (s.spots_spec []).1 ▸ mem_map_of_mem hstmt⟩
      rw [hw.placed] at hs
      obtain hs | ⟨pin, hmem, rfl, -⟩ := Pin.mem_place hs
      · have hq : q ∈ Stmt.allSpots [] ss := by
          rw [Stmt.allSpots_eq_flatMap]
          exact mem_flatMap.2 ⟨s, hs, hstmt⟩
        exact hw.settled_inside hf hq hwalked hrole
      · cases hm : (session.aliases f).moved? (some pin.ident) with
        | some b =>
          have hb : b ∈ session.moves f :=
            hmoves (Aliases.mem_renames_of_moved? (mem_singleton_self _) hm)
          exact Aliases.moveStmt_pin hm hq hrole ▸ .of_taken hb
        | none =>
          have hid : pin.ident = q.ident := by
            obtain ⟨-, _, hp, hid⟩ := @Pin.mem_spots_stmts [pin] [] q hins
              (by simpa [Stmt.allSpots] using hstmt)
            rwa [mem_singleton.1 hp] at hid
          refine hid ▸ .of_walked hf (mem_append_left _ (hid ▸ hwalked)) (fun a => hpin hmem)
            (Aliases.lookup_renames_of_none (by simpa [Aliases.moved?] using hm))
    · exact absurd hnone hmark
    · exact .of_taken (hmoves hb)

/-- The spots of the moved statements, which fall back to other names one by one. -/
theorem movedStmts_spots :
    Stmt.allSpots [] (session.movedStmts f) =
      (Stmt.allSpots [] ((session.walk f).1.2.map Pin.stmt ++
        (session.aliases f).moveAll
          (session.walk f).1.1)).map
            (Spot.map (Ident.relabel (session.untaken f))) :=
  relabel_spots fun q hq hrole => by rw [(hw.settled hf hq hrole).1]

/-- The spots of the body of the output. -/
theorem body_spots :
    Stmt.allSpots [] (relabel (session.carried f) (session.renamedStmts f)) =
      (Stmt.allSpots [] (session.renamedStmts f)).map
        (Spot.map (Ident.relabel (session.carried f))) := by
  refine relabel_spots fun q hq hrole => ?_
  obtain ⟨hq, -⟩ | ⟨hlabel, -⟩ | ⟨-, -, -, -, -, href, -⟩ :=
    Renaming.references_rewrites _ [] q hq
  · rw [hw.movedStmts_spots hf] at hq
    obtain ⟨p, hp, rfl⟩ := mem_map.1 hq
    obtain ⟨hsame, hshown⟩ := hw.settled hf hp hrole
    rw [shown, hsame] at hshown
    rw [Spot.map_ident, hsame, hshown]
  · rw [hlabel] at hrole
    cases hrole
  · rw [href] at hrole
    cases hrole

/-- A marked reference of the moved statements that is no alias stands in the lowered ones. -/
theorem mem_of_movedStmts {m : Nat}
    (hq : q ∈ Stmt.allSpots [] (session.movedStmts f)) (href : q.IsReference)
    (hm : q.ident.mark = some m) (halias : ∀ a ∈ session.aliases f, q.ident.mark ≠ a.2.ident.mark) :
    q ∈ Stmt.allSpots [] ss ∧
      q.ident ∈ (session.walk f).1.1.flatMap Stmt.idents := by
  rw [hw.movedStmts_spots hf] at hq
  obtain ⟨p, hp, rfl⟩ := mem_map.1 hq
  simp only [Spot.map_ident, Ident.relabel_mark] at hm halias
  have hsame : p.map (Ident.relabel (session.untaken f)) = p := by
    rw [Spot.map, Ident.relabel_of_lookup fun _ => lookup_untaken_of_ne halias]
  rw [hsame] at href ⊢
  have hrole : p.role ≠ .binder := by
    rintro hrole
    simp [Spot.IsReference, hrole] at href
  have hins : p.isInserted := by
    obtain hrole | hrole := href <;> simp [Spot.isInserted, hrole, hm]
  rw [Stmt.allSpots_append, mem_append] at hp
  obtain hp | hp := hp
  · exact absurd (Pin.mem_spots_stmts hins hp).1 hrole
  · obtain hp | ⟨-, hnone | ⟨orig, hb⟩⟩ := Aliases.moveAll_spots _ [] _ p hp
    · refine ⟨?_, (Stmt.allSpots_spec _ []).1 ▸ mem_map_of_mem hp⟩
      rw [hw.placed] at hp
      exact (Pin.mem_spots_place hins hp).resolve_right fun h => hrole h.1
    · simp [hnone] at hm
    · obtain ⟨a, ha, hident⟩ := mem_moves hb
      exact absurd (congrArg Ident.mark hident).symm (halias _ ha)

/-- A marked reference of the output that is no alias stands in the lowered statements, within the
same scopes and under the same name, or its name has moved. It keeps a name that has moved only if
something else binds the name. -/
theorem lower_reference (h : session.Lowers f out)
    {m : Nat} (hq : q ∈ Stmt.allSpots [] out.stmts) (href : q.IsReference)
    (hm : q.ident.mark = some m) (halias : ∀ a ∈ session.aliases f, q.ident.mark ≠ a.2.ident.mark) :
    ∃ p ∈ Stmt.allSpots [] ss, p.IsReference ∧ p.scopes = q.scopes ∧ p.ident.mark = some m ∧
      ((q.ident = p.ident ∧ ((session.moves f).lookup p.ident.name = none ∨
          p.ident.name ∈ p.scopes.flatten ∨
          p.ident.name ∈ Stmt.allHoisted (session.movedStmts f))) ∨
        ∃ b, (session.moves f).lookup p.ident.name = some b ∧
          q.ident.name = b.name) := by
  rw [lower_body h, Stmt.allSpots_append, mem_append] at hq
  obtain hq | hq := hq
  · exact absurd href (preamble_spots hq)
  rw [hw.body_spots hf] at hq
  obtain ⟨q, hbody, rfl⟩ := mem_map.1 hq
  simp only [Spot.map_ident, Ident.relabel_mark] at hm halias
  obtain ⟨hq, hkept⟩ | ⟨hlabel, -⟩ | ⟨p, hp, hpref, b, hb, -, hscopes, hrename | hbinding⟩ :=
    Renaming.references_rewrites _ [] q hbody
  · obtain ⟨hq, hwalked⟩ := hw.mem_of_movedStmts hf hq href hm halias
    refine ⟨q, hq, href, rfl, hm, ?_⟩
    have hname := shown_name hf (mem_append_left _ hwalked) halias
    rw [shown, Ident.relabel_of_lookup fun _ => lookup_untaken_of_ne halias] at hname
    exact hname.imp_left fun h => ⟨h, hkept href⟩
  · simp [Spot.IsReference, Spot.map, hlabel] at href
  · rw [hrename, Ident.rename_mark] at hm halias
    obtain ⟨hp, hwalked⟩ := hw.mem_of_movedStmts hf hp hpref hm halias
    refine ⟨p, hp, hpref, hscopes.symm, hm, .inr ?_⟩
    obtain hname | ⟨k, name, hk, hl, hname⟩ := q.ident.relabel_name_cases
    · refine ⟨b, hb, ?_⟩
      rw [Spot.map_ident, hname, hrename]
      rfl
    · rw [hrename, Ident.rename_mark] at hk
      obtain ⟨b', hb', hb'name⟩ :=
        lookup_carried_of_walked hf (mem_append_left _ hwalked) halias hk hl
      exact ⟨b', hb', hname.trans hb'name.symm⟩
  · obtain ⟨a, ha, hident⟩ := mem_moves (mem_of_lookup hb)
    exact absurd (by rw [hbinding]; exact (congrArg Ident.mark hident).symm) (halias _ ha)

/-- What the output declares has a name of the file, is a copy of the file's, or is synthesized for
something else. -/
theorem declaredNames_lower (h : session.Lowers f out)
    {x : String} (hx : x ∈ declaredNames out.stmts) :
    x ∈ f.names ∨ (∃ pin ∈ pins, pin.ident.name = x) ∨
      ∃ id ∈ (session.walk f).2.unpinned, id.name = x := by
  have hmoved {b : String × Ident} (hb : b ∈ session.moves f) :
      b.2 ∈ (session.walk f).2.unpinned := by
    obtain ⟨a, ha, hident⟩ := mem_moves hb
    exact hident ▸ mem_append_right _ (mem_map.2 ⟨_, ha, rfl⟩)
  obtain ⟨id, hid, rfl⟩ | ⟨pin, hpin, rfl⟩ | ⟨b, hb, rfl⟩ | ⟨d, hd, id, hid, rfl, -⟩ :=
    declares_lower hf h hx
  · exact .inr (.inr ⟨id, mem_append_left _ (mem_append_left _ hid), rfl⟩)
  · obtain hname | ⟨b, hb, hname⟩ := shown_left hf hpin
    · exact .inr (.inl ⟨pin, Pin.place_rest_subset _ _ (hw.placed ▸ hpin), hname.symm⟩)
    · exact .inr (.inr ⟨_, hmoved hb, hname.symm⟩)
  · exact .inr (.inr ⟨_, hmoved hb, rfl⟩)
  · have hdeclared := mem_map_of_mem (f := TopDecl.name) hd
    rw [← flatMap_declaredBy, hid] at hdeclared
    obtain hfile | ⟨pin, hpin, -, rfl⟩ := hw.declared hdeclared
    · exact .inl (mem_map_of_mem hfile)
    · exact .inr (.inl ⟨pin, hpin, rfl⟩)

end

end Walks

end Session

end ExtensionLowering
