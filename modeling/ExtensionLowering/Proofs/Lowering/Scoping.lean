import ExtensionLowering.Proofs.Lowering.Layout
/-!
# The scopes of lowered code

Lowering keeps what functions and blocks bind. A block binds its pinned copies besides, and the body
of a Do call is cut at its binds: each piece has a scope of its own.
-/
namespace ExtensionLowering

open List

variable {body : Bool} {ss : List Stmt} {x : String} {env : Env}

/-! ## What is kept -/

namespace Lower

theorem params_bound (env : Env) (ps : List Param) (u : Lowering) :
    Param.bound ((params env ps).run u).1 = Param.bound ps := by
  have hnames : ((params env ps).run u).1.map (·.name) = ps.map (·.name) := by
    induction ps generalizing u with
    | nil => rfl
    | cons p ps ih =>
      obtain ⟨t, name, type, optional, rest, init⟩ := p
      have hrun : ((params env (.mk t name type optional rest init :: ps)).run u).1 =
          .mk t name type optional rest ((expr env init).run u).1 ::
            ((params env ps).run ((expr env init).run u).2).1 := rfl
      rw [hrun, map_cons, map_cons, ih]
      rfl
  rw [Param.bound, hnames, Param.bound]

theorem block_isMissing (env : Env) (b : Block) (u : Lowering) :
    ((block env b).run u).1.isMissing = b.isMissing := by
  cases b <;> rfl

end Lower

namespace Pin

theorem hoisted_stmts (ps : List Pin) : Stmt.allHoisted (ps.map stmt) = [] := by
  induction ps with
  | nil => rfl
  | cons p ps ih => simpa [Stmt.allHoisted, stmt, Stmt.constant, Stmt.hoisted] using ih

theorem lexical_stmts (ps : List Pin) :
    (ps.map stmt).flatMap Stmt.lexical = ps.map (·.ident.name) := by
  rw [flatMap_map]
  exact flatMap_pure_eq_map _ ps

end Pin

theorem Stmt.allHoisted_eq_flatMap (ss : List Stmt) :
    Stmt.allHoisted ss = ss.flatMap Stmt.hoisted :=
  eq_flatMap_of_cons rfl (fun _ _ => rfl) ss

theorem Stmt.allHoisted_append (ss ss' : List Stmt) :
    Stmt.allHoisted (ss ++ ss') = Stmt.allHoisted ss ++ Stmt.allHoisted ss' := by
  simp only [allHoisted_eq_flatMap, flatMap_append]

theorem Stmt.mem_scope_append {ss ss' : List Stmt} :
    x ∈ Stmt.scope body (ss ++ ss') ↔ x ∈ Stmt.scope body ss ∨ x ∈ Stmt.scope body ss' := by
  cases body <;> simp only [scope, allHoisted_append, flatMap_append] <;> grind

theorem Stmt.mem_scope_cons (s : Stmt) (ss : List Stmt) :
    x ∈ Stmt.scope body (s :: ss) ↔ x ∈ Stmt.scope body [s] ∨ x ∈ Stmt.scope body ss := by
  rw [← mem_scope_append, singleton_append]

theorem Pin.mem_scope_stmts {ps : List Pin} :
    x ∈ Stmt.scope body (ps.map stmt) ↔ ∃ p ∈ ps, p.ident.name = x := by
  cases body <;> simp [Stmt.scope, hoisted_stmts, lexical_stmts]

theorem Pin.place_cons (ps : List Pin) (s : Stmt) (ss : List Stmt) :
    place ps (s :: ss) =
      (s :: ((after ps s).1.map stmt ++ (place (after ps s).2 ss).1), (place (after ps s).2 ss).2) :=
  rfl

theorem Pin.mem_scope_place {ps : List Pin} :
    (x ∈ Stmt.scope body (place ps ss).1 ∨ ∃ p ∈ (place ps ss).2, p.ident.name = x) ↔
      x ∈ Stmt.scope body ss ∨ ∃ p ∈ ps, p.ident.name = x := by
  induction ss generalizing ps with
  | nil => exact Iff.rfl
  | cons s ss ih =>
    have hsplit (p : Pin) : p ∈ ps ↔ p ∈ (after ps s).1 ∨ p ∈ (after ps s).2 := by
      rw [← mem_append]
      exact (take_perm ps (constants s)).mem_iff.symm
    have hrest := @ih (after ps s).2
    rw [place_cons, Stmt.mem_scope_cons, Stmt.mem_scope_append, mem_scope_stmts,
      Stmt.mem_scope_cons s ss]
    grind

/-- The pins of a block bind their names besides those of the statements. -/
theorem Lower.mem_scope_insertPins {pins : List Pin} {u : Lowering} :
    x ∈ Stmt.scope body ((insertPins pins ss).run u).1 ↔
      x ∈ Stmt.scope body ss ∨ ∃ p ∈ pins, p.ident.name = x := by
  rw [insertPins_run, Stmt.mem_scope_append, Pin.mem_scope_stmts, or_comm, Pin.mem_scope_place]

theorem Pin.allHoisted_place (ps : List Pin) (ss : List Stmt) :
    Stmt.allHoisted (place ps ss).1 = Stmt.allHoisted ss := by
  induction ss generalizing ps with
  | nil => rfl
  | cons s ss ih =>
    rw [place_cons, Stmt.allHoisted, Stmt.allHoisted, Stmt.allHoisted_append, hoisted_stmts, ih,
      nil_append]

namespace Lower

theorem insertPins_allHoisted (pins : List Pin) (ss : List Stmt) (u : Lowering) :
    Stmt.allHoisted ((insertPins pins ss).run u).1 = Stmt.allHoisted ss := by
  rw [insertPins_run, Stmt.allHoisted_append, Pin.hoisted_stmts, nil_append, Pin.allHoisted_place]

mutual

theorem block_hoisted (env : Env) :
    ∀ (b : Block) (u : Lowering), ((Lower.block env b).run u).1.hoisted = b.hoisted
  | .missing, _ => rfl
  | .mk t unique ss, u => by
    have hss := stmts_hoisted env ss ((Lower.registerPins env unique).run u).2
    exact (insertPins_allHoisted _ _ _).trans hss

theorem stmts_hoisted (env : Env) :
    ∀ (ss : List Stmt) (u : Lowering),
      Stmt.allHoisted ((Lower.stmts env ss).run u).1 = Stmt.allHoisted ss
  | [], _ => rfl
  | s :: ss, u => by
    have hrun : ((Lower.stmts env (s :: ss)).run u).1 =
        ((Lower.stmt env s).run u).1 ::
          ((Lower.stmts env ss).run ((Lower.stmt env s).run u).2).1 := rfl
    rw [hrun, Stmt.allHoisted, Stmt.allHoisted, stmt_hoisted env s, stmts_hoisted env ss]

theorem stmt_hoisted (env : Env) :
    ∀ (s : Stmt) (u : Lowering), ((Lower.stmt env s).run u).1.hoisted = s.hoisted
  | .block b, u => block_hoisted env b u
  | .cond t c y n, u =>
    congrArg₂ (· ++ ·) (stmt_hoisted env y _) (stmt_hoisted env n _)
  | .varDecl t x k ds, u => by
    have houtline (ds : List Declarator) :
        (Stmt.varDecl t x k ds).outline.hoisted = (Stmt.varDecl t x k ds).hoisted := by
      cases k <;> simp [Stmt.outline, Stmt.hoisted, Declarator.name, Function.comp_def]
    have hstmt := congrArg Stmt.hoisted (stmt_outline env (.varDecl t x k ds) u)
    exact (houtline _).symm.trans (hstmt.trans (houtline ds))
  | .missing, _ | .expr .., _ | .ret .., _ | .throw .., _ | .funcDecl .., _ | .classDecl .., _
  | .importDecl .., _ | .exportDecl .., _ => rfl

end

theorem stmts_scope (env : Env) (body : Bool) (ss : List Stmt) (u : Lowering) :
    Stmt.scope body ((stmts env ss).run u).1 = Stmt.scope body ss := by
  have hlexical : ((stmts env ss).run u).1.flatMap Stmt.lexical = ss.flatMap Stmt.lexical := by
    refine stmts_flatMap (fun s => ?_) env ss u
    cases s with
    | varDecl t x k ds => cases k <;> simp [Stmt.outline, Stmt.lexical, Declarator.name,
        Function.comp_def]
    | _ => rfl
  rw [Stmt.scope, Stmt.scope, hlexical, stmts_hoisted]

end Lower

/-! ## Names of scopes -/

theorem mem_namesOf_idents {ids : List (Option Ident)} (h : x ∈ namesOf ids) :
    ∃ id, some id ∈ ids ∧ id.name = x := by
  obtain ⟨id, hid, rfl⟩ := mem_map.1 h
  obtain ⟨_, hmem, rfl⟩ := mem_filterMap.1 hid
  exact ⟨id, hmem, rfl⟩

theorem Param.bound_idents {ps : List Param} (h : x ∈ Param.bound ps) :
    ∃ id ∈ ps.flatMap Param.idents, id.name = x := by
  obtain ⟨id, hid, rfl⟩ := mem_namesOf_idents h
  obtain ⟨⟨t, name, type, optional, rest, init⟩, hp, hname⟩ := mem_map.1 hid
  refine ⟨id, mem_flatMap.2 ⟨_, hp, ?_⟩, rfl⟩
  simp only [Param.name] at hname
  simp [hname]

theorem Declarator.names_idents {ds : List Declarator}
    (h : x ∈ namesOf (ds.map (·.name))) : ∃ id ∈ ds.flatMap Declarator.idents, id.name = x := by
  obtain ⟨id, hid, rfl⟩ := mem_namesOf_idents h
  obtain ⟨⟨t, name, type, init⟩, hd, hname⟩ := mem_map.1 hid
  refine ⟨id, mem_flatMap.2 ⟨_, hd, ?_⟩, rfl⟩
  simp only [Declarator.name] at hname
  simp [hname]

theorem Stmt.lexical_idents {s : Stmt} (h : x ∈ s.lexical) : ∃ id ∈ s.idents, id.name = x := by
  cases s with
  | varDecl t exported k ds =>
    rw [Stmt.idents_varDecl]
    cases k with
    | var => cases h
    | _ => exact Declarator.names_idents h
  | funcDecl | classDecl =>
    obtain ⟨id, hid, rfl⟩ := mem_namesOf_idents h
    exact ⟨id, by simp [← mem_singleton.1 hid], rfl⟩
  | _ => cases h

mutual

theorem Block.hoisted_idents (x : String) :
    ∀ b : Block, x ∈ b.hoisted → ∃ id ∈ b.idents, id.name = x
  | .missing, h => absurd h not_mem_nil
  | .mk t unique ss, h => by
    rw [Block.idents_mk]
    exact Stmt.allHoisted_idents x ss h

theorem Stmt.hoisted_idents (x : String) : ∀ s : Stmt, x ∈ s.hoisted → ∃ id ∈ s.idents, id.name = x
  | .block b, h => Block.hoisted_idents x b h
  | .cond t c y n, h => by
    rw [Stmt.hoisted, mem_append] at h
    obtain ⟨id, hid, rfl⟩ | ⟨id, hid, rfl⟩ :=
      h.imp (Stmt.hoisted_idents x y) (Stmt.hoisted_idents x n)
    · exact ⟨id, by simp [hid], rfl⟩
    · exact ⟨id, by simp [hid], rfl⟩
  | .varDecl t exported k ds, h => by
    rw [Stmt.idents_varDecl]
    cases k with
    | var => exact Declarator.names_idents h
    | _ => cases h
  | .missing, h | .expr .., h | .ret .., h | .throw .., h | .funcDecl .., h | .classDecl .., h
  | .importDecl .., h | .exportDecl .., h => absurd h not_mem_nil

theorem Stmt.allHoisted_idents (x : String) :
    ∀ ss : List Stmt, x ∈ Stmt.allHoisted ss → ∃ id ∈ ss.flatMap Stmt.idents, id.name = x
  | [], h => absurd h not_mem_nil
  | s :: ss, h => by
    rw [Stmt.allHoisted, mem_append] at h
    rw [flatMap_cons]
    obtain ⟨id, hid, rfl⟩ | ⟨id, hid, rfl⟩ :=
      h.imp (Stmt.hoisted_idents x s) (Stmt.allHoisted_idents x ss)
    · exact ⟨id, mem_append_left _ hid, rfl⟩
    · exact ⟨id, mem_append_right _ hid, rfl⟩

end

theorem Stmt.scope_idents (h : x ∈ Stmt.scope body ss) :
    ∃ id ∈ ss.flatMap Stmt.idents, id.name = x := by
  have hlexical : x ∈ ss.flatMap Stmt.lexical → ∃ id ∈ ss.flatMap Stmt.idents, id.name = x := by
    intro h
    obtain ⟨s, hs, hx⟩ := mem_flatMap.1 h
    obtain ⟨id, hid, rfl⟩ := Stmt.lexical_idents hx
    exact ⟨id, mem_flatMap.2 ⟨s, hs, hid⟩, rfl⟩
  have hhoisted := Stmt.allHoisted_idents x ss
  rw [Stmt.scope] at h
  cases body <;> grind

theorem Stmt.segment_idents (h : x ∈ Stmt.segment ss) :
    ∃ id ∈ ss.flatMap Stmt.idents, id.name = x := by
  induction ss with
  | nil => cases h
  | cons s ss ih =>
    rw [segment] at h
    split at h
    · cases h
    · have hs := @Stmt.scope_idents true [s] x
      rw [flatMap_cons]
      rw [flatMap_singleton] at hs
      grind

/-! ## Pins -/

namespace Lower

/-- Registering pins registers copies for those declarations that had none, and gives them back. -/
theorem registerPins_spec (env : Env) (ds : List DeclId) (s : Lowering) :
    ∃ new, s.Registers ds new ((registerPins env ds).run s).2 ∧
      ∀ p, p ∈ ((registerPins env ds).run s).1 ↔ ∃ d id, (d, id) ∈ new ∧ p = env.copy d id := by
  induction ds generalizing s with
  | nil => exact ⟨[], ⟨rfl, rfl, rfl, rfl, by simp, by simp, by simp⟩,
      fun p => ⟨fun h => absurd h not_mem_nil, by simp⟩⟩
  | cons d ds ih =>
    cases hd : s.pinned.lookup d with
    | some id =>
      rw [registerPins_of_some hd]
      obtain ⟨new, ⟨hpinned, hunpinned, hderived, hledger, hregistered, hlisted, hdistinct⟩, hpins⟩ :=
        ih s
      refine ⟨new, ⟨hpinned, hunpinned, hderived, hledger, ?_, ?_, hdistinct⟩, hpins⟩
      · intro d' hd' hnone
        obtain rfl | hd' := mem_cons.1 hd'
        · rw [hd] at hnone
          cases hnone
        · exact hregistered d' hd' hnone
      · exact fun d' id' h => (hlisted d' id' h).imp_left (mem_cons_of_mem _)
    | none =>
      rw [registerPins_of_none hd]
      let decl := (env.compilation.declaration? (some d)).getD {}
      let named := (pinName d decl.name).run s
      obtain ⟨new, ⟨hpinned, hunpinned, hderived, hledger, hregistered, hlisted, hdistinct⟩, hpins⟩ :=
        ih named.2
      have hpin : named.2.pinned = (d, named.1) :: s.pinned := rfl
      have hlookup (d' : DeclId) : named.2.pinned.lookup d' = none ↔
          d' ≠ d ∧ s.pinned.lookup d' = none := by
        rw [hpin, lookup_cons]
        grind
      refine ⟨new ++ [(d, named.1)], ⟨?_, hunpinned, hderived, hledger, ?_, ?_, ?_⟩, fun p => ?_⟩
      · rw [append_assoc]
        exact hpinned
      · intro d' hd' hnone
        by_cases hne : d' = d
        · exact ⟨named.1, by simp [hne]⟩
        · obtain ⟨id, hid⟩ := hregistered d' ((mem_cons.1 hd').resolve_left hne)
            ((hlookup d').2 ⟨hne, hnone⟩)
          exact ⟨id, mem_append_left _ hid⟩
      · intro d' id' h
        obtain h | h := mem_append.1 h
        · obtain ⟨hmem, hnone⟩ := hlisted d' id' h
          exact ⟨mem_cons_of_mem _ hmem, ((hlookup d').1 hnone).2⟩
        · cases mem_singleton.1 h
          exact ⟨mem_cons_self, hd⟩
      · rw [map_append, nodup_append']
        refine ⟨hdistinct, by simp, ?_⟩
        simp only [map_cons, map_nil, disjoint_singleton]
        intro hmem
        obtain ⟨⟨d', id'⟩, h, rfl⟩ := mem_map.1 hmem
        exact ((hlookup d').1 (hlisted d' id' h).2).1 rfl
      · have hrun : p ∈ ((do
            let id ← pinName d decl.name
            let pins ← registerPins env ds
            return { name := decl.name, line := decl.line, ident := id } :: pins : Lower _).run
              s).1 ↔ p = env.copy d named.1 ∨ p ∈ ((registerPins env ds).run named.2).1 :=
          mem_cons
        rw [hrun, hpins]
        grind

end Lower

namespace Pin

variable {ps : List Pin} {o : List (DeclId × Ident)}

theorem mem_take {ds : List Declarator} {p : Pin} : (p ∈ (take ps ds).1 ↔ p ∈ ps ∧ ds.any p.fits) ∧
      (p ∈ (take ps ds).2 ↔ p ∈ ps ∧ ¬ ds.any p.fits) := by
  induction ds generalizing ps with
  | nil => simp [take]
  | cons d ds ih =>
    simp only [take, partition_eq_filter_filter, mem_append, ih, mem_filter,
      any_cons, Bool.or_eq_true, Function.comp]
    grind

/-- The pins left over are those that no statement takes. -/
theorem mem_place_rest {ss : List Stmt} {p : Pin} :
    p ∈ (place ps ss).2 ↔ p ∈ ps ∧ ∀ s ∈ ss, ¬ (constants s).any p.fits := by
  induction ss generalizing ps with
  | nil => simp [place]
  | cons s ss ih =>
    rw [place_cons, ih, after, mem_take.2, forall_mem_cons]
    exact and_assoc

theorem mem_place {ss : List Stmt} {s : Stmt} (h : s ∈ (place ps ss).1) :
    s ∈ ss ∨ ∃ p ∈ ps, s = p.stmt ∧ p ∉ (place ps ss).2 := by
  induction ss generalizing ps with
  | nil => cases h
  | cons s' ss ih =>
    have htake (p : Pin) := @mem_take ps (constants s') p
    simp only [mem_place_rest] at ih ⊢
    simp only [place_cons, mem_cons, mem_append, mem_map] at h
    obtain rfl | ⟨p, hp, rfl⟩ | h := h
    · exact .inl mem_cons_self
    · have hp := (htake p).1.1 hp
      exact .inr ⟨p, hp.1, rfl, fun h => h.2 s' mem_cons_self hp.2⟩
    · obtain h | ⟨p, hp, rfl, hrest⟩ := ih h
      · exact .inl (mem_cons_of_mem _ h)
      · have hlater := (htake p).2.1 hp
        exact .inr ⟨p, hlater.1, rfl, fun h =>
          hrest ⟨hp, fun s hs => h.2 s (mem_cons_of_mem _ hs)⟩⟩

/-- The pins are the copies that are registered for some declarations. -/
def Copies (env : Env) (o : List (DeclId × Ident)) (ds : List DeclId) (pins : List Pin) : Prop :=
  ∀ p, p ∈ pins ↔ ∃ d id, (d, id) ∈ o ∧ d ∈ ds ∧ p = env.copy d id

theorem Copies.names {env : Env} {ds : List DeclId} {pins : List Pin}
    (h : Copies env o ds pins) {x : String} :
    (∃ p ∈ pins, p.ident.name = x) ↔ ∃ d id, (d, id) ∈ o ∧ d ∈ ds ∧ id.name = x := by
  constructor
  · rintro ⟨p, hp, rfl⟩
    obtain ⟨d, id, hid, hd, rfl⟩ := (h p).1 hp
    exact ⟨d, id, hid, hd, rfl⟩
  · rintro ⟨d, id, hid, hd, rfl⟩
    exact ⟨_, (h _).2 ⟨d, id, hid, hd, rfl⟩, rfl⟩

/-- A copy stands behind the statement that declares what is copied. -/
theorem Copies.after {env : Env} {ds : List DeclId} {pins : List Pin}
    (h : Copies env o ds pins) (s : Stmt) :
    Copies env o (ds.filter (env.copies s)) (after pins s).1 ∧
      Copies env o (ds.filter (! env.copies s ·)) (after pins s).2 := by
  have hfits (d : DeclId) (id : Ident) :
      (constants s).any (env.copy d id).fits = env.copies s d := rfl
  refine ⟨fun p => ?_, fun p => ?_⟩
  · rw [Pin.after, mem_take.1, h]
    grind
  · rw [Pin.after, mem_take.2, h]
    grind

end Pin

theorem Lowering.Registers.copies {s t : Lowering} {ds : List DeclId}
    {new : List (DeclId × Ident)} {pins : List Pin} (h : s.Registers ds new t)
    (hpins : ∀ p, p ∈ pins ↔ ∃ d id, (d, id) ∈ new ∧ p = env.copy d id) :
    Pin.Copies env new ds pins := by
  intro p
  rw [hpins]
  exact ⟨fun ⟨d, id, hid, hp⟩ => ⟨d, id, hid, (h.listed d id hid).1, hp⟩,
    fun ⟨d, id, hid, _, hp⟩ => ⟨d, id, hid, hp⟩⟩

/-- What a listing asks for is laid with the copies that it registers. -/
theorem Lower.Laid.listing {β : Type} {own : List String} {o : List (DeclId × Ident)}
    {E : List Event} {Q : β → View → Prop} {unique : List DeclId} {f : List Pin → Lower β}
    (h : ∀ new pins, Pin.Copies env new unique pins → Laid own new E Q (f pins)) :
    Laid own o [.listing unique E] Q (registerPins env unique >>= f) := by
  intro s
  obtain ⟨new, hnew, hpins⟩ := registerPins_spec env unique s
  obtain ⟨p, hQ, hp⟩ := h new _ (hnew.copies hpins) ((registerPins env unique).run s).2
  exact ⟨p, hQ, .listing hnew hp⟩

theorem Env.mem_unplaced_cons {ds : List DeclId} {s : Stmt} {d : DeclId} :
    d ∈ env.unplaced ds (s :: ss) ↔ d ∈ env.unplaced (ds.filter (! env.copies s ·)) ss := by
  simp only [unplaced, mem_filter, any_cons]
  grind

/-! ## Bodies -/

theorem returned?_eq {body : List Stmt} {e : Expr} (h : returned? body = some e) :
    ∃ t, body = [.ret t e] := by
  unfold returned? at h
  split at h
  · split at h
    · cases h
    · cases h
      exact ⟨_, rfl⟩
  · cases h

/-- A continuation binds its parameters and what its body binds, in one scope or in two. -/
theorem continuation_spots {ids : List Ident} (hids : ∀ id ∈ ids, id.mark = none)
    (body : List Stmt) :
    ∃ frames : Scopes,
      (∀ x, x ∈ frames.flatten ↔ x ∈ ids.map (·.name) ∨ x ∈ Stmt.scope true body) ∧
      ∀ sc q, q.isInserted → q ∈ (continuation ids body).spots sc →
        q ∈ Stmt.allSpots (frames ++ sc) body := by
  have hparam (q : Spot) (hins : q.isInserted) (sc : Scopes) :
      ¬ ∃ id ∈ ids, q = ⟨id, .binder, sc⟩ := by
    rintro ⟨id, hid, rfl⟩
    simp [Spot.isInserted, hids id hid] at hins
  unfold continuation
  split
  · rename_i e he
    obtain ⟨t, rfl⟩ := returned?_eq he
    refine ⟨[ids.map (·.name)], fun x => ?_, fun sc q hins hq => ?_⟩
    · simp [Stmt.scope, Stmt.lexical, Stmt.allHoisted, Stmt.hoisted]
    · rw [Lower.mem_spots_lambda, or_iff_right (hparam q hins _)] at hq
      simpa [Stmt.allSpots, Stmt.spots] using hq
  · refine ⟨[Stmt.scope true body, ids.map (·.name)], fun x => ?_, fun sc q hins hq => ?_⟩
    · simp [or_comm]
    · rwa [Lower.mem_spots_lambdaBlock, or_iff_right (hparam q hins _)] at hq

theorem bodyValue_spots (body : List Stmt) :
    ∃ frames : Scopes,
      (∀ x, x ∈ frames.flatten ↔ x ∈ Stmt.scope true body) ∧
      ∀ sc q, q ∈ (bodyValue body).spots sc → q ∈ Stmt.allSpots (frames ++ sc) body := by
  unfold bodyValue
  cases he : returned? body with
  | some e =>
    obtain ⟨t, rfl⟩ := returned?_eq he
    refine ⟨[], fun x => ?_, fun sc q hq => ?_⟩
    · simp [Stmt.scope, Stmt.lexical, Stmt.allHoisted, Stmt.hoisted]
    · simpa [Stmt.allSpots, Stmt.spots] using hq
  | none =>
    refine ⟨[Stmt.scope true body, []], fun x => ?_, fun sc q hq => ?_⟩
    · simp
    · simpa [Expr.immediate, Expr.apply, Expr.applyTyped, Expr.spots, Expr.allSpots,
        Lower.mem_spots_lambdaBlock] using hq

namespace Pin

/-- A pin binds its copy, and nothing else in it is marked. -/
theorem mem_spots_stmts {ps : List Pin} {sc : Scopes} {q : Spot} (hins : q.isInserted)
    (hq : q ∈ Stmt.allSpots sc (ps.map stmt)) : q.role = .binder ∧ ∃ p ∈ ps, p.ident = q.ident := by
  induction ps with
  | nil => cases hq
  | cons p ps ih =>
    rw [map_cons, Stmt.allSpots, mem_append] at hq
    obtain hq | hq := hq
    · simp only [stmt, Stmt.constant, Stmt.spots, Declarator.allSpots, Declarator.spots,
        Option.toList_some, spotsOf, map_cons, map_nil, Expr.ofName, Expr.ofIdent,
        Expr.spots, append_nil, cons_append, nil_append, mem_cons,
        not_mem_nil, or_false] at hq
      obtain rfl | rfl := hq
      · exact ⟨rfl, p, mem_cons_self, rfl⟩
      · simp [Spot.isInserted, Ident.synthetic] at hins
    · obtain ⟨hrole, p', hp', hid⟩ := ih hq
      exact ⟨hrole, p', mem_cons_of_mem _ hp', hid⟩

theorem mem_spots_place {ps : List Pin} {ss : List Stmt} {sc : Scopes} {q : Spot}
    (hins : q.isInserted) (hq : q ∈ Stmt.allSpots sc (place ps ss).1) :
    q ∈ Stmt.allSpots sc ss ∨ (q.role = .binder ∧ ∃ p ∈ ps, p.ident = q.ident) := by
  induction ss generalizing ps with
  | nil => cases hq
  | cons s ss ih =>
    have hpins := @mem_spots_stmts (after ps s).1 sc q hins
    have hrest := @ih (after ps s).2
    have htake (p : Pin) := @mem_take ps (constants s) p
    simp only [place_cons, Stmt.allSpots, Stmt.allSpots_append, mem_append] at hq ⊢
    grind [after]

theorem Copies.binds {env : Env} {o : List (DeclId × Ident)} {ds : List DeclId} {pins : List Pin}
    (h : Copies env o ds pins) {q : Spot}
    (hq : q.role = .binder ∧ ∃ p ∈ pins, p.ident = q.ident) : q.BindsCopy o ds := by
  obtain ⟨hrole, p, hp, hid⟩ := hq
  obtain ⟨d, id, ho, hd, rfl⟩ := (h p).1 hp
  exact ⟨hrole, d, hd, hid ▸ ho⟩

end Pin

end ExtensionLowering
