import ExtensionLowering.Proofs.Import.Marking
import ExtensionLowering.Proofs.Lowering.Route
import ExtensionLowering.Proofs.Lowering.Scoping
/-!
# Laying references through the walk

The induction behind the laws on scopes. Each rule of the walk lays what its parts ask for, in their
order, and builds a tree whose scopes are those of the requests: functions and blocks bind what they
bound before, blocks their pinned copies besides, and a bind of a Do body opens the scope of its
continuation.
-/
namespace ExtensionLowering

open List

/-- A name as the file has it: unmarked, and one of `own`. -/
@[grind =] def Ident.Plain (own : List String) (id : Ident) : Prop :=
  id.mark = none ∧ id.name ∈ own

/-- A part of the tree with names as the file has them. -/
abbrev Env.Plain (own : List String) : Env → List Ident → Prop :=
  Gives (Ident.Plain own)

attribute [grind →] Env.Gives.idents

theorem Env.Gives.unmarked {own : List String} {env : Env} {ids : List Ident}
    (h : env.Plain own ids) : env.Unmarked :=
  fun id hid => (h.trace id hid).1

namespace Lower

open Lowering

variable {own : List String} {env : Env}
variable {ps : List Param} {p : View} {o : List (DeclId × Ident)}

theorem bound_own (hps : env.Plain own (ps.flatMap Param.idents)) : Param.bound ps ⊆ own := by
  intro x hx
  obtain ⟨id, hid, rfl⟩ := Param.bound_idents hx
  exact (hps.idents id hid).2

/-- What a function shows is what its parameters and its body show, inside the scope of the
parameters. -/
theorem function_laid {α : Type} {b : Block} {E E' : List Event}
    {build : List Param → Block → α} {spots : Scopes → α → List Spot} (hown : Param.bound ps ⊆ own)
    (hps : Laid own o E (fun ps' p => p.Shows (Param.allSpots · ps')) (Lower.params env ps))
    (hb : Laid own o E' (fun b' p => p.Shows (Block.spots · true b')) (Lower.block env b))
    (hbuild : ∀ ps' b' sc q, Param.bound ps' = Param.bound ps → q ∈ spots sc (build ps' b') →
      q.isInserted → q ∈ Param.allSpots (Param.bound ps :: sc) ps' ∨
        q ∈ Block.spots (Param.bound ps :: sc) true b') :
    Laid own o [.frame (Param.bound ps) [] (E ++ E')] (fun x p => p.Shows (spots · x)) (do
        let ps' ← Lower.params env ps
        return build ps' (← Lower.block env b)) := by
  refine Laid.inside (P := fun x p => View.Shows (fun sc q => p (Param.bound ps :: sc) q) (spots · x))
    ?_ hown fun _ _ h => h
  refine (hps.fact (Param.bound · = Param.bound ps) (params_bound _ ps)).bind
    fun ps' p ⟨hbound, hps'⟩ => hb.finish fun b' p' hb' sc q hq hins => ?_
  exact (hbuild ps' b' sc q hbound hq hins).imp (hps' _ q · hins) (hb' _ q · hins)

theorem shown_simplifyObject {e : Expr} (h : Shown e p) : Shown (simplifyObject e) p := by
  unfold simplifyObject
  split
  · exact View.shows_nil
  · exact h

theorem shown_headD {es : List Expr} (h : AllShown es p) : Shown (es.headD .missing) p := by
  cases es with
  | nil => exact View.shows_nil
  | cons e es => exact (allShown_cons.1 h).1

theorem allShown_drop {es : List Expr} (h : AllShown es p) : AllShown (es.drop 1) p := by
  cases es with
  | nil => exact h
  | cons e es => exact (allShown_cons.1 h).2

/-- A block shows what its statements show, and the copies that it binds. -/
theorem insertPins_spots {pins : List Pin} {ss : List Stmt} {u : Lowering} {sc : Scopes} {q : Spot}
    (hins : q.isInserted) (hq : q ∈ Stmt.allSpots sc ((insertPins pins ss).run u).1) :
    q ∈ Stmt.allSpots sc ss ∨ (q.role = .binder ∧ ∃ p ∈ pins, p.ident = q.ident) := by
  rw [insertPins_run, Stmt.allSpots_append, mem_append] at hq
  obtain hq | hq := hq
  · obtain ⟨hrole, p, hp, hid⟩ := Pin.mem_spots_stmts hins hq
    exact .inr ⟨hrole, p, Pin.place_rest_subset _ _ hp, hid⟩
  · exact Pin.mem_spots_place hins hq

theorem placePins_keeps (pins : List Pin) (ss : List Stmt) (s : Lowering) :
    s.Keeps ((placePins pins ss).run s).2 := by
  rw [placePins]
  dsimp only
  split
  · exact giveUp_keeps s
  · exact .refl s

/-- What lowering the statements `ss` of a Do body gives, when the copies of `ds` are still to be
placed: their piece up to the next bind, and the pins that found no place. -/
structure Chained (env : Env) (o : List (DeclId × Ident)) (ds : List DeclId) (ss : List Stmt)
    (r : List Stmt × List Pin × Bool) (p : View) : Prop where
  shown : View.Shows (fun sc q => p sc q ∨ q.BindsCopy o (env.placed ds ss))
    (Stmt.allSpots · r.1)
  scope : ∀ x, x ∈ Stmt.scope true r.1 ↔
    x ∈ Stmt.segment ss ∨ ∃ d id, (d, id) ∈ o ∧ d ∈ env.placed ds ss ∧ id.name = x
  left : Pin.Copies env o (env.unplaced ds ss) r.2.1
  settled : r.2.2 = ! hasBind ss

namespace Chained

variable {env : Env} {o : List (DeclId × Ident)} {ds : List DeclId} {s : Stmt} {ss : List Stmt}
  {r : List Stmt × List Pin × Bool} {p : View}

theorem nil {pins : List Pin} (hpins : Pin.Copies env o ds pins) :
    Chained env o ds [] ([], pins, true) p where
  shown sc q hq := absurd hq not_mem_nil
  scope x := by simp [Stmt.scope, Stmt.allHoisted, Stmt.segment, Env.placed]
  left := by simpa [Env.unplaced] using hpins
  settled := rfl

theorem left_cons (h : Chained env o (ds.filter (! env.copies s ·)) ss r p) :
    Pin.Copies env o (env.unplaced ds (s :: ss)) r.2.1 := by
  intro pin
  simp only [h.left pin, Env.mem_unplaced_cons]

/-- The body of a Do call binds its first piece and the copies that found no place. -/
theorem body (h : Chained env o ds ss r p) :
    ∃ frames : Scopes,
      (∀ x, x ∈ frames.flatten ↔ x ∈ Stmt.segment ss ∨
        ∃ d id, (d, id) ∈ o ∧ d ∈ env.unplaced ds ss ++ env.placed ds ss ∧ id.name = x) ∧
      Shown (bodyValue (r.2.1.map Pin.stmt ++ r.1)) fun sc q =>
        p (frames ++ sc) q ∨ q.BindsCopy o (env.unplaced ds ss ++ env.placed ds ss) := by
  obtain ⟨frames, hnames, hspots⟩ := bodyValue_spots (r.2.1.map Pin.stmt ++ r.1)
  refine ⟨frames, fun x => ?_, fun sc q hq hins => ?_⟩
  · rw [hnames, Stmt.mem_scope_append, Pin.mem_scope_stmts, h.scope, h.left.names]
    grind
  · have hq := hspots sc q hq
    rw [Stmt.allSpots_append, mem_append] at hq
    obtain hq | hq := hq
    · exact .inr ((h.left.binds (Pin.mem_spots_stmts hins hq)).mono (subset_append_left _ _))
    · exact (h.shown _ q hq hins).imp_right (·.mono (subset_append_right _ _))

/-- A continuation binds the name before it, its piece and the copies in it. -/
theorem continued (hs : ∀ id ∈ s.boundName?.toList, id.mark = none) {now : List Pin}
    (hnow : Pin.Copies env o (ds.filter (env.copies s)) now)
    (h : Chained env o (ds.filter (! env.copies s ·)) ss r p) :
    ∃ frames : Scopes,
      (∀ x, x ∈ frames.flatten ↔ x ∈ namesOf [s.boundName?] ++ Stmt.segment ss ∨
        ∃ d id, (d, id) ∈ o ∧ d ∈ ds.filter (env.copies s) ++
          env.placed (ds.filter (! env.copies s ·)) ss ∧ id.name = x) ∧
      Shown (continuation s.boundName?.toList (now.map Pin.stmt ++ r.1)) fun sc q =>
        p (frames ++ sc) q ∨ q.BindsCopy o (ds.filter (env.copies s) ++
          env.placed (ds.filter (! env.copies s ·)) ss) := by
  obtain ⟨frames, hnames, hspots⟩ := continuation_spots hs (now.map Pin.stmt ++ r.1)
  have hbound : s.boundName?.toList.map (·.name) = namesOf [s.boundName?] := by
    cases s.boundName? <;> rfl
  refine ⟨frames, fun x => ?_, fun sc q hq hins => ?_⟩
  · rw [hnames, hbound, Stmt.mem_scope_append, Pin.mem_scope_stmts, h.scope, hnow.names]
    grind
  · have hq := hspots sc q hins hq
    rw [Stmt.allSpots_append, mem_append] at hq
    obtain hq | hq := hq
    · exact .inr ((hnow.binds (Pin.mem_spots_stmts hins hq)).mono (subset_append_left _ _))
    · exact (h.shown _ q hq hins).imp_right (·.mono (subset_append_right _ _))

/-- A bind ends the piece. -/
theorem ended {step : Expr} {left : List Pin} (hends : s.endsSegment ss)
    (hleft : Pin.Copies env o (env.unplaced ds (s :: ss)) left) (hstep : Shown step p) :
    Chained env o ds (s :: ss) ([.returning step], left, false) p where
  shown sc q hq hins :=
    .inl (hstep sc q ((mem_append.1 hq).resolve_right not_mem_nil) hins)
  scope x := by
    simp [Stmt.scope, Stmt.allHoisted, Stmt.segment, Env.placed, hends, Stmt.returning,
      Stmt.lexical, Stmt.hoisted]
  left := hleft
  settled := by
    simp only [Stmt.endsSegment, Bool.or_eq_true] at hends
    grind [hasBind]

/-- Any other statement and the copies behind it extend the piece. -/
theorem extended (hends : s.endsSegment ss = false) {now : List Pin} {s' : Stmt} {p' : View}
    (hnow : Pin.Copies env o (ds.filter (env.copies s)) now)
    (h : Chained env o (ds.filter (! env.copies s ·)) ss r p)
    (hscope : Stmt.scope true [s'] = Stmt.scope true [s]) (hs : p'.Shows (Stmt.spots · s')) :
    Chained env o ds (s :: ss) (s' :: (now.map Pin.stmt ++ r.1), r.2)
      (fun sc q => p sc q ∨ p' sc q) where
  shown sc q hq hins := by
    have hpins (hq) := hnow.binds (@Pin.mem_spots_stmts now sc q hins hq)
    simp only [Stmt.allSpots, Stmt.allSpots_append, mem_append] at hq
    have hrest := h.shown sc q
    have hstmt := hs sc q
    grind [Spot.BindsCopy, Env.placed]
  scope x := by
    rw [Stmt.mem_scope_cons, Stmt.mem_scope_append, Pin.mem_scope_stmts, hscope, h.scope,
      Stmt.segment, Env.placed]
    simp only [hends, Bool.false_eq_true, if_false, mem_append]
    rw [hnow.names]
    grind
  left := h.left_cons
  settled := by
    rw [h.settled, hasBind]
    simp only [Stmt.endsSegment, Bool.or_eq_false_iff] at hends
    simp [hends.1, hends.2]

end Chained

mutual

theorem expr_laid {env : Env} : ∀ e : Expr,
    env.Plain own e.idents → ∀ {o}, Laid own o (e.events env) Shown (expr env e)
  | .missing, _, _ | .number .., _, _ | .string .., _, _ | .bool .., _, _ | .this _, _, _
  | .super _, _, _ => .pure View.shows_nil
  | .ident id, h, _ => name_laid (h.idents id (by simp)).1
  | .prop i facts x n opt, h, o => by
    simp only [Expr.idents_prop, Env.gives_append] at h
    have hx := expr_laid x h.1 (o := o)
    have hprop : Laid own o (x.events env) Shown
        (do return Expr.prop i facts (← expr env x) n opt : Lower Expr) :=
      hx.finish fun x' p hx' sc q hq hins => by
        grind
    rw [expr, Expr.events]
    split
    · exact hx
    · cases facts.signature with
      | none => exact hprop
      | some s =>
        dsimp only
        cases s.kind with
        | static => exact extensionReference_laid env s i.token
        | getter =>
          refine hx.bind fun x' p hx' => ?_
          rw [← append_nil (env.declEvents s.decl)]
          refine (extensionReference_laid env s i.token).bind fun fn p' hfn => ?_
          have hobject := allShown_singleton (shown_simplifyObject hx')
          exact (withTrace_laid h.1.unmarked s i.token hobject).finish
            fun as p'' has sc q hq hins => by grind
        | _ => exact hprop
  | .elem i facts x y, h, o => by
    simp only [Expr.idents_elem, Env.gives_append] at h
    rw [expr, Expr.events]
    refine (expr_laid x h.1).bind fun x' p hx => ?_
    refine (expr_laid y h.2).bind fun y' p' hy => ?_
    have helem : Laid own o [] (fun e p'' => Shown e fun sc q => p sc q ∨ p' sc q ∨ p'' sc q)
        (Pure.pure (Expr.elem i facts x' y')) :=
      .pure fun sc q hq hins => by grind
    cases facts.signature with
    | none => exact helem
    | some s =>
      dsimp only
      split
      · refine (extensionReference_laid env s i.token).finish fun fn p'' hfn sc q hq hins => ?_
        rw [extensionCall, extensionCallTyped] at hq
        split at hq <;>
          grind
      · exact helem
  | .call i facts callee ts args, h, o => by
    simp only [Expr.idents_call, Env.gives_append] at h
    have hcallee := expr_laid callee h.1 (o := o)
    have hargs := arguments_laid args h.2 (o := o)
    -- A call that stays a call, of whatever callee and arguments.
    have hkeep {c : Expr} {as : List Expr} {p p' : View} (hc : Shown c p) (has : AllShown as p') :
        Laid own o (env.completeEvents facts args)
          (fun e p'' => Shown e fun sc q => p sc q ∨ p' sc q ∨ p'' sc q)
          (do return Expr.call i facts c ts (← complete env i.token facts args as) : Lower Expr) :=
      (complete_laid h.1.unmarked i.token facts args has).finish fun as' p'' has' sc q hq hins => by
        grind
    rw [expr, Expr.events]
    cases hroute : callRoute env.compilation facts callee args with
    | plain => exact hcallee.bind fun c p hc => hargs.bind fun as p' has => hkeep hc has
    | pipe => exact stagesOf_laid args h.2
    | identity => exact only_laid args h.2
    | remove => exact .pure (shown_unmarked (by simp))
    | derive => exact derive_laid env facts.derivation i.token
    | fuse target =>
      dsimp only
      cases hkept : callee.isKept env.compilation with
      | true =>
        have hfits := callRoute_fits env.compilation facts callee args
        rw [hroute] at hfits
        obtain ⟨arg, rfl⟩ := hfits
        refine (hcallee.fact (fun e => ∃ j g c ts as, e = .call j g c ts as)
          (expr_isCall env hkept)).bind fun c p hc => ?_
        refine (hargs.fact (fun as => ∃ a, as = [a]) fun s => ⟨_, rfl⟩).bind fun as p' has => ?_
        obtain ⟨⟨j, g, dead, ts', as', rfl⟩, hc⟩ := hc
        obtain ⟨⟨a, rfl⟩, ha⟩ := has
        have has' : AllShown as' p := fun sc q hq => hc sc q (mem_append_right _ hq)
        dsimp only
        rw [if_pos rfl, if_pos rfl]
        refine (dataFirstCall_laid env target i.token (allShown_cons.1 ha).1 has').followed
          (fun _ => retract_keeps env dead) fun fused p'' _ hfused => hfused.mono fun sc q hq => ?_
        grind
      | false =>
        refine hcallee.bind fun c p hc => hargs.bind fun as p' has => ?_
        simp only [Bool.false_eq_true, if_false]
        split <;> exact hkeep hc has
    | chain map flatMap => exact doArgument_laid map flatMap args h.2
    | extension s =>
      refine hcallee.bind fun dead p _ => ?_
      refine (extensionReference_laid env s i.token).bind fun fn p' hfn => ?_
      refine .skip (retract_keeps env dead) (hargs.bind fun as p'' has => ?_)
      exact (hkeep hfn has).mono fun e r he => he.mono fun sc q hq => .inr hq
    | unresolved =>
      refine .skip (unresolvedCall_keeps env i.token callee) (.pure (shown_unmarked ?_))
      simp only [Expr.idents_call, forall_mem_append]
      exact ⟨fun id hid => (h.1.idents id hid).1, fun id hid => (h.2.idents id hid).1⟩
    | method s =>
      refine Laid.bind ((objectOf_laid callee h.1).loosen
        fun _ _ hx => shown_thunkIf hx callee.accessed.lazy) fun x p hx => ?_
      refine (exprs_laid args h.2).bind fun as p' has => ?_
      exact callExtension_laid h.1.unmarked s i.token ts hx has
    | function s =>
      -- The receiver may be put into a function, the other arguments are not.
      have hreceiver : Laid own o (Expr.allEvents env args)
          (fun as p => Shown (thunkIf (args.headD .missing).lazy (as.headD .missing)) p ∧
            AllShown (as.drop 1) p) (exprs env args) :=
        (exprs_laid args h.2).loosen fun as p has =>
          ⟨shown_thunkIf (shown_headD has) _, (allShown_drop has).mono fun _ _ => .inl⟩
      refine hreceiver.bind fun as p has => ?_
      refine (callExtension_laid h.1.unmarked s i.token ts has.1 has.2).mono fun e p' he =>
        he.mono fun sc q hq => ?_
      grind
    | methodPipe =>
      exact (objectOf_laid callee h.1).bind fun x p hx => stages_laid args h.2 hx
  | .new i callee ts args, h, o => by
    simp only [Expr.idents_new, Env.gives_append] at h
    rw [expr, Expr.events]
    refine (expr_laid callee h.1).bind fun c p hc => ?_
    refine (exprs_laid args h.2).finish fun as p' has sc q hq hins => ?_
    grind
  | .binary i facts l op r, h, o => by
    simp only [Expr.idents_binary, Env.gives_append] at h
    have hl := expr_laid l h.1 (o := o)
    have hr := expr_laid r h.2 (o := o)
    have hbinary : Laid own o (l.events env ++ r.events env) Shown
        (do
          let l ← expr env l
          return Expr.binary i facts l op (← expr env r) : Lower Expr) :=
      hl.bind fun l' p hl' => hr.finish fun r' p' hr' sc q hq hins => by
        grind
    rw [expr, Expr.events]
    split
    · refine hl.bind fun first p hfirst => ?_
      cases r.dataFirst? with
      | some target =>
        refine (callArguments_laid r h.2).bind fun as p' has => ?_
        exact dataFirstCall_laid env target r.token hfirst has
      | none =>
        refine hr.finish fun fn p' hfn sc q hq hins => ?_
        grind
    · cases facts.signature with
      | none => exact hbinary
      | some s =>
        dsimp only
        split
        · cases env.compilation.operatorDeclaration? s.decl with
          | none =>
            refine .skip (fail_keeps env _) (.pure (shown_unmarked ?_))
            simp only [Expr.idents_binary, forall_mem_append]
            exact ⟨fun id hid => (h.1.idents id hid).1, fun id hid => (h.2.idents id hid).1⟩
          | some d =>
            refine Laid.bind (hl.loosen fun _ _ hl' => shown_thunkIf hl' l.lazy) fun l' p hl' => ?_
            refine Laid.bind (hr.loosen fun _ _ hr' => shown_thunkIf hr' r.lazy) fun r' p' hr' => ?_
            rw [← append_nil (env.declarationEvents _)]
            refine (declarationReference_laid env (some d) i.token).bind fun fn p'' hfn => ?_
            refine (withTrace_laid h.1.unmarked s i.token (allShown_singleton hr')).finish
              fun as r has sc q hq hins => ?_
            rw [extensionCall, extensionCallTyped] at hq
            split at hq <;>
              grind
        · exact hbinary
  | .unary _ _ e, h, _ | .paren _ e, h, _ | .void _ e, h, _ | .spread _ e, h, _ => by
    rw [expr, Expr.events]
    exact (expr_laid e (by simpa using h)).finish fun _ _ he => he
  | .cond i c t e, h, _ => by
    simp only [Expr.idents_cond, Env.gives_append] at h
    rw [expr, Expr.events]
    refine (expr_laid c h.1.1).bind fun c' p hc => ?_
    refine (expr_laid t h.1.2).bind fun t' p' ht => ?_
    refine (expr_laid e h.2).finish fun e' p'' he sc q hq hins => ?_
    grind
  | .array i es, h, _ => by
    rw [expr, Expr.events]
    exact (exprs_laid es (by simpa using h)).finish fun _ _ hes => hes
  | .object i ps, h, _ => by
    rw [expr, Expr.events]
    exact (properties_laid ps (by simpa using h)).finish fun _ _ hps => hps
  | .arrow i ps b e, h, o => by
    simp only [Expr.idents_arrow, Env.gives_append] at h
    rw [expr, Expr.events]
    refine Laid.inside (P := fun e p => Shown e fun sc q => p (Param.bound ps :: sc) q) ?_
      (bound_own h.1.1) fun _ _ h => h
    refine ((params_laid ps (h.1.1.inside h.1.1)).fact (Param.bound · = Param.bound ps)
      (params_bound _ ps)).bind fun ps' p hps => ?_
    obtain ⟨hbound, hps⟩ := hps
    refine ((block_laid b (h.1.1.inside h.1.2) true).fact (·.isMissing = b.isMissing)
      (block_isMissing _ b)).bind fun b' p' hb => ?_
    obtain ⟨hmissing, hb⟩ := hb
    split
    · refine (expr_laid e (h.1.1.inside h.2)).finish fun e' p'' he sc q hq hins => ?_
      simp only [Expr.spots, hbound, hmissing] at hq
      grind
    · refine .pure fun sc q hq hins => ?_
      simp only [Expr.spots, hbound, hmissing] at hq
      grind
  | .func i self ps b, h, o => by
    simp only [Expr.idents_func, Env.gives_append] at h
    have hself : namesOf [self] ⊆ own := by
      intro x hx
      obtain ⟨id, hid, rfl⟩ := mem_namesOf_idents hx
      exact (h.1.1.idents id (by simpa using (mem_singleton.1 hid).symm)).2
    rw [expr, Expr.events]
    refine Laid.inside (P := fun e p => Shown e fun sc q => p (namesOf [self] :: sc) q) ?_ hself
      fun _ _ h => h
    refine Laid.inside
      (P := fun e p => Shown e fun sc q => p (Param.bound ps :: namesOf [self] :: sc) q) ?_
      (bound_own h.1.2) fun _ _ h => h
    refine ((params_laid ps (h.1.2.inside h.1.2)).fact (Param.bound · = Param.bound ps)
      (params_bound _ ps)).bind fun ps' p hps => ?_
    obtain ⟨hbound, hps⟩ := hps
    refine (block_laid b (h.1.2.inside h.2) true).finish fun b' p' hb sc q hq hins => ?_
    simp only [Expr.spots, hbound] at hq
    grind

theorem exprs_laid {env : Env} :
    ∀ es : List Expr, env.Plain own (es.flatMap Expr.idents) → ∀ {o},
      Laid own o (Expr.allEvents env es) AllShown (exprs env es)
  | [], _, _ => .pure View.shows_nil
  | e :: es, h, _ => by
    simp only [flatMap_cons, Env.gives_append] at h
    rw [exprs, Expr.allEvents]
    refine (expr_laid e h.1).bind fun e' p he => ?_
    refine (exprs_laid es h.2).finish fun es' p' hes => ?_
    exact he.append hes

theorem arguments_laid {env : Env} :
    ∀ es : List Expr, env.Plain own (es.flatMap Expr.idents) → ∀ {o},
      Laid own o (Expr.allEvents env es) AllShown (arguments env es)
  | [], _, _ => .pure View.shows_nil
  | e :: es, h, _ => by
    simp only [flatMap_cons, Env.gives_append] at h
    rw [arguments, Expr.allEvents]
    refine Laid.bind ((expr_laid e h.1).loosen fun _ _ he => shown_thunkIf he e.lazy)
      fun e' p he => ?_
    refine (arguments_laid es h.2).finish fun es' p' hes => ?_
    exact he.append hes

theorem only_laid {env : Env} :
    ∀ es : List Expr, env.Plain own (es.flatMap Expr.idents) → ∀ {o},
      Laid own o (Expr.onlyEvents env es) Shown (only env es)
  | [], _, _ | _ :: _ :: _, _, _ => .pure View.shows_nil
  | [e], h, _ => expr_laid e (by simpa using h)

theorem callArguments_laid {env : Env} :
    ∀ e : Expr, env.Plain own e.idents → ∀ {o},
      Laid own o (e.argumentEvents env) AllShown (callArguments env e) := by
  intro e h o
  cases e with
  | call _ _ c _ as =>
    simp only [Expr.idents_call, Env.gives_append] at h
    exact exprs_laid as h.2
  | _ => exact .pure View.shows_nil

theorem objectOf_laid {env : Env} : ∀ e : Expr,
    env.Plain own e.idents → ∀ {o}, Laid own o (e.objectEvents env) Shown (objectOf env e) := by
  intro e h o
  cases e with
  | prop _ _ x _ _ =>
    simp only [Expr.idents_prop, Env.gives_append] at h
    exact expr_laid x h.1
  | _ => exact .pure View.shows_nil

theorem stagesOf_laid {env : Env} :
    ∀ es : List Expr, env.Plain own (es.flatMap Expr.idents) → ∀ {o},
      Laid own o (Expr.pipeEvents env es) Shown (stagesOf env es)
  | [], _, _ => .pure View.shows_nil
  | e :: es, h, _ => by
    simp only [flatMap_cons, Env.gives_append] at h
    rw [stagesOf, Expr.pipeEvents]
    exact (expr_laid e h.1).bind fun acc p hacc => stages_laid es h.2 hacc

theorem stages_laid {env : Env} :
    ∀ es : List Expr, env.Plain own (es.flatMap Expr.idents) →
      ∀ {o} {acc : Expr} {p : View}, Shown acc p →
        Laid own o (Expr.stageEvents env es) (fun e p' => Shown e fun sc q => p sc q ∨ p' sc q)
          (stages env acc es)
  | [], _, _, _, _, hacc => .pure (hacc.mono fun _ _ => .inl)
  | e :: es, h, o, acc, p, hacc => by
    simp only [flatMap_cons, Env.gives_append] at h
    rw [stages, Expr.stageEvents]
    cases e.dataFirst? with
    | some target =>
      dsimp only
      rw [append_assoc]
      refine (callArguments_laid e h.1).bind fun as p' has => ?_
      refine (dataFirstCall_laid env target e.token hacc has).bind fun acc' p'' hacc' => ?_
      refine (stages_laid es h.2 hacc').mono fun e' r he => he.mono fun sc q hq => ?_
      grind
    | none =>
      refine (expr_laid e h.1).bind fun fn p' hfn => ?_
      have hacc' : Shown (fn.apply [acc]) fun sc q => p sc q ∨ p' sc q := by
        intro sc q hq hins
        grind
      refine (stages_laid es h.2 hacc').mono fun e' p'' he => he.mono fun sc q hq => ?_
      exact or_assoc.1 hq

theorem properties_laid {env : Env} :
    ∀ ps : List Property, env.Plain own (ps.flatMap Property.idents) → ∀ {o},
      Laid own o (Property.allEvents env ps) (fun ps' p => p.Shows (Property.allSpots · ps'))
        (properties env ps)
  | [], _, _ => .pure View.shows_nil
  | x :: ps, h, _ => by
    simp only [flatMap_cons, Env.gives_append] at h
    rw [properties, Property.allEvents]
    refine (property_laid x h.1).bind fun x' p hx => ?_
    refine (properties_laid ps h.2).finish fun ps' p' hps => ?_
    exact hx.append hps

theorem property_laid {env : Env} :
    ∀ x : Property, env.Plain own x.idents → ∀ {o},
      Laid own o (x.events env) (fun x' p => p.Shows (Property.spots · x')) (property env x)
  | .assign t k v, h, o => by
    simp only [Property.idents_assign, Env.gives_append] at h
    have hv := expr_laid v h.2 (o := o)
    rw [property, Property.events]
    dsimp only
    split
    · rename_i hliteral
      refine hv.finish fun v' p hv' sc q hq hins => ?_
      grind [Property.spots]
    · refine (expr_laid k h.1).bind fun k' p hk => hv.finish fun v' p' hv' sc q hq hins => ?_
      grind [Property.spots]
  | .shorthand t id, h, _ => shorthand_laid t fun i hi => (h.idents i (by simpa using hi)).1
  | .spread t e, h, _ => by
    rw [property, Property.events]
    exact (expr_laid e (by simpa using h)).finish fun _ _ he => he

theorem params_laid {env : Env} :
    ∀ ps : List Param, env.Plain own (ps.flatMap Param.idents) → ∀ {o},
      Laid own o (Param.allEvents env ps) (fun ps' p => p.Shows (Param.allSpots · ps'))
        (params env ps)
  | [], _, _ => .pure View.shows_nil
  | x :: ps, h, _ => by
    simp only [flatMap_cons, Env.gives_append] at h
    rw [params, Param.allEvents]
    refine (param_laid x h.1).bind fun x' p hx => ?_
    refine (params_laid ps h.2).finish fun ps' p' hps => ?_
    exact hx.append hps

theorem param_laid {env : Env} :
    ∀ x : Param, env.Plain own x.idents → ∀ {o},
      Laid own o (x.events env) (fun x' p => p.Shows (Param.spots · x')) (param env x)
  | .mk t n ty opt rest e, h, _ => by
    simp only [Param.idents_mk, Env.gives_append] at h
    rw [param, Param.events]
    refine (expr_laid e h.2).finish fun e' p he sc q hq hins => ?_
    grind [Param.spots]

theorem block_laid {env : Env} :
    ∀ b : Block, env.Plain own b.idents → ∀ (body : Bool) {o},
      Laid own o (b.events env body) (fun b' p => p.Shows (Block.spots · body b')) (block env b)
  | .missing, _, _, _ => .pure View.shows_nil
  | .mk t unique ss, h, body, o => by
    rw [Block.idents_mk] at h
    rw [block_mk, Block.events]
    refine Laid.listing fun new pins hpins => ?_
    refine Laid.frame (P := fun b p => ∃ out, b = .mk t unique out ∧
      (∀ x, x ∈ Stmt.scope body out ↔
        x ∈ Stmt.scope body ss ∨ ∃ d id, (d, id) ∈ new ∧ d ∈ unique ∧ id.name = x) ∧
      View.Shows (fun sc q => p sc q ∨ q.BindsCopy new unique) (Stmt.allSpots · out))
      ?_ (fun x hx => ?_) ?_
    · refine ((stmts_laid ss h).fact (fun ss' => Stmt.scope body ss' = Stmt.scope body ss)
        (stmts_scope env body ss)).followed (fun ss' => placePins_keeps pins ss') ?_
      rintro ss' p u ⟨hscope, hss⟩
      refine ⟨((insertPins pins ss').run u).1, rfl, fun x => ?_, fun sc q hq hins => ?_⟩
      · rw [mem_scope_insertPins, hscope, hpins.names]
      · exact (insertPins_spots hins hq).imp (hss sc q · hins) hpins.binds
    · obtain ⟨id, hid, rfl⟩ := Stmt.scope_idents hx
      exact (h.idents id hid).2
    · rintro _ p ⟨out, rfl, hscope, hout⟩
      exact ⟨[Stmt.scope body out], by simpa using hscope, fun sc q hq hins => hout _ q hq hins⟩

theorem stmts_laid {env : Env} :
    ∀ ss : List Stmt, env.Plain own (ss.flatMap Stmt.idents) → ∀ {o},
      Laid own o (Stmt.allEvents env ss) (fun ss' p => p.Shows (Stmt.allSpots · ss')) (stmts env ss)
  | [], _, _ => .pure View.shows_nil
  | s :: ss, h, _ => by
    simp only [flatMap_cons, Env.gives_append] at h
    rw [stmts, Stmt.allEvents]
    refine (stmt_laid s h.1).bind fun s' p hs => ?_
    refine (stmts_laid ss h.2).finish fun ss' p' hss => ?_
    exact hs.append hss

theorem stmt_laid {env : Env} :
    ∀ s : Stmt, env.Plain own s.idents → ∀ {o},
      Laid own o (s.events env) (fun s' p => p.Shows (Stmt.spots · s')) (stmt env s)
  | .missing, _, _ => .pure View.shows_nil
  | .block b, h, _ => by
    rw [stmt, Stmt.events]
    exact (block_laid b h false).finish fun _ _ hb => hb
  | .expr _ e, h, _ | .ret _ e, h, _ | .throw _ e, h, _ => by
    rw [stmt, Stmt.events]
    exact (expr_laid e (by simpa using h)).finish fun _ _ he => he
  | .cond t c y n, h, _ => by
    simp only [Stmt.idents_cond, Env.gives_append] at h
    rw [stmt, Stmt.events]
    refine (expr_laid c h.1.1).bind fun c' p hc => ?_
    refine (stmt_laid y h.1.2).bind fun y' p' hy => ?_
    refine (stmt_laid n h.2).finish fun n' p'' hn sc q hq hins => ?_
    grind [Stmt.spots]
  | .varDecl t x k ds, h, _ => by
    rw [stmt, Stmt.events]
    exact (declarators_laid ds (by simpa using h)).finish fun _ _ hds => hds
  | .funcDecl t x n ps r b, h, o => by
    simp only [Stmt.idents_funcDecl, Env.gives_append] at h
    rw [stmt, Stmt.events]
    refine function_laid (bound_own h.1.2) (params_laid ps (h.1.2.inside h.1.2))
      (block_laid b (h.1.2.inside h.2) true) fun ps' b' sc q hbound hq hins => ?_
    simp only [Stmt.spots, hbound] at hq
    grind
  | .classDecl t x n e ms, h, _ => by
    simp only [Stmt.idents_classDecl, Env.gives_append] at h
    rw [stmt, Stmt.events]
    refine (expr_laid e h.1.2).bind fun e' p he => ?_
    refine (members_laid ms h.2).finish fun ms' p' hms sc q hq hins => ?_
    grind [Stmt.spots]
  | .importDecl t sp d ns m, _, _ | .exportDecl t ns, _, _ => .pure fun sc q hq hins => by
    grind [Stmt.spots]

theorem declarators_laid {env : Env} :
    ∀ ds : List Declarator, env.Plain own (ds.flatMap Declarator.idents) → ∀ {o},
      Laid own o (Declarator.allEvents env ds) (fun ds' p => p.Shows (Declarator.allSpots · ds'))
        (declarators env ds)
  | [], _, _ => .pure View.shows_nil
  | d :: ds, h, _ => by
    simp only [flatMap_cons, Env.gives_append] at h
    rw [declarators, Declarator.allEvents]
    refine (declarator_laid d h.1).bind fun d' p hd => ?_
    refine (declarators_laid ds h.2).finish fun ds' p' hds => ?_
    exact hd.append hds

theorem declarator_laid {env : Env} :
    ∀ d : Declarator, env.Plain own d.idents → ∀ {o},
      Laid own o (d.events env) (fun d' p => p.Shows (Declarator.spots · d')) (declarator env d)
  | .mk t n ty e, h, _ => by
    simp only [Declarator.idents_mk, Env.gives_append] at h
    rw [declarator, Declarator.events]
    refine (expr_laid e h.2).finish fun e' p he sc q hq hins => ?_
    grind [Declarator.spots]

theorem members_laid {env : Env} :
    ∀ ms : List Member, env.Plain own (ms.flatMap Member.idents) → ∀ {o},
      Laid own o (Member.allEvents env ms) (fun ms' p => p.Shows (Member.allSpots · ms'))
        (members env ms)
  | [], _, _ => .pure View.shows_nil
  | m :: ms, h, _ => by
    simp only [flatMap_cons, Env.gives_append] at h
    rw [members, Member.allEvents]
    refine (member_laid m h.1).bind fun m' p hm => ?_
    refine (members_laid ms h.2).finish fun ms' p' hms => ?_
    exact hm.append hms

theorem member_laid {env : Env} :
    ∀ m : Member, env.Plain own m.idents → ∀ {o},
      Laid own o (m.events env) (fun m' p => p.Shows (Member.spots · m')) (member env m)
  | .ctor t ps b, h, o => by
    simp only [Member.idents_ctor, Env.gives_append] at h
    rw [member, Member.events]
    refine function_laid (bound_own h.1) (params_laid ps (h.1.inside h.1))
      (block_laid b (h.1.inside h.2) true) fun ps' b' sc q hbound hq hins => ?_
    simp only [Member.spots, hbound] at hq
    grind
  | .method t s n ps b, h, o => by
    simp only [Member.idents_method, Env.gives_append] at h
    rw [member, Member.events]
    refine function_laid (bound_own h.1.2) (params_laid ps (h.1.2.inside h.1.2))
      (block_laid b (h.1.2.inside h.2) true) fun ps' b' sc q hbound hq hins => ?_
    simp only [Member.spots, hbound] at hq
    grind
  | .field t s n ty e, h, _ => by
    simp only [Member.idents_field, Env.gives_append] at h
    rw [member, Member.events]
    refine (expr_laid e h.2).finish fun e' p he sc q hq hins => ?_
    grind [Member.spots]

theorem doArgument_laid {env : Env} (map flatMap : Signature) :
    ∀ es : List Expr, env.Plain own (es.flatMap Expr.idents) → ∀ {o},
      Laid own o (Expr.doEvents env map flatMap es) Shown (doArgument env map flatMap es)
  | [], _, _ | _ :: _ :: _, _, _ => .pure View.shows_nil
  | [e], h, _ => doArrow_laid map flatMap e (by simpa using h)

theorem doArrow_laid {env : Env} (map flatMap : Signature) :
    ∀ e : Expr, env.Plain own e.idents → ∀ {o},
      Laid own o (e.arrowEvents env map flatMap) Shown (doArrow env map flatMap e) := by
  intro e h o
  cases e with
  | arrow _ ps b e =>
    simp only [Expr.idents_arrow, Env.gives_append] at h
    exact doBlock_laid map flatMap b h.1.2
  | _ => exact .pure View.shows_nil

theorem doBlock_laid {env : Env} (map flatMap : Signature) :
    ∀ b : Block, env.Plain own b.idents → ∀ {o},
      Laid own o (b.doEvents env map flatMap) Shown (doBlock env map flatMap b)
  | .missing, _, _ => .pure View.shows_nil
  | .mk t unique ss, h, o => by
    rw [Block.idents_mk] at h
    rw [doBlock_mk, Block.doEvents]
    refine Laid.listing fun new pins hpins => ?_
    have hbody : Laid own new [.frame (Stmt.segment ss)
        (env.unplaced unique ss ++ env.placed unique ss)
        (Stmt.chainEvents env map flatMap unique ss)]
        (fun r p => Shown (bodyValue (r.2.1.map Pin.stmt ++ r.1)) p)
        (chain env map flatMap pins ss) := by
      refine (chain_laid map flatMap ss h hpins).frame (fun x hx => ?_)
        fun r p hr => hr.body
      obtain ⟨id, hid, rfl⟩ := Stmt.segment_idents hx
      exact (h.idents id hid).2
    dsimp only
    split
    · exact .skip giveUp_keeps (hbody.finish fun _ _ h => h)
    · exact hbody.finish fun _ _ h => h

theorem chain_laid {env : Env} (map flatMap : Signature) :
    ∀ ss : List Stmt, env.Plain own (ss.flatMap Stmt.idents) →
      ∀ {o} {ds : List DeclId} {pins : List Pin}, Pin.Copies env o ds pins →
        Laid own o (Stmt.chainEvents env map flatMap ds ss) (Chained env o ds ss)
          (chain env map flatMap pins ss)
  | [], _, o, ds, pins, hpins => .pure (.nil hpins)
  | s :: ss, h, o, ds, pins, hpins => by
    simp only [flatMap_cons, Env.gives_append] at h
    obtain ⟨hnow, hlater⟩ := hpins.after s
    have hunmarked : ∀ id ∈ s.boundName?.toList, id.mark = none := fun id hid =>
      (Tracking.boundName?_given h.1.idents id hid).1
    have hrest := chain_laid map flatMap ss h.2 hlater
    rw [chain, Stmt.chainEvents]
    cases hlast : ss.isEmpty && s.isReturnBind with
    | true =>
      simp only [Bool.and_eq_true, List.isEmpty_iff] at hlast
      obtain ⟨rfl, hret⟩ := hlast
      simp only [chain, pure_bind, if_true]
      refine (bound_laid s h.1).finish fun e p he => ?_
      have hleft : Chained env o (ds.filter (! env.copies s ·)) [] ([], (Pin.after pins s).2, true) p :=
        .nil hlater
      exact .ended (by simp [Stmt.endsSegment, hret]) hleft.left_cons he
    | false =>
      simp only [Bool.false_eq_true, if_false]
      cases hbind : s.isBind with
      | true =>
        have hends : s.endsSegment ss := by simp [Stmt.endsSegment, hbind]
        simp only [if_true]
        have hnext : Laid own o [.frame (namesOf [s.boundName?] ++ Stmt.segment ss)
            (ds.filter (env.copies s) ++ env.placed (ds.filter (! env.copies s ·)) ss)
            (Stmt.chainEvents env map flatMap (ds.filter (! env.copies s ·)) ss)]
            (fun r p => Shown
                (continuation s.boundName?.toList ((Pin.after pins s).1.map Pin.stmt ++ r.1)) p ∧
              Pin.Copies env o (env.unplaced ds (s :: ss)) r.2.1 ∧ r.2.2 = ! hasBind ss)
            (chain env map flatMap (Pin.after pins s).2 ss) := by
          refine hrest.frame (fun x hx => ?_) fun r p hr => ?_
          · obtain hx | hx := mem_append.1 hx
            · obtain ⟨id, hid, rfl⟩ := mem_namesOf_idents hx
              have hbound := Tracking.boundName?_given h.1.idents id
              exact (hbound (by simpa using (mem_singleton.1 hid).symm)).2
            · obtain ⟨id, hid, rfl⟩ := Stmt.segment_idents hx
              exact (h.2.idents id hid).2
          · obtain ⟨frames, hnames, hshown⟩ := hr.continued hunmarked hnow
            exact ⟨frames, hnames, hshown, hr.left_cons, hr.settled⟩
        refine hnext.bind fun ⟨rest, left, settled⟩ p ⟨hcont, hleft, hsettled⟩ => ?_
        refine (bound_laid s h.1).bind fun effect p' heffect => ?_
        dsimp only at hsettled
        have hsig : (if settled then map else flatMap) = if hasBind ss then flatMap else map := by
          rw [hsettled]
          cases hasBind ss <;> rfl
        rw [hsig]
        refine (callExtension_laid h.1.unmarked _ s.boundExpr.token [] heffect
          (allShown_singleton hcont)).finish fun step p'' hstep => ?_
        exact .ended hends hleft (hstep.mono fun sc q hq => by grind)
      | false =>
        have hends : s.endsSegment ss = false := by simp [Stmt.endsSegment, hlast, hbind]
        simp only [Bool.false_eq_true, if_false]
        refine hrest.bind fun ⟨rest, left, settled⟩ p hr => ?_
        refine ((stmt_laid s h.1).fact
          (fun s' => Stmt.scope true [s'] = Stmt.scope true [s]) fun u => ?_).finish
            fun s' p' ⟨hscope, hs⟩ => ?_
        · exact stmts_scope env true [s] u
        · exact .extended hends hnow hr hscope hs

theorem bound_laid {env : Env} : ∀ s : Stmt,
    env.Plain own s.idents → ∀ {o}, Laid own o (s.boundEvents env) Shown (bound env s)
  | .varDecl _ _ _ [.mk _ name _ e], h, _ => by
    simp only [Stmt.idents_varDecl, flatMap_singleton, Declarator.idents_mk,
      Env.gives_append] at h
    exact boundArgument_laid e h.2
  | .expr _ e, h, _ | .ret _ e, h, _ => boundArgument_laid e (by simpa using h)
  | .varDecl _ _ _ [], _, _ | .varDecl _ _ _ (.mk .. :: _ :: _), _, _ | .missing, _, _
  | .block _, _, _ | .throw .., _, _ | .cond .., _, _ | .funcDecl .., _, _ | .classDecl .., _, _
  | .importDecl .., _, _ | .exportDecl .., _, _ => .pure View.shows_nil

theorem boundArgument_laid {env : Env} :
    ∀ e : Expr, env.Plain own e.idents → ∀ {o},
      Laid own o (e.effectEvents env) Shown (boundArgument env e) := by
  intro e h o
  cases e with
  | call _ _ c _ as =>
    simp only [Expr.idents_call, Env.gives_append] at h
    exact only_laid as h.2
  | _ => exact .pure View.shows_nil

end

/-- Imports are left as they are, so their names may be marked. -/
theorem topLevel_laid (env : Env) (henv : env.TraceIs (Ident.Plain own)) {ss : List Stmt}
    (h : ∀ s ∈ ss, s.isImport = false → ∀ id ∈ s.idents, id.Plain own) :
    Laid own o (Stmt.allEvents env ss) (fun ss' p => p.Shows (Stmt.allSpots · ss'))
      (stmts env ss) := by
  induction ss with
  | nil => exact .pure View.shows_nil
  | cons s ss ih =>
    have hs : Laid own o (s.events env) (fun s' p => p.Shows (Stmt.spots · s')) (stmt env s) := by
      cases himport : s.isImport with
      | false => exact stmt_laid s ⟨henv, h s mem_cons_self himport⟩
      | true =>
        cases s with
        | importDecl =>
          exact .pure fun sc q hq hins => by grind [Stmt.spots]
        | _ => cases himport
    rw [stmts, Stmt.allEvents]
    refine hs.bind fun s' p hs => ?_
    refine (ih fun s hs => h s (mem_cons_of_mem _ hs)).finish fun ss' p' hss => ?_
    exact hs.append hss

end Lower

/-! ## Files -/

theorem File.markImports_events (env : Env) (f : File) : f.markImports.events env = f.events env := by
  have hflat (ss : List Stmt) : Stmt.allEvents env ss = ss.flatMap (Stmt.events env) := by
    induction ss with
    | nil => rfl
    | cons s ss ih => rw [Stmt.allEvents, flatMap_cons, ih]
  rw [File.events, File.events, hflat, hflat]
  exact markImports_flatMap _ (fun _ _ _ _ _ _ => rfl) 0 f.stmts

theorem Session.env_markImports (session : Session) (f : File) :
    session.env f.markImports = session.env f :=
  rfl

/-- How a file is walked: its copies are registered, its requests laid, and the copies placed. -/
structure Session.Walks (session : Session) (f : File) (new : List (DeclId × Ident))
    (pins : List Pin) (ss : List Stmt) (s : Lowering) (p : View) : Prop where
  registers : (session.start f).Registers f.unique new s
  copies : Pin.Copies (session.env f) new f.unique pins
  /-- None of these copies stands inside a statement. -/
  lays : Lowering.Lays f.names [] s (f.events (session.env f)) p
    (session.walk f).2
  shows : p.Shows (Stmt.allSpots · ss)
  declares : ss.flatMap Aliases.declaredBy = f.stmts.flatMap Aliases.declaredBy
  hoists : Stmt.allHoisted ss = Stmt.allHoisted f.stmts
  placed : (session.walk f).1 = Pin.place pins ss

theorem Session.walk_laid (session : Session) {f : File} (hf : f.Marked) :
    ∃ new pins ss s p, session.Walks f new pins ss s p := by
  have hplain : ∀ s ∈ f.stmts, s.isImport = false → ∀ id ∈ s.idents, id.Plain f.names :=
    fun s hs himport id hid => ⟨hf.plain s hs himport id hid, mem_map_of_mem (f.mem_idents hs hid)⟩
  let pins := (Lower.registerPins (session.env f) f.unique).run (session.start f)
  let ss := (Lower.stmts (session.env f) f.stmts).run pins.2
  obtain ⟨new, hnew, hpins⟩ :=
    Lower.registerPins_spec (session.env f) f.unique (session.start f)
  obtain ⟨p, hp, hlaid⟩ :=
    Lower.topLevel_laid (session.env f) (by simp [env, Env.TraceIs]) hplain (o := []) pins.2
  exact ⟨new, pins.1, ss.1, pins.2, p, hnew, hnew.copies hpins,
    hlaid.followed (Lower.placePins_keeps _ _ _), hp, Lower.stmts_declaredBy ..,
    Lower.stmts_hoisted .., (Lower.placePins_run _ _ ss.2).1⟩

end ExtensionLowering
