import ExtensionLowering.Proofs.Lowering.DoBlock
import ExtensionLowering.Proofs.Lowering.Laziness
import ExtensionLowering.Proofs.Lowering.Marked
import ExtensionLowering.Proofs.Name.Hygiene
import ExtensionLowering.Proofs.Tree.Preorder
/-!
# The parameter of a Do block

The body of a Do block binds effects by calling the parameter of its arrow function. Lowering drops
the arrow function, so no call of the parameter should be left. The binds it recognises are gone; a
bind in a statement that is read as it is, such as one of two in a declaration or one that is
returned before the end, is left over.

## Main definitions

* `Stmt.OnlyBinds` — a name stands in a statement only as what a bind calls.
* `Env.LeavesOver` — a name is left that lowering has not put there.

## Main statements

* `Lower.do_parameter_released` — the parameter is left over only where a statement that is read as
  it is has it; a call that is not lowered keeps its arrow function.
* `Lower.do_parameter_left_over` — two binds in one declaration are left over.
-/
namespace ExtensionLowering

open List

variable {x : String} {env : Env} {facts : CallFacts}
variable {callee e : Expr}

/-! ## The names of a Do body -/

/-- The names of an item. What calls the parameter in a bind is no part of it. -/
def DoItem.idents : DoItem → List Ident
  | .bind name _ effect => name.toList ++ effect.idents
  | .result effect => effect.idents
  | .plain s => s.idents

def DoStep.idents (step : DoStep) : List Ident :=
  step.fn.idents ++ step.effect.idents ++ step.trace.toList.flatMap Expr.idents

def DoPart.idents : DoPart → List Ident
  | .bind name step => name.toList ++ step.idents
  | .result effect => effect.idents
  | .plain s => s.idents

/-- Parts are put together without losing a name. -/
theorem DoPart.low_idents (parts : List DoPart) :
    ((low parts).flatMap Stmt.idents).Perm (parts.flatMap idents) := by
  induction parts with
  | nil => exact .refl _
  | cons part parts ih =>
    refine perm_of_count fun id => ?_
    have ih := ih.count_eq id
    cases part with
    | plain | result => simp [low, idents, ih]
    | bind name step =>
      cases hpipe : step.pipeable <;>
        simp [low, idents, DoStep.call, DoStep.idents, hpipe, continuation_idents, ih] <;> omega

namespace Lower.Tracking

variable {R : Lowering → List Ident → Lowering → Prop} {given : Ident → Prop}
  (T : Tracking R given) {env : Env} (henv : env.TraceIs given)

include T henv

theorem step_carries (s : Signature) (token : Token) {e : Expr} (he : ∀ id ∈ e.idents, given id) :
    Carries R [] (step env s token e) DoStep.idents := by
  refine (T.expr_carries e ⟨henv, he⟩).bind fun effect => ?_
  refine (T.extensionReference_carries env s token).next fun fn => ?_
  split
  · refine Carries.next (g := fun trace => trace.toList.flatMap Expr.idents)
      ((T.trace_carries henv token).bind fun trace => T.pure (by simp)) fun trace => T.pure ?_
    exact perm_of_count fun id => by simp [DoStep.idents]; omega
  · rw [pure_bind]
    exact T.pure (perm_of_count fun id => by simp [DoStep.idents]; omega)

theorem part_carries (s : Signature) {item : DoItem} (h : ∀ id ∈ item.idents, given id) :
    Carries R [] (part env s item) DoPart.idents := by
  cases item with
  | bind name token e =>
    simp only [DoItem.idents, forall_mem_append] at h
    refine (T.step_carries henv s token h.2).bind fun step => T.pureGiven (n := name.toList) ?_ h.1
    exact perm_append_comm
  | result e => exact (T.expr_carries e ⟨henv, h⟩).bind fun _ => T.pure (.refl _)
  | plain s => exact (T.stmt_carries s ⟨henv, h⟩).bind fun _ => T.pure (.refl _)

/-- The names of the lowered parts are those of the items and those that were put in. -/
theorem parts_carries (map flatMap : Signature) {items : List DoItem}
    (h : ∀ item ∈ items, ∀ id ∈ item.idents, given id) :
    Carries R [] (parts env map flatMap items) (·.flatMap DoPart.idents) := by
  induction items with
  | nil => exact T.pure (.refl _)
  | cons item items ih =>
    rw [forall_mem_cons] at h
    refine (ih h.2).bind fun rest => (T.part_carries henv _ h.1).next fun first => T.pure ?_
    exact perm_of_count fun id => by simp; omega

end Lower.Tracking

/-! ## Where the parameter stands -/

/-- A name that lowering may put into a tree: one with a mark, a synthetic one and the trace
parameter in scope. -/
def Env.Inserts (env : Env) (id : Ident) : Prop :=
  id.mark.isSome ∨ id = .synthetic id.name ∨ env.trace = some id

/-- A bind of `x`, or an expression in which `x` does not stand. -/
def Expr.OnlyBinds (x : String) (e : Expr) : Prop :=
  ¬ e.Mentions x ∨ ∃ i facts id ts arg,
    e = .call i facts (.ident id) ts [arg] ∧ facts.bind ∧ id.name = x ∧ ¬ arg.Mentions x

/-- `x` stands in a statement only as what a bind calls. The bind is a whole initializer, expression
statement or returned value. -/
def Stmt.OnlyBinds (x : String) : Stmt → Prop
  | .varDecl _ _ _ ds => ∀ d ∈ ds, ¬ holds x d.name ∧ d.init.OnlyBinds x
  | .expr _ e | .ret _ e => e.OnlyBinds x
  | s => ¬ s.Mentions x

/-- The expressions that are a whole initializer, expression statement or returned value. -/
def Stmt.wholes : Stmt → List Expr
  | .varDecl _ _ _ ds => ds.map (·.init)
  | .expr _ e | .ret _ e => [e]
  | _ => []

theorem Expr.OnlyBinds.effect? {effect : Expr} (h : e.OnlyBinds x)
    (heffect : e.effect? = some effect) : ¬ effect.Mentions x := by
  unfold Expr.effect? at heffect
  split at heffect
  · split at heffect
    · cases heffect
      obtain h | ⟨_, _, _, _, _, heq, -, -, harg⟩ := h
      · simp only [Expr.Mentions, Expr.AnyMentions, or_false, not_or] at h
        exact h.2
      · cases heq
        exact harg
    · cases heffect
  · cases heffect

theorem Stmt.OnlyBinds.binding? {s : Stmt} {name : Option Ident} (h : s.OnlyBinds x)
    (hbinding : s.binding? = some (name, e)) : ¬ holds x name ∧ e.OnlyBinds x := by
  unfold Stmt.binding? at hbinding
  split at hbinding
  · cases hbinding
    exact h _ (mem_singleton_self _)
  · cases hbinding
    exact ⟨by simp [holds], h⟩
  · cases hbinding

namespace DoItem

variable {s : Stmt}
variable {x : String} {ss : List Stmt}

theorem ofStmt_spares (h : s.OnlyBinds x) (hplain : ¬ (ofStmt s).isPlain) :
    ¬ named x (ofStmt s).idents := by
  unfold ofStmt at hplain ⊢
  split
  · simp_all
  next name e hbinding =>
    rw [hbinding] at hplain
    obtain ⟨hname, he⟩ := h.binding? hbinding
    cases heffect : e.effect? with
    | none => simp [heffect] at hplain
    | some effect => simp [idents, hname, Expr.named_idents, he.effect? heffect]

theorem ofLast_spares (h : s.OnlyBinds x) (hplain : ¬ (ofLast s).isPlain) :
    ¬ named x (ofLast s).idents := by
  by_cases hret : s.isReturnBind
  · cases s with
    | ret token e =>
      rw [ofLast] at hplain ⊢
      cases heffect : e.effect? with
      | none => simp [heffect] at hplain
      | some effect =>
        have heffect := Expr.OnlyBinds.effect? h heffect
        simpa [idents, Expr.named_idents] using heffect
    | _ => cases hret
  · rw [ofLast_of_not_isReturnBind hret] at hplain ⊢
    exact ofStmt_spares h hplain

theorem eq_of_ofStmt_plain {t : Stmt} (h : ofStmt s = .plain t) : t = s := by
  by_cases hbind : s.isBind
  · obtain ⟨e, hitem, -⟩ := ofStmt_of_isBind hbind
    rw [hitem] at h
    cases h
  · rw [ofStmt_of_not_isBind hbind] at h
    exact (plain.inj h).symm

theorem eq_of_ofLast_plain {t : Stmt} (h : ofLast s = .plain t) : t = s := by
  by_cases hret : s.isReturnBind
  · obtain ⟨e, hitem, -⟩ := ofLast_of_isReturnBind hret
    rw [hitem] at h
    cases h
  · exact eq_of_ofStmt_plain (ofLast_of_not_isReturnBind hret ▸ h)

theorem mem_of_plain_mem (h : .plain s ∈ read ss) : s ∈ ss := by
  induction ss with
  | nil => cases h
  | cons first ss ih =>
    rw [read, mem_cons] at h
    obtain h | h := h
    · split at h
      · exact eq_of_ofLast_plain h.symm ▸ mem_cons_self
      · exact eq_of_ofStmt_plain h.symm ▸ mem_cons_self
    · exact mem_cons_of_mem _ (ih h)

/-- In the binds of a body, and in what it returns, the parameter does not stand. -/
theorem read_spares {item : DoItem} (h : ∀ s ∈ ss, s.OnlyBinds x) (hitem : item ∈ read ss)
    (hplain : ¬ item.isPlain) : ¬ named x item.idents := by
  induction ss with
  | nil => cases hitem
  | cons s ss ih =>
    rw [forall_mem_cons] at h
    rw [read, mem_cons] at hitem
    obtain rfl | hitem := hitem
    · by_cases hlast : ss.isEmpty
      · rw [if_pos hlast] at hplain ⊢
        exact ofLast_spares h.1 hplain
      · rw [if_neg hlast] at hplain ⊢
        exact ofStmt_spares h.1 hplain
    · exact ih h.2 hitem

theorem mem_read_place (item : DoItem) (pins : List Pin) (ss : List Stmt) :
    (item ∈ read (Pin.place pins ss).1 ∨ ∃ p ∈ (Pin.place pins ss).2, item = .plain p.stmt) ↔
      item ∈ read ss ∨ ∃ p ∈ pins, item = .plain p.stmt := by
  induction ss generalizing pins with
  | nil => exact .rfl
  | cons s ss ih =>
    by_cases hlast : ss.isEmpty && s.isReturnBind
    · simp only [Bool.and_eq_true, List.isEmpty_iff] at hlast
      obtain ⟨rfl, hret⟩ := hlast
      simp [Pin.place, Pin.after_isReturnBind pins hret]
    · have hleft : (Pin.place pins (s :: ss)).2 = (Pin.place (Pin.after pins s).2 ss).2 := rfl
      have hsplit : (∃ p ∈ pins, item = .plain p.stmt) ↔
          (∃ p ∈ (Pin.after pins s).1, item = .plain p.stmt) ∨
            ∃ p ∈ (Pin.after pins s).2, item = .plain p.stmt := by
        simp only [← exists_or, ← or_and_right, ← mem_append]
        exact exists_congr fun p => and_congr_left fun _ =>
          (Pin.take_perm pins (Pin.constants s)).symm.mem_iff
      rw [read_place pins hlast, read_cons hlast, hleft, hsplit, mem_cons, mem_append,
        mem_cons, or_assoc, or_assoc, ih]
      simp only [mem_map, eq_comm (a := item)]
      grind

/-- With its pins in place a body reads as before, but for the pins. -/
theorem mem_read_insertPins {item : DoItem} {pins : List Pin} {u : Lowering} :
    item ∈ read ((Lower.insertPins pins ss).run u).1 ↔
      item ∈ read ss ∨ ∃ p ∈ pins, item = .plain p.stmt := by
  rw [Lower.insertPins_run, read_pins, mem_append, ← mem_read_place, or_comm]
  simp only [mem_map, eq_comm (a := item)]

end DoItem

/-! ## Lowering a body -/

namespace Lower

variable {ss : List Stmt}

/-- What holds of the names in the items of a body, and of all that lowering puts in, holds of the
names in the lowered body. -/
theorem doBlock_spares {P : Ident → Prop} (hmarked : ∀ id, id.mark.isSome → P id)
    (hsynthetic : ∀ name, P (.synthetic name)) (henv : env.TraceIs P)
    (map flatMap : Signature) (token : Token) (unique : List DeclId)
    (hss : ∀ item ∈ DoItem.read ss, ∀ id ∈ item.idents, P id) {u : Lowering} (hu : u.Marked) :
    ∀ id ∈ ((doBlock env map flatMap (.mk token unique ss)).run u).1.idents, P id := by
  have T := Lowering.marked_tracking hmarked hsynthetic
  let pins := (registerPins env unique).run u
  let inserted := (Lower.insertPins pins.1 ss).run pins.2
  obtain ⟨hpins, hnames⟩ := T.registerPins_carries env unique [] u u (T.still (by simp)) hu
  -- The pins are lowered with the statements, but their names were handed out before.
  have hread : ∀ item ∈ DoItem.read inserted.1, ∀ id ∈ item.idents, P id := by
    intro item hitem
    obtain hitem | ⟨p, hp, rfl⟩ := DoItem.mem_read_insertPins.1 hitem
    · exact hss item hitem
    · exact fun id hid => hnames id (mem_flatMap.2 ⟨p, hp, hid⟩)
  have hparts := (T.parts_carries henv map flatMap hread [] inserted.2 inserted.2
    (T.still (by simp)) (hpins.insertPins _ _)).2
  intro id hid
  rw [doBlock_eq] at hid
  have hid : id ∈ (bodyValue (DoPart.low
    ((parts env map flatMap (DoItem.read inserted.1)).run inserted.2).1)).idents := hid
  rw [bodyValue_idents] at hid
  exact hparts id ((DoPart.low_idents _).subset hid)

/-- Where no statement that is read as it is has the parameter, all that is left of its name was put
in. -/
theorem doBlock_inserts (env : Env) (hbinds : ∀ s ∈ ss, s.OnlyBinds x)
    (hplain : ∀ s, .plain s ∈ DoItem.read ss → ¬ s.Mentions x) (map flatMap : Signature)
    (token : Token) (unique : List DeclId) {u : Lowering} (hu : u.Marked) :
    ∀ id ∈ ((doBlock env map flatMap (.mk token unique ss)).run u).1.idents,
      id.name = x → env.Inserts id := by
  have htrace : env.TraceIs fun id => id.name = x → env.Inserts id := fun _ h _ => .inr (.inr h)
  refine doBlock_spares (fun _ h _ => .inl h) (fun _ _ => .inr (.inl rfl)) htrace map flatMap token
    unique ?_ hu
  intro item hitem id hid hname
  refine absurd ⟨id, hid, hname⟩ (?_ : ¬ named x item.idents)
  cases item with
  | plain s => exact fun h => hplain s hitem ((Stmt.named_idents x s).1 h)
  | bind | result => exact DoItem.read_spares hbinds hitem (by simp)

/-- Every item of a body is lowered to one of its parts. -/
theorem mem_parts (env : Env) (map flatMap : Signature) {item : DoItem} {items : List DoItem}
    (h : item ∈ items) (u : Lowering) :
    ∃ sig v, ((part env sig item).run v).1 ∈ ((parts env map flatMap items).run u).1 := by
  induction items with
  | nil => cases h
  | cons first items ih =>
    let rest := (parts env map flatMap items).run u
    let sig := if items.all (·.isPlain) then map else flatMap
    have hrun : ((parts env map flatMap (first :: items)).run u).1 =
        ((part env sig first).run rest.2).1 :: rest.1 := rfl
    rw [hrun]
    obtain rfl | h := mem_cons.1 h
    · exact ⟨sig, rest.2, mem_cons_self⟩
    · obtain ⟨sig, v, hmem⟩ := ih h
      exact ⟨sig, v, mem_cons_of_mem _ hmem⟩

/-- The names of a statement that is no bind are there after the whole body is lowered. -/
theorem doBlock_keeps_plain (env : Env) (map flatMap : Signature) (token : Token)
    (unique : List DeclId) {s : Stmt} (h : .plain s ∈ DoItem.read ss) (u : Lowering) :
    ∃ v, ((stmt env s).run v).1.idents ⊆
      ((doBlock env map flatMap (.mk token unique ss)).run u).1.idents := by
  let pins := (registerPins env unique).run u
  let inserted := (Lower.insertPins pins.1 ss).run pins.2
  have hitem : .plain s ∈ DoItem.read inserted.1 := DoItem.mem_read_insertPins.2 (.inl h)
  obtain ⟨sig, v, hpart⟩ := mem_parts env map flatMap hitem inserted.2
  refine ⟨v, fun id hid => ?_⟩
  have hbody : id ∈ (bodyValue (DoPart.low
      ((parts env map flatMap (DoItem.read inserted.1)).run inserted.2).1)).idents := by
    rw [bodyValue_idents]
    exact (DoPart.low_idents _).symm.subset (mem_flatMap.2 ⟨_, hpart, hid⟩)
  rw [doBlock_eq]
  exact hbody

end Lower

/-! ## A bind that is not recognised -/

/-- `x` is left over: one of some names is `x`, and lowering has not put it there. -/
def Env.LeavesOver (env : Env) (x : String) (ids : List Ident) : Prop :=
  ∃ id ∈ ids, id.name = x ∧ ¬ env.Inserts id

/-- A call of a name of the source of which nothing else is known. -/
def Expr.IsOrdinaryCall (env : Env) : Expr → Prop
  | .call _ facts (.ident id) _ args =>
    callRoute env.compilation facts (.ident id) args = .plain ∧ id.globalImport = none ∧
      ¬ env.Inserts id
  | _ => False

theorem Expr.Becomes.leavesOver {e' : Expr} {hs : List Handover} (h : Expr.Becomes env e e' hs)
    (hbinds : e.OnlyBinds x) (hmentions : e.Mentions x) (hcall : e.IsOrdinaryCall env) :
    env.LeavesOver x e'.idents := by
  obtain hnot | ⟨i, facts, id, ts, arg, rfl, -, hname, -⟩ := hbinds
  · exact absurd hmentions hnot
  · obtain ⟨hroute, hglobal, hinserts⟩ := hcall
    refine ⟨id, ?_, hname, hinserts⟩
    -- A plain call keeps its callee, and a name that stands for no global import is kept as it is.
    cases h with
    | call _ hcallee =>
      cases hcallee with
      | leaf hleaf => cases hleaf
      | name hgives =>
        obtain ⟨u, rfl⟩ := hgives
        have hkept : ((Lower.name id).run u).1 = .ident id := by
          rw [Lower.name, hglobal]
          rfl
        simp [hkept]
    | leaf hleaf => cases hleaf
    | curried hr | fused hr | extension hr | function hr | pipe hr | identity hr | remove hr
    | derive hr | unresolved hr | chain _ hr => simp [hroute] at hr

theorem Declarator.AllBecome.init {d : Declarator} :
    ∀ {ds ds' : List Declarator} {hs : List Handover}, Declarator.AllBecome env ds ds' hs → d ∈ ds →
      ∃ init hs', Expr.Becomes env d.init init hs' ∧ init.idents ⊆ ds'.flatMap Declarator.idents
  | _, _, _, .nil, hd => nomatch hd
  | _, _, _, .cons he hds, hd => by
    obtain rfl | hd := mem_cons.1 hd
    · exact ⟨_, _, he, fun id hid => by simp [hid]⟩
    · obtain ⟨init, hs', hinit, hsub⟩ := hds.init hd
      exact ⟨init, hs', hinit, fun id hid => by simp [hsub hid]⟩

theorem Stmt.Becomes.leavesOver {s s' : Stmt} {hs : List Handover} (h : Stmt.Becomes env s s' hs)
    (hbinds : s.OnlyBinds x) (hmentions : s.Mentions x)
    (hcalls : ∀ e ∈ s.wholes, e.Mentions x → e.IsOrdinaryCall env) :
    env.LeavesOver x s'.idents := by
  cases h with
  | expr he | ret he =>
    have hcall := hcalls _ (mem_singleton_self _) hmentions
    obtain ⟨id, hid, hid'⟩ := he.leavesOver hbinds hmentions hcall
    exact ⟨id, by simpa using hid, hid'⟩
  | varDecl hds =>
    obtain ⟨id, hid, hname⟩ := (Declarator.named_all x _).2 hmentions
    obtain ⟨d, hd, hid⟩ := mem_flatMap.1 hid
    have hd' := (Declarator.named_idents x d).1 ⟨id, hid, hname⟩
    obtain ⟨hholds, honly⟩ := hbinds d hd
    obtain ⟨token, name, type, init⟩ := d
    have hinit : init.Mentions x := hd'.resolve_left hholds
    obtain ⟨init', hs', hbecomes, hsub⟩ := hds.init hd
    have hcall := hcalls init (mem_map.2 ⟨_, hd, rfl⟩) hinit
    obtain ⟨id, hid, hleft⟩ := hbecomes.leavesOver honly hinit hcall
    exact ⟨id, by simpa using hsub hid, hleft⟩
  | _ => exact absurd hmentions hbinds

/-! ## A call that is not lowered -/

theorem ordinaryRoute_without_do {c : Compilation} {args : List Expr}
    (h : ∀ map flatMap, ordinaryRoute c facts callee args ≠ .chain map flatMap) :
    ordinaryRoute c facts callee args =
      ordinaryRoute c { facts with doBlock := none } callee args := by
  have hfluent : fluentRoute c { facts with doBlock := none } callee args =
      fluentRoute c facts callee args := rfl
  have hmarked : ({ facts with doBlock := none } : CallFacts).isFluent = facts.isFluent := rfl
  unfold ordinaryRoute at h ⊢
  cases hcurried : (if args.length = 1 then callee.dataFirst? else none) with
  | some target => rfl
  | none =>
    by_cases hbody : isDoBody args
    · match hdo : facts.doBlock with
      | some ⟨some map, some flatMap⟩ => simp [hcurried, hbody, hdo] at h
      | none | some ⟨none, _⟩ | some ⟨some _, none⟩ => simp [hbody, hfluent, hmarked]
    · simp [hbody, hfluent, hmarked]

/-- What is known of a Do block matters only where the call is lowered as one. -/
theorem callRoute_without_do {c : Compilation} {args : List Expr}
    (h : ∀ map flatMap, callRoute c facts callee args ≠ .chain map flatMap) :
    callRoute c facts callee args = callRoute c { facts with doBlock := none } callee args := by
  unfold callRoute at h ⊢
  by_cases hsuper : callee.isSuper
  · simp [hsuper]
  · simp only [hsuper, Bool.false_eq_true, if_false] at h ⊢
    cases hmeaning : facts.intrinsic with
    | none =>
      simp only [hmeaning] at h
      exact ordinaryRoute_without_do h
    | some intrinsic =>
      cases intrinsic with
      | pipe =>
        cases args with
        | nil =>
          simp only [hmeaning, isEmpty_nil, if_true] at h
          exact ordinaryRoute_without_do h
        | cons => rfl
      | _ => rfl

theorem Param.AllBecome.names : ∀ {ps ps' : List Param} {hs : List Handover},
    Param.AllBecome env ps ps' hs → ps'.map (·.name) = ps.map (·.name)
  | _, _, _, .nil => rfl
  | _, _, _, .cons _ hps => by
    rw [map_cons, map_cons, hps.names]
    rfl

/-- A plain call with one arrow function for its argument is kept, and so is the arrow function with
its parameters. -/
theorem Lower.plain_call_kept {i j : Info} {value : Expr} {ts : List TypeRef} {params : List Param}
    {token : Token} {unique : List DeclId} {ss : List Stmt}
    (hroute : callRoute env.compilation facts callee
      [.arrow j params (.mk token unique ss) value] = .plain)
    (u : Lowering) :
    ∃ callee' params' body' extra hs,
      ((expr env (.call i facts callee ts [.arrow j params (.mk token unique ss) value])).run u).1 =
        .call i facts callee' ts (thunkIf j.lazy (.arrow j params' body' value) :: extra) ∧
      params'.map (·.name) = params.map (·.name) ∧
      Block.Becomes (env.inside params) (.mk token unique ss) body' hs := by
  obtain ⟨hs, hbecomes, hanswers⟩ :=
    expr_hands env (.call i facts callee ts [.arrow j params (.mk token unique ss) value]) u
  generalize ((expr env _).run u).1 = result at hbecomes
  cases hbecomes with
  | call _ hcallee hargs =>
    cases hargs with
    | filled _ hargs =>
      cases hargs with
      | cons hhanded hnil =>
        cases hnil
        cases hhanded with
        | mk wrapped harrow =>
          have hpassed := hanswers.passed _ (mem_append_right _ mem_cons_self)
          cases harrow with
          | leaf hleaf => cases hleaf
          | arrow hps hb =>
            obtain rfl : wrapped = j.lazy := thunkIf_inj.1 hpassed
            exact ⟨_, _, _, _, _, rfl, hps.names, hb⟩
    | unresolved hr => simp [hroute] at hr
  | leaf hleaf => cases hleaf
  | curried hr | fused hr | extension hr | method hr | function hr | pipe hr | methodPipe hr
  | identity hr | remove hr | derive hr | unresolved hr | chain _ hr => simp [hroute] at hr

/-! ## Calls of Do -/

/-- A bind of `x` that was not put there by lowering. -/
def Expr.IsBindOf (env : Env) (x : String) (e : Expr) : Prop :=
  ∃ i facts id ts arg, e = .call i facts (.ident id) ts [arg] ∧ facts.bind ∧ id.name = x ∧
    ¬ env.Inserts id

/-- The parameter `x` of a Do block whose body only binds with it. If the call is lowered as a Do
block, `x` is left over in the result only if it stands in a statement that is read as it is, and it
is left over in every such statement whose binds are ordinary calls; without any, no bind is left
either. If the call is not lowered as a Do block, it is lowered as if nothing were known of the
block; a call that is plain then stays a call of the arrow function. -/
theorem Lower.do_parameter_released (env : Env) (x : String) (i j : Info) (facts : CallFacts)
    (callee value : Expr) (ts : List TypeRef) (params : List Param) (token : Token)
    (unique : List DeclId) (ss : List Stmt) (u : Lowering) (hu : u.Marked)
    (hbinds : ∀ s ∈ ss, s.OnlyBinds x) :
    let arrow := Expr.arrow j params (.mk token unique ss) value
    let result := ((expr env (.call i facts callee ts [arrow])).run u).1
    (∀ map flatMap, callRoute env.compilation facts callee [arrow] = .chain map flatMap →
      ((∀ s, .plain s ∈ DoItem.read ss → ¬ s.Mentions x) →
        ¬ env.LeavesOver x result.idents ∧
          ∀ e, .expr e ∈ (Node.expr result).nodes → ¬ e.IsBindOf env x) ∧
      ∀ s, .plain s ∈ DoItem.read ss → s.Mentions x →
        (∀ e ∈ s.wholes, e.Mentions x → e.IsOrdinaryCall env) →
        env.LeavesOver x result.idents) ∧
    ((∀ map flatMap, callRoute env.compilation facts callee [arrow] ≠ .chain map flatMap) →
      callRoute env.compilation facts callee [arrow] =
        callRoute env.compilation { facts with doBlock := none } callee [arrow] ∧
      (callRoute env.compilation { facts with doBlock := none } callee [arrow] = .plain →
        ∃ callee' params' body' extra hs,
          result =
            .call i facts callee' ts (thunkIf j.lazy (.arrow j params' body' value) :: extra) ∧
          params'.map (·.name) = params.map (·.name) ∧
          Block.Becomes (env.inside params) (.mk token unique ss) body' hs)) := by
  intro arrow result
  refine ⟨fun map flatMap hroute => ?_, fun hroute => ?_⟩
  · have hresult : result = ((doBlock env map flatMap (.mk token unique ss)).run u).1 := by
      simp only [result, arrow]
      rw [expr, hroute]
      rfl
    rw [hresult]
    refine ⟨fun hplain => ?_, fun s hs hmentions hcalls => ?_⟩
    · have hinserts := doBlock_inserts env hbinds hplain map flatMap token unique hu
      refine ⟨fun ⟨id, hid, hname, hleft⟩ => hleft (hinserts id hid hname), ?_⟩
      rintro _ he ⟨i, facts, id, ts, arg, rfl, -, hname, hleft⟩
      exact hleft (hinserts id (Expr.idents_subset he (by simp)) hname)
    · obtain ⟨v, hsub⟩ := doBlock_keeps_plain env map flatMap token unique hs u
      obtain ⟨hs', hbecomes, -⟩ := stmt_hands env s v
      have honly := hbinds s (DoItem.mem_of_plain_mem hs)
      obtain ⟨id, hid, hleft⟩ := hbecomes.leavesOver honly hmentions hcalls
      exact ⟨id, hsub hid, hleft⟩
  · have hwithout := callRoute_without_do hroute
    exact ⟨hwithout, fun hplain => plain_call_kept (hwithout.trans hplain) u⟩

/-- `$(effect)`, as it is written. -/
def writtenBind (effect : Expr) : Expr :=
  .call {} { bind := true } (.ident { name := "$" }) [] [effect]

theorem writtenBind_onlyBinds {name : String} (h : name ≠ "$") :
    (writtenBind (.ofName name)).OnlyBinds "$" :=
  .inr ⟨_, _, _, _, _, rfl, rfl, rfl, h⟩

/-- `Do(($) => { … })` -/
def doCall (ss : List Stmt) : Expr :=
  .call {} doFacts (.ofName "Do") [] [.arrow {} [.ofIdent { name := "$" }] (.mk {} [] ss) .missing]

/-- `const a = $(e); log(); return $(r);` -/
def bindsRecognised : List Stmt :=
  [.constant (.synthetic "a") (writtenBind (.ofName "e")) false,
    .ofExpr ((Expr.ofName "log").apply []), .returning (writtenBind (.ofName "r"))]

/-- `const a = $(e); const b = $(f), c = $(g); return a;` -/
def bindsInOneStatement : List Stmt :=
  [.constant (.synthetic "a") (writtenBind (.ofName "e")) false,
    .varDecl {} false .const
      [.mk {} (some { name := "b" }) .missing (writtenBind (.ofName "f")),
        .mk {} (some { name := "c" }) .missing (writtenBind (.ofName "g"))],
    .returning (.ofName "a")]

/-- Where all binds are recognised, the parameter is gone with its arrow function. -/
theorem Lower.do_parameter_released_steps :
    let u := ({ compilation := {} } : Session).start (File.markImports {})
    let result := ((expr { compilation := {} } (doCall bindsRecognised)).run u).1
    u.Marked ∧ (∀ s ∈ bindsRecognised, s.OnlyBinds "$") ∧
      result = (Expr.ofName "flatMap").apply [.ofName "e", .lambdaBlock [.synthetic "a"]
        [.ofExpr ((Expr.ofName "log").apply []), .returning (.ofName "r")]] ∧
      ¬ ({ compilation := {} } : Env).LeavesOver "$" result.idents := by
  intro u result
  have hu : u.Marked := Session.start_marked _ _
  have hlog : ¬ (Stmt.ofExpr ((Expr.ofName "log").apply [])).Mentions "$" := by
    simp [Stmt.ofExpr, Stmt.Mentions, Expr.apply, Expr.applyTyped, Expr.Mentions, Expr.AnyMentions,
      Expr.ofName, Expr.ofIdent, Ident.synthetic]
  have hbinds : ∀ s ∈ bindsRecognised, s.OnlyBinds "$" := by
    intro s hs
    simp only [bindsRecognised, mem_cons, not_mem_nil, or_false] at hs
    obtain rfl | rfl | rfl := hs
    · intro d hd
      obtain rfl := mem_singleton.1 hd
      exact ⟨by simp [holds, Declarator.name, Ident.synthetic], writtenBind_onlyBinds (by decide)⟩
    · exact .inl hlog
    · exact writtenBind_onlyBinds (by decide)
  have hread : DoItem.read bindsRecognised =
      [.bind _ _ _, .plain (.ofExpr ((Expr.ofName "log").apply [])), .result _] := rfl
  have hreleased := do_parameter_released { compilation := {} } "$" {} {} doFacts (.ofName "Do")
    .missing [] [.ofIdent { name := "$" }] {} [] bindsRecognised u hu hbinds
  refine ⟨hu, hbinds, rfl, ((hreleased.1 _ _ rfl).1 fun s hs => ?_).1⟩
  rw [hread] at hs
  simp only [mem_cons, reduceCtorEq, DoItem.plain.injEq, not_mem_nil, or_false,
    false_or] at hs
  exact hs ▸ hlog

/-- Two binds in one statement are not recognised. If there is another bind, the block is lowered
all the same, and the two are left without the arrow function that binds their callee. -/
theorem Lower.do_parameter_left_over :
    let u := ({ compilation := {} } : Session).start (File.markImports {})
    let result := ((expr { compilation := {} } (doCall bindsInOneStatement)).run u).1
    (∀ s ∈ bindsInOneStatement, s.OnlyBinds "$") ∧
      result = (Expr.ofName "map").apply [.ofName "e", .lambdaBlock [.synthetic "a"]
        (bindsInOneStatement.drop 1)] ∧
      ({ compilation := {} } : Env).LeavesOver "$" result.idents := by
  intro u result
  have hresult : result = (Expr.ofName "map").apply [.ofName "e", .lambdaBlock [.synthetic "a"]
      (bindsInOneStatement.drop 1)] := rfl
  refine ⟨fun s hs => ?_, hresult, { name := "$" }, ?_, rfl, ?_⟩
  · simp only [bindsInOneStatement, mem_cons, not_mem_nil, or_false] at hs
    obtain rfl | rfl | rfl := hs
    · intro d hd
      obtain rfl := mem_singleton.1 hd
      exact ⟨by simp [holds, Declarator.name, Ident.synthetic], writtenBind_onlyBinds (by decide)⟩
    · intro d hd
      simp only [mem_cons, not_mem_nil, or_false] at hd
      obtain rfl | rfl := hd
      · exact ⟨by simp [holds, Declarator.name], writtenBind_onlyBinds (by decide)⟩
      · exact ⟨by simp [holds, Declarator.name], writtenBind_onlyBinds (by decide)⟩
    · exact .inl (by simp [Expr.Mentions, Expr.ofName, Expr.ofIdent, Ident.synthetic])
  · rw [hresult]
    simp [bindsInOneStatement, writtenBind]
  · simp [Env.Inserts, Ident.synthetic, Token.synthetic]

end ExtensionLowering
