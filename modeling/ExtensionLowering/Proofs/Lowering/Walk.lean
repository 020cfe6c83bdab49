import ExtensionLowering.Proofs.Lowering.Tracking
/-!
# Tracking through the walk

The induction behind every law on whole files. Each rule of the walk carries the identifiers of the
tree it is given to the tree it builds: what a rule keeps it holds, what it inserts it takes from an
elementary step, and what it drops after lowering it gives back.
-/
namespace ExtensionLowering

open List

theorem thunkIf_idents (lazy : Bool) (e : Expr) : (thunkIf lazy e).idents = e.idents := by
  cases lazy <;> simp [thunkIf]

theorem simplifyObject_idents (e : Expr) : (simplifyObject e).idents = e.idents := by
  unfold simplifyObject
  split <;> simp

theorem returned?_idents {body : List Stmt} {e : Expr} (h : returned? body = some e) :
    body.flatMap Stmt.idents = e.idents := by
  unfold returned? at h
  split at h
  · split at h
    · cases h
    · cases h
      simp
  · cases h

theorem continuation_idents (ps : List Ident) (body : List Stmt) :
    (continuation ps body).idents = ps ++ body.flatMap Stmt.idents := by
  unfold continuation
  split
  · rename_i e he
    simp [returned?_idents he]
  · simp

theorem bodyValue_idents (body : List Stmt) :
    (bodyValue body).idents = body.flatMap Stmt.idents := by
  unfold bodyValue
  cases h : returned? body with
  | none => simp
  | some e => simp [returned?_idents h]

theorem headD_drop_idents (es : List Expr) :
    (es.headD .missing).idents ++ (es.drop 1).flatMap Expr.idents = es.flatMap Expr.idents := by
  cases es <;> simp

theorem Pin.after_isReturnBind (pins : List Pin) {s : Stmt} (h : s.isReturnBind) :
    Pin.after pins s = ([], pins) := by
  cases s with
  | ret => rfl
  | _ => cases h

theorem Env.Gives.inside {given : Ident → Prop} {env : Env} {ps : List Param} {ids : List Ident}
    (hps : env.Gives given (ps.flatMap Param.idents)) (h : env.Gives given ids) :
    (env.inside ps).Gives given ids := by
  refine ⟨fun id hid => ?_, h.idents⟩
  simp only [Env.inside, Option.mem_def, Option.or_eq_some_iff] at hid
  obtain hid | ⟨-, hid⟩ := hid
  · simp only [traceParam?, Option.bind_eq_some_iff, Option.filter_eq_some_iff] at hid
    obtain ⟨p, hp, hname, -⟩ := hid
    refine hps.idents id (mem_flatMap.2 ⟨p, mem_of_getLast? hp, ?_⟩)
    obtain ⟨t, n, ty, o, r, e⟩ := p
    simp only [Param.name] at hname
    simp [hname]
  · exact h.trace id hid

namespace Lower.Tracking

variable {R : Lowering → List Ident → Lowering → Prop} {given : Ident → Prop}

theorem boundName?_given {s : Stmt} (h : ∀ id ∈ s.idents, given id) :
    ∀ id ∈ s.boundName?.toList, given id := by
  intro id hid
  unfold Stmt.boundName? at hid
  split at hid
  · exact h id (by simp [Option.mem_toList.1 hid])
  · simp at hid

variable (T : Tracking R given)

include T

mutual

theorem expr_carries {env : Env} :
    ∀ e : Expr, env.Gives given e.idents → Carries R [] (expr env e) Expr.idents
  | .missing, _ | .number .., _ | .string .., _ | .bool .., _ | .this _, _ | .super _, _ =>
    T.pure (.refl _)
  | .ident id, h => T.name_carries (h.idents id (by simp))
  | .prop i facts o n q, h => by
    simp only [Expr.idents_prop, Env.gives_append] at h
    have ho := expr_carries o h.1
    have hprop : Carries R []
        (do return Expr.prop i facts (← expr env o) n q : Lower Expr) Expr.idents :=
      ho.bind fun o' => T.pureGiven (n := n.toList) (by simp) h.2.idents
    rw [expr]
    split
    · exact ho
    · split
      · exact hprop
      · split
        · exact T.extensionReference_carries env _ i.token
        · refine ho.bind fun o' => (T.extensionReference_carries env _ i.token).next fun fn => ?_
          have htrace := T.withTrace_carries h.1.trace ‹Signature› i.token [simplifyObject o']
          refine Carries.bind (T.conv (htrace.frame fn.idents) (perm_of_count fun id => ?_)
            fun _ => .refl _) fun as => T.pure (by simp)
          simp [simplifyObject_idents]
          omega
        · exact hprop
  | .elem i facts o x, h => by
    simp only [Expr.idents_elem, Env.gives_append] at h
    rw [expr]
    refine (expr_carries o h.1).bind fun o' => ?_
    refine (expr_carries x h.2).next fun x' => ?_
    split
    · exact T.pure (by simp)
    · split
      · refine (T.extensionReference_carries env _ i.token).next fun fn => ?_
        refine T.pure (perm_of_count fun id => ?_)
        rw [extensionCall, extensionCallTyped]
        split <;> simp <;> omega
      · exact T.pure (by simp)
  | .call i facts callee ts args, h => by
    simp only [Expr.idents_call, Env.gives_append] at h
    have hcallee := expr_carries callee h.1
    have hargs := arguments_carries args h.2
    -- A call that stays a call, of whatever callee and arguments.
    have hkeep (c : Expr) (as : List Expr) : Carries R (c.idents ++ as.flatMap Expr.idents)
        (do return Expr.call i facts c ts (← complete env i.token facts args as) : Lower Expr)
        Expr.idents :=
      ((T.complete_carries h.1.trace i.token facts args as).frame c.idents).bind fun _ =>
        T.pure (by simp)
    rw [expr]
    cases callRoute env.compilation facts callee args with
    | plain => exact hcallee.bind fun c => hargs.next fun as => hkeep c as
    | pipe => exact stagesOf_carries args h.2
    | identity => exact only_carries args h.2
    | remove => exact T.pure (.refl _)
    | derive => exact T.derive_carries env facts.derivation i.token
    | fuse target =>
      refine hcallee.bind fun c => hargs.next fun as => ?_
      split
      · rename_i j g dead ts' as' arg
        split
        · have hfused := (T.dataFirstCall_carries env target i.token arg as').frame dead.idents
          refine Carries.bind (T.conv hfused (perm_of_count fun id => ?_) fun _ => .refl _)
            fun fused => ?_
          · simp
            omega
          · have hdead := (T.retract_carries env dead).frame fused.idents
            exact (T.conv hdead perm_append_comm fun _ => .refl _).bind fun _ =>
              T.pure (by simp)
        · exact hkeep _ [arg]
      · exact hkeep _ _
    | chain map flatMap => exact doArgument_carries map flatMap args h.2
    | extension s =>
      refine hcallee.bind fun dead => (T.extensionReference_carries env s i.token).next fun fn => ?_
      have hdead := (T.retract_carries env dead).frame fn.idents
      refine (T.conv hdead perm_append_comm fun _ => .refl _).bind fun _ => ?_
      refine hargs.next fun as => T.conv (hkeep fn as) (by simp) fun _ => .refl _
    | unresolved =>
      exact (T.unresolvedCall_carries env i.token callee).skip
        (T.pureGiven (n := callee.idents ++ args.flatMap Expr.idents) (by simp)
          (Env.gives_append.2 h).idents)
    | method s =>
      refine (objectOf_carries callee h.1).bind fun receiver => ?_
      refine (exprs_carries args h.2).next fun as => ?_
      exact T.conv (T.callExtension_carries h.1.trace s i.token ts _ as) (by simp [thunkIf_idents])
        fun _ => .refl _
    | function s =>
      refine (exprs_carries args h.2).bind fun as => ?_
      refine T.conv (T.callExtension_carries h.1.trace s i.token ts _ (as.drop 1)) ?_
        fun _ => .refl _
      rw [thunkIf_idents, headD_drop_idents]
    | methodPipe =>
      exact (objectOf_carries callee h.1).bind fun acc =>
        stages_carries args h.2 acc
  | .new i callee ts args, h => by
    simp only [Expr.idents_new, Env.gives_append] at h
    rw [expr]
    refine (expr_carries callee h.1).bind fun c => ?_
    exact (exprs_carries args h.2).next fun as => T.pure (by simp)
  | .binary i facts l op r, h => by
    simp only [Expr.idents_binary, Env.gives_append] at h
    have hl := expr_carries l h.1
    have hr := expr_carries r h.2
    have hbinary : Carries R []
        (do
          let l ← expr env l
          return Expr.binary i facts l op (← expr env r) : Lower Expr) Expr.idents :=
      hl.bind fun l' => hr.next fun r' => T.pure (by simp)
    rw [expr]
    split
    · refine hl.bind fun first => ?_
      split
      · refine (callArguments_carries r h.2).next fun as => ?_
        exact T.dataFirstCall_carries env _ r.token first as
      · refine hr.next fun fn => T.pure ?_
        simpa using perm_append_comm
    · split
      · exact hbinary
      · split
        · split
          · exact (T.unitStep fun s => T.fail env _ s (by simp [Diagnostic.invariant,
              Diagnostic.ofArgs])).skip (T.pureGiven (n := l.idents ++ r.idents) (by simp)
                (Env.gives_append.2 h).idents)
          · refine hl.bind fun l' => hr.next fun r' => ?_
            refine (T.declarationReference_carries env _ i.token).next fun fn => ?_
            have htrace := T.withTrace_carries h.1.trace ‹Signature› i.token [thunkIf r.lazy r']
            refine Carries.bind (T.conv (htrace.frame (l'.idents ++ fn.idents))
              (perm_of_count fun id => ?_) fun _ => .refl _) fun as =>
                T.pure (perm_of_count fun id => ?_)
            · simp [thunkIf_idents]
              omega
            · rw [extensionCall, extensionCallTyped]
              split <;> simp [thunkIf_idents] <;> omega
        · exact hbinary
  | .unary _ _ e, h | .paren _ e, h | .void _ e, h | .spread _ e, h => by
    rw [expr]
    exact (expr_carries e (by simpa using h)).bind fun _ => T.pure (by simp)
  | .cond i c t e, h => by
    simp only [Expr.idents_cond, Env.gives_append] at h
    rw [expr]
    refine (expr_carries c h.1.1).bind fun c' => ?_
    refine (expr_carries t h.1.2).next fun t' => ?_
    exact (expr_carries e h.2).next fun e' => T.pure (by simp)
  | .array i es, h => by
    rw [expr]
    exact (exprs_carries es (by simpa using h)).bind fun _ => T.pure (by simp)
  | .object i ps, h => by
    rw [expr]
    exact (properties_carries ps (by simpa using h)).bind fun _ => T.pure (by simp)
  | .arrow i ps b e, h => by
    simp only [Expr.idents_arrow, Env.gives_append] at h
    rw [expr]
    refine (params_carries ps (h.1.1.inside h.1.1)).bind fun ps' => ?_
    refine (block_carries b (h.1.1.inside h.1.2)).next fun b' => ?_
    split
    · exact (expr_carries e (h.1.1.inside h.2)).next fun e' => T.pure (by simp)
    · exact T.pureGiven (n := e.idents) (by simp) h.2.idents
  | .func i self ps b, h => by
    simp only [Expr.idents_func, Env.gives_append] at h
    rw [expr]
    refine (params_carries ps (h.1.2.inside h.1.2)).bind fun ps' => ?_
    refine (block_carries b (h.1.2.inside h.2)).next fun b' =>
      T.pureGiven (n := self.toList) ?_ h.1.1.idents
    exact perm_of_count fun id => by simp; omega

theorem exprs_carries {env : Env} : ∀ es : List Expr,
    env.Gives given (es.flatMap Expr.idents) → Carries R [] (exprs env es) (·.flatMap Expr.idents)
  | [], _ => T.pure (.refl _)
  | e :: es, h => by
    simp only [flatMap_cons, Env.gives_append] at h
    rw [exprs]
    refine (expr_carries e h.1).bind fun e' => ?_
    exact (exprs_carries es h.2).next fun es' => T.pure (by simp)

theorem arguments_carries {env : Env} :
    ∀ es : List Expr, env.Gives given (es.flatMap Expr.idents) →
      Carries R [] (arguments env es) (·.flatMap Expr.idents)
  | [], _ => T.pure (.refl _)
  | e :: es, h => by
    simp only [flatMap_cons, Env.gives_append] at h
    rw [arguments]
    refine (expr_carries e h.1).bind fun e' => ?_
    exact (arguments_carries es h.2).next fun es' => T.pure (by simp [thunkIf_idents])

theorem only_carries {env : Env} : ∀ es : List Expr,
    env.Gives given (es.flatMap Expr.idents) → Carries R [] (only env es) Expr.idents
  | [], _ | _ :: _ :: _, _ => T.pure (.refl _)
  | [e], h => expr_carries e (by simpa using h)

theorem callArguments_carries {env : Env} : ∀ e : Expr,
    env.Gives given e.idents → Carries R [] (callArguments env e) (·.flatMap Expr.idents) := by
  intro e h
  cases e with
  | call _ _ c _ as =>
    rw [Expr.idents_call, Env.gives_append] at h
    exact exprs_carries as h.2
  | _ => exact T.pure (.refl _)

theorem objectOf_carries {env : Env} : ∀ e : Expr,
    env.Gives given e.idents → Carries R [] (objectOf env e) Expr.idents := by
  intro e h
  cases e with
  | prop _ _ o _ _ =>
    rw [Expr.idents_prop, Env.gives_append] at h
    exact expr_carries o h.1
  | _ => exact T.pure (.refl _)

theorem stagesOf_carries {env : Env} : ∀ es : List Expr,
    env.Gives given (es.flatMap Expr.idents) → Carries R [] (stagesOf env es) Expr.idents
  | [], _ => T.pure (.refl _)
  | e :: es, h => by
    simp only [flatMap_cons, Env.gives_append] at h
    rw [stagesOf]
    exact (expr_carries e h.1).bind fun acc => stages_carries es h.2 acc

theorem stages_carries {env : Env} :
    ∀ es : List Expr, env.Gives given (es.flatMap Expr.idents) → ∀ acc : Expr,
      Carries R acc.idents (stages env acc es) Expr.idents
  | [], _, _ => T.pure (.refl _)
  | e :: es, h, acc => by
    simp only [flatMap_cons, Env.gives_append] at h
    rw [stages]
    split
    · refine (callArguments_carries e h.1).next fun as => ?_
      refine (T.dataFirstCall_carries env _ e.token acc as).bind fun acc' => ?_
      exact stages_carries es h.2 acc'
    · refine (expr_carries e h.1).next fun fn => ?_
      refine T.conv (stages_carries es h.2 (fn.apply [acc])) ?_ fun _ => .refl _
      simpa using perm_append_comm

theorem properties_carries {env : Env} :
    ∀ ps : List Property, env.Gives given (ps.flatMap Property.idents) →
      Carries R [] (properties env ps) (·.flatMap Property.idents)
  | [], _ => T.pure (.refl _)
  | p :: ps, h => by
    simp only [flatMap_cons, Env.gives_append] at h
    rw [properties]
    refine (property_carries p h.1).bind fun p' => ?_
    exact (properties_carries ps h.2).next fun ps' => T.pure (by simp)

theorem property_carries {env : Env} : ∀ p : Property,
    env.Gives given p.idents → Carries R [] (property env p) Property.idents
  | .assign t k v, h => by
    simp only [Property.idents_assign, Env.gives_append] at h
    have hvalue (k : Expr) : Carries R k.idents
        (do return Property.assign t k (← expr env v) : Lower Property) Property.idents :=
      (expr_carries v h.2).next fun v' => T.pure (by simp)
    rw [property]
    dsimp only
    split
    · exact T.giving h.1.idents (hvalue k)
    · exact (expr_carries k h.1).bind hvalue
  | .shorthand t id, h => T.shorthand_carries t (by simpa using h.idents)
  | .spread t e, h => by
    rw [property]
    exact (expr_carries e (by simpa using h)).bind fun _ => T.pure (by simp)

theorem params_carries {env : Env} :
    ∀ ps : List Param, env.Gives given (ps.flatMap Param.idents) →
      Carries R [] (params env ps) (·.flatMap Param.idents)
  | [], _ => T.pure (.refl _)
  | p :: ps, h => by
    simp only [flatMap_cons, Env.gives_append] at h
    rw [params]
    refine (param_carries p h.1).bind fun p' => ?_
    exact (params_carries ps h.2).next fun ps' => T.pure (by simp)

theorem param_carries {env : Env} :
    ∀ p : Param, env.Gives given p.idents → Carries R [] (param env p) Param.idents
  | .mk t n ty o r e, h => by
    simp only [Param.idents_mk, Env.gives_append] at h
    rw [param]
    refine (expr_carries e h.2).bind fun e' => T.pureGiven (n := n.toList) ?_ h.1.idents
    simpa using perm_append_comm

theorem block_carries {env : Env} :
    ∀ b : Block, env.Gives given b.idents → Carries R [] (block env b) Block.idents
  | .missing, _ => T.pure (.refl _)
  | .mk t unique ss, h => by
    rw [Block.idents_mk] at h
    rw [block_mk]
    refine (T.registerPins_carries env unique).bind fun pins => ?_
    refine (stmts_carries ss h).next fun ss' => ?_
    refine Carries.bind (T.conv (T.insertPins_carries pins ss') perm_append_comm
      fun _ => .refl _) fun out => T.pure (by simp)

theorem stmts_carries {env : Env} : ∀ ss : List Stmt,
    env.Gives given (ss.flatMap Stmt.idents) → Carries R [] (stmts env ss) (·.flatMap Stmt.idents)
  | [], _ => T.pure (.refl _)
  | s :: ss, h => by
    simp only [flatMap_cons, Env.gives_append] at h
    rw [stmts]
    refine (stmt_carries s h.1).bind fun s' => ?_
    exact (stmts_carries ss h.2).next fun ss' => T.pure (by simp)

theorem stmt_carries {env : Env} :
    ∀ s : Stmt, env.Gives given s.idents → Carries R [] (stmt env s) Stmt.idents
  | .missing, _ => T.pure (.refl _)
  | .block b, h => by
    rw [stmt]
    exact (block_carries b h).bind fun _ => T.pure (by simp)
  | .expr _ e, h | .ret _ e, h | .throw _ e, h => by
    rw [stmt]
    exact (expr_carries e (by simpa using h)).bind fun _ => T.pure (by simp)
  | .cond t c y n, h => by
    simp only [Stmt.idents_cond, Env.gives_append] at h
    rw [stmt]
    refine (expr_carries c h.1.1).bind fun c' => ?_
    refine (stmt_carries y h.1.2).next fun y' => ?_
    exact (stmt_carries n h.2).next fun n' => T.pure (by simp)
  | .varDecl t x k ds, h => by
    rw [stmt]
    exact (declarators_carries ds (by simpa using h)).bind fun _ => T.pure (by simp)
  | .funcDecl t x n ps r b, h => by
    simp only [Stmt.idents_funcDecl, Env.gives_append] at h
    rw [stmt]
    refine (params_carries ps (h.1.2.inside h.1.2)).bind fun ps' => ?_
    refine (block_carries b (h.1.2.inside h.2)).next fun b' =>
      T.pureGiven (n := n.toList) ?_ h.1.1.idents
    exact perm_of_count fun id => by simp; omega
  | .classDecl t x n e ms, h => by
    simp only [Stmt.idents_classDecl, Env.gives_append] at h
    rw [stmt]
    refine (expr_carries e h.1.2).bind fun e' => ?_
    refine (members_carries ms h.2).next fun ms' => T.pureGiven (n := n.toList) ?_ h.1.1.idents
    exact perm_of_count fun id => by simp; omega
  | .importDecl t sp d ns m, h =>
    T.pureGiven (n := (Stmt.importDecl t sp d ns m).idents) (.refl _) h.idents
  | .exportDecl t ns, h => T.pureGiven (n := (Stmt.exportDecl t ns).idents) (.refl _) h.idents

theorem declarators_carries {env : Env} :
    ∀ ds : List Declarator, env.Gives given (ds.flatMap Declarator.idents) →
      Carries R [] (declarators env ds) (·.flatMap Declarator.idents)
  | [], _ => T.pure (.refl _)
  | d :: ds, h => by
    simp only [flatMap_cons, Env.gives_append] at h
    rw [declarators]
    refine (declarator_carries d h.1).bind fun d' => ?_
    exact (declarators_carries ds h.2).next fun ds' => T.pure (by simp)

theorem declarator_carries {env : Env} : ∀ d : Declarator,
    env.Gives given d.idents → Carries R [] (declarator env d) Declarator.idents
  | .mk t n ty e, h => by
    simp only [Declarator.idents_mk, Env.gives_append] at h
    rw [declarator]
    refine (expr_carries e h.2).bind fun e' => T.pureGiven (n := n.toList) ?_ h.1.idents
    simpa using perm_append_comm

theorem members_carries {env : Env} :
    ∀ ms : List Member, env.Gives given (ms.flatMap Member.idents) →
      Carries R [] (members env ms) (·.flatMap Member.idents)
  | [], _ => T.pure (.refl _)
  | m :: ms, h => by
    simp only [flatMap_cons, Env.gives_append] at h
    rw [members]
    refine (member_carries m h.1).bind fun m' => ?_
    exact (members_carries ms h.2).next fun ms' => T.pure (by simp)

theorem member_carries {env : Env} :
    ∀ m : Member, env.Gives given m.idents → Carries R [] (member env m) Member.idents
  | .ctor t ps b, h => by
    simp only [Member.idents_ctor, Env.gives_append] at h
    rw [member]
    refine (params_carries ps (h.1.inside h.1)).bind fun ps' => ?_
    exact (block_carries b (h.1.inside h.2)).next fun b' => T.pure (by simp)
  | .method t s n ps b, h => by
    simp only [Member.idents_method, Env.gives_append] at h
    rw [member]
    refine (params_carries ps (h.1.2.inside h.1.2)).bind fun ps' => ?_
    refine (block_carries b (h.1.2.inside h.2)).next fun b' =>
      T.pureGiven (n := n.toList) ?_ h.1.1.idents
    exact perm_of_count fun id => by simp; omega
  | .field t s n ty e, h => by
    simp only [Member.idents_field, Env.gives_append] at h
    rw [member]
    refine (expr_carries e h.2).bind fun e' => T.pureGiven (n := n.toList) ?_ h.1.idents
    simpa using perm_append_comm

theorem doArgument_carries {env : Env} (map flatMap : Signature) :
    ∀ es : List Expr, env.Gives given (es.flatMap Expr.idents) →
      Carries R [] (doArgument env map flatMap es) Expr.idents
  | [], _ | _ :: _ :: _, _ => T.pure (.refl _)
  | [e], h => doArrow_carries map flatMap e (by simpa using h)

theorem doArrow_carries {env : Env} (map flatMap : Signature) : ∀ e : Expr,
    env.Gives given e.idents → Carries R [] (doArrow env map flatMap e) Expr.idents := by
  intro e h
  cases e with
  | arrow _ ps b e =>
    simp only [Expr.idents_arrow, Env.gives_append] at h
    exact doBlock_carries map flatMap b h.1.2
  | _ => exact T.pure (.refl _)

theorem doBlock_carries {env : Env} (map flatMap : Signature) : ∀ b : Block,
    env.Gives given b.idents → Carries R [] (doBlock env map flatMap b) Expr.idents
  | .missing, _ => T.pure (.refl _)
  | .mk t unique ss, h => by
    rw [Block.idents_mk] at h
    rw [doBlock_mk]
    refine (T.registerPins_carries env unique).bind fun pins => ?_
    have hchain := chain_carries map flatMap ss h pins
    dsimp only
    split
    · refine (T.unitStep T.giveUp).skip (hchain.bind fun ⟨body, rest, _⟩ => T.pure ?_)
      simpa [bodyValue_idents, Pin.flatMap_idents_stmt] using perm_append_comm
    · refine hchain.bind fun ⟨body, rest, _⟩ => T.pure ?_
      simpa [bodyValue_idents, Pin.flatMap_idents_stmt] using perm_append_comm

theorem chain_carries {env : Env} (map flatMap : Signature) :
    ∀ ss : List Stmt, env.Gives given (ss.flatMap Stmt.idents) → ∀ pins : List Pin,
      Carries R (pins.flatMap Pin.idents) (chain env map flatMap pins ss)
        fun r => r.1.flatMap Stmt.idents ++ r.2.1.flatMap Pin.idents
  | [], _, pins => T.pure (by simp)
  | s :: ss, h, pins => by
    simp only [flatMap_cons, Env.gives_append] at h
    have hbound := bound_carries s h.1
    have hsplit := Pin.after_idents pins s
    rw [chain]
    cases hlast : ss.isEmpty && s.isReturnBind with
    | true =>
      -- A return declares no constant, so all pins are still there and nothing follows.
      simp only [Bool.and_eq_true, List.isEmpty_iff] at hlast
      obtain ⟨rfl, hret⟩ := hlast
      rw [Pin.after_isReturnBind pins hret]
      dsimp only
      rw [chain, pure_bind]
      refine hbound.next fun e => T.pure ?_
      simpa using perm_append_comm
    | false =>
      generalize Pin.after pins s = r at hsplit
      obtain ⟨now, later⟩ := r
      have hrest := (chain_carries map flatMap ss h.2 later).frame (now.flatMap Pin.idents)
      refine (T.conv hrest hsplit.symm fun _ => .refl _).bind fun ⟨rest, left, settled⟩ => ?_
      simp only [Bool.false_eq_true, if_false]
      split
      · refine hbound.next fun effect => ?_
        have hcall := (T.callExtension_carries h.1.trace (if settled then map else flatMap)
          s.boundExpr.token [] effect
          [continuation s.boundName?.toList (now.map Pin.stmt ++ rest)]).frame
            (left.flatMap Pin.idents)
        refine T.giving (boundName?_given h.1.idents)
          ((T.conv hcall (perm_of_count fun id => ?_) fun _ => .refl _).bind fun step => T.pure ?_)
        · simp [continuation_idents, Pin.flatMap_idents_stmt]
          omega
        · simpa using perm_append_comm
      · refine (stmt_carries s h.1).next fun s' => T.pure (perm_of_count fun id => ?_)
        simp [Pin.flatMap_idents_stmt]
        omega

theorem bound_carries {env : Env} :
    ∀ s : Stmt, env.Gives given s.idents → Carries R [] (bound env s) Expr.idents
  | .varDecl _ _ _ [.mk _ name _ e], h => by
    simp only [Stmt.idents_varDecl, flatMap_singleton, Declarator.idents_mk, Env.gives_append] at h
    exact boundArgument_carries e h.2
  | .expr _ e, h | .ret _ e, h => boundArgument_carries e (by simpa using h)
  | .varDecl _ _ _ [], _ | .varDecl _ _ _ (_ :: _ :: _), _ | .missing, _ | .block _, _
  | .throw .., _ | .cond .., _ | .funcDecl .., _ | .classDecl .., _ | .importDecl .., _
  | .exportDecl .., _ => T.pure (.refl _)

theorem boundArgument_carries {env : Env} : ∀ e : Expr,
    env.Gives given e.idents → Carries R [] (boundArgument env e) Expr.idents := by
  intro e h
  cases e with
  | call _ _ c _ as =>
    rw [Expr.idents_call, Env.gives_append] at h
    exact only_carries as h.2
  | _ => exact T.pure (.refl _)

end

/-- Lowering a file carries the identifiers of its statements and of the pins left over. -/
theorem file_carries (env : Env) (henv : env.TraceIs given) (f : File)
    (h : ∀ id ∈ (Node.file f).idents, given id) :
    Carries R [] (file env f) fun r => r.1.flatMap Stmt.idents ++ r.2.flatMap Pin.idents := by
  rw [Node.idents_file] at h
  rw [file_eq]
  refine (T.registerPins_carries env f.unique).bind fun pins => ?_
  refine (T.stmts_carries f.stmts ⟨henv, h⟩).next fun ss => ?_
  exact T.conv (T.placePins_carries pins ss) perm_append_comm fun _ => .refl _

end Lower.Tracking

end ExtensionLowering
