import ExtensionLowering.Proofs.Lowering.Hoists
import ExtensionLowering.Proofs.Tree.Idents
/-!
# Tracking identifiers through lowering

Lowering puts identifiers into the tree it builds and takes some back out. A relation `R s ids t`
between two states and the identifiers put in on the way is a *tracking* when it holds of every
elementary step. The main statement is that a tracking then holds of lowering whole trees, with the
identifiers of the lowered tree; the laws on imports and on names are instances of it.

`Carries R held x got` is the logic for it: whoever holds the identifiers `held` before running `x`
holds those of its result afterwards, whatever else is held.
-/
namespace ExtensionLowering

open List

theorem perm_of_count {a b : List Ident} (h : ∀ id, a.count id = b.count id) : a.Perm b :=
  perm_iff_count.2 h

/-- The trace parameter in scope, if there is one, has a property. -/
def Env.TraceIs (given : Ident → Prop) (env : Env) : Prop :=
  ∀ id ∈ env.trace, given id

/-- The trace parameter in scope and the identifiers of a part of the tree have a property. -/
structure Env.Gives (given : Ident → Prop) (env : Env) (ids : List Ident) : Prop where
  trace : env.TraceIs given
  idents : ∀ id ∈ ids, given id

theorem Env.gives_append {given : Ident → Prop} {env : Env} {ids ids' : List Ident} :
    env.Gives given (ids ++ ids') ↔ env.Gives given ids ∧ env.Gives given ids' := by
  constructor
  · rintro ⟨htrace, h⟩
    rw [forall_mem_append] at h
    exact ⟨⟨htrace, h.1⟩, htrace, h.2⟩
  · rintro ⟨h, h'⟩
    exact ⟨h.trace, forall_mem_append.2 ⟨h.idents, h'.idents⟩⟩

namespace Pin

variable (ps : List Pin)

/-- The identifiers of the copy that a pin stands for. -/
def idents (p : Pin) : List Ident :=
  p.stmt.idents

theorem flatMap_idents_stmt : (ps.map stmt).flatMap Stmt.idents = ps.flatMap idents := by
  rw [flatMap_map]
  rfl

theorem take_perm (ds : List Declarator) : ((take ps ds).1 ++ (take ps ds).2).Perm ps := by
  induction ds generalizing ps with
  | nil => exact .refl _
  | cons d ds ih =>
    simp only [take, partition_eq_filter_filter, append_assoc]
    exact ((ih _).append_left _).trans (filter_append_perm _ ps)

theorem after_idents (s : Stmt) :
    ((after ps s).1.flatMap idents ++ (after ps s).2.flatMap idents).Perm (ps.flatMap idents) := by
  rw [← flatMap_append]
  exact (take_perm ps (constants s)).flatMap_right idents

/-- Placing pins loses none of their identifiers and none of those of the statements. -/
theorem place_idents (ss : List Stmt) :
    ((place ps ss).1.flatMap Stmt.idents ++ (place ps ss).2.flatMap idents).Perm
      (ss.flatMap Stmt.idents ++ ps.flatMap idents) := by
  induction ss generalizing ps with
  | nil => exact .refl _
  | cons s ss ih =>
    refine perm_of_count fun id => ?_
    have hafter := (after_idents ps s).count_eq id
    have hrest := (ih (after ps s).2).count_eq id
    simp only [count_append] at hafter hrest
    simp [place, flatMap_idents_stmt]
    omega

end Pin

namespace Lower

variable {α β : Type} {R : Lowering → List Ident → Lowering → Prop}
variable {held : List Ident} {s : Lowering} {got : β → List Ident} {x : Lower α}
variable {g : α → List Ident}

def Carries (R : Lowering → List Ident → Lowering → Prop) (held : List Ident) (x : Lower α)
    (got : α → List Ident) : Prop :=
  ∀ more s t, R s (more ++ held) t → R s (more ++ got (x.run t).1) (x.run t).2

theorem Carries.bind {f : α → Lower β}
    (hx : Carries R held x g) (hf : ∀ a, Carries R (g a) (f a) got) :
    Carries R held (x >>= f) got := fun more s t h =>
  hf _ more s _ (hx more s t h)

/-- What is held besides stays held. -/
theorem Carries.frame {got : α → List Ident} (hx : Carries R held x got)
    (kept : List Ident) : Carries R (kept ++ held) x fun a => kept ++ got a := by
  intro more s t h
  rw [← append_assoc] at h ⊢
  exact hx (more ++ kept) s t h

/-- Extends what is held by the identifiers of a result. -/
theorem Carries.next {f : α → Lower β}
    (hx : Carries R [] x g) (hf : ∀ a, Carries R (held ++ g a) (f a) got) :
    Carries R held (x >>= f) got := by
  have hkept := hx.frame held
  rw [append_nil] at hkept
  exact hkept.bind hf

theorem Carries.skip {x : Lower Unit} {f : Unit → Lower β}
    (hx : Carries R [] x fun _ => []) (hf : Carries R held (f ()) got) :
    Carries R held (x >>= f) got := by
  refine hx.next fun _ => ?_
  rwa [append_nil]

/-! ## Runs -/

theorem importAlias_run (path : String) (s : Lowering) :
    (importAlias path).run s =
      ((s.ledger.get s.names.supply path).1,
        { s with
          ledger := (s.ledger.get s.names.supply path).2.1
          names := { s.names with supply := (s.ledger.get s.names.supply path).2.2 } }) := rfl

theorem exportAlias_run (name : String) (exported : Bool) (s : Lowering) :
    (exportAlias name exported).run s =
      ((s.names.exportAlias name exported).1.ident,
        { s with names := (s.names.exportAlias name exported).2 }) := rfl

theorem derivationName_run (d : DerivId) (s : Lowering) :
    (derivationName d).run s =
      ((s.names.derivationName (some d)).1,
        { s with names := (s.names.derivationName (some d)).2 }) := rfl

theorem traceVar_of_some {id : Ident} (h : s.traceVar = some id) : traceVar.run s = (id, s) := by
  simp only [traceVar, StateT.run_bind, StateT.run_get, pure_bind, h]
  rfl

theorem traceVar_of_none (h : s.traceVar = none) :
    traceVar.run s =
      ((s.names.supply.next "fileName").1,
        { s with
          names := { s.names with supply := (s.names.supply.next "fileName").2 }
          traceVar := some (s.names.supply.next "fileName").1 }) := by
  simp only [traceVar, StateT.run_bind, StateT.run_get, pure_bind, h]
  rfl

theorem blockScope_run (env : Env) (token : Token) (part : Option DerivId → Lower Expr)
    (id : DerivId) (d : Option DeclId) (s : Lowering) :
    (deriveNode env token part id (.blockScope d)).run s =
      match d.bind fun d => s.pinned.lookup d with
      | some copy => (.ofIdent copy, s)
      | none => (declarationReference env (env.compilation.declaration? d) token).run s := by
  simp only [deriveNode, pin?, bind_assoc, pure_bind, StateT.run_bind, StateT.run_get]
  cases d.bind fun d => s.pinned.lookup d <;> rfl

theorem prior_run (env : Env) (token : Token) (part : Option DerivId → Lower Expr) (id : DerivId)
    (target : Option DerivId) (s : Lowering) :
    (deriveNode env token part id (.prior target)).run s =
      match s.names.derivation? target with
      | some self => (.ofIdent self, s)
      | none => (notImplemented, s) := by
  simp only [deriveNode, pure_bind, StateT.run_bind, StateT.run_get]
  cases s.names.derivation? target <;> rfl

theorem registerPins_of_some {env : Env} {d : DeclId} {ds : List DeclId} {id : Ident}
    (hd : s.pinned.lookup d = some id) :
    (registerPins env (d :: ds)).run s = (registerPins env ds).run s := by
  simp [registerPins, hd]

theorem registerPins_of_none {env : Env} {d : DeclId} {ds : List DeclId}
    (hd : s.pinned.lookup d = none) :
    (registerPins env (d :: ds)).run s =
      (do
        let decl := (env.compilation.declaration? (some d)).getD {}
        let id ← pinName d decl.name
        let pins ← registerPins env ds
        return { name := decl.name, line := decl.line, ident := id } :: pins : Lower _).run s := by
  simp [registerPins, hd]

/-- A relation between states that every elementary step of lowering keeps. The identifiers that may
be put into the tree without any step are `given`. -/
structure Tracking (R : Lowering → List Ident → Lowering → Prop) (given : Ident → Prop) : Prop where
  synthetic : ∀ name, given (.synthetic name)
  still : ∀ {s ids}, (∀ id ∈ ids, given id) → R s ids s
  trans : ∀ {s t u a b}, R s a t → R t b u → R s (a ++ b) u
  perm : ∀ {s t a b}, R s a t → a.Perm b → R s b t
  fail : ∀ env d s, d.code ≠ .ledgerBroken → R s [] ((Lower.fail env d).run s).2
  giveUp : ∀ s, R s [] (Lower.giveUp.run s).2
  importAlias : ∀ path s,
    R s [((Lower.importAlias path).run s).1] ((Lower.importAlias path).run s).2
  exportAlias : ∀ name exported s,
    R s [((Lower.exportAlias name exported).run s).1] ((Lower.exportAlias name exported).run s).2
  derivationName : ∀ d s,
    R s [((Lower.derivationName d).run s).1] ((Lower.derivationName d).run s).2
  traceVar : ∀ s, R s [(Lower.traceVar.run s).1] (Lower.traceVar.run s).2
  pinName : ∀ d base s, s.pinned.lookup d = none →
    R s [((Lower.pinName d base).run s).1] ((Lower.pinName d base).run s).2
  reusePin : ∀ d id s, s.pinned.lookup d = some id → R s [id] s
  reuseDerivation : ∀ d id s, s.names.derivation? d = some id → R s [id] s
  retract : ∀ {s t ids} env (dead : Expr), R s (ids ++ dead.idents) t →
    R s ids ((Lower.retract env dead).run t).2

variable {given : Ident → Prop}

namespace Tracking

variable (T : Tracking R given)
variable {env : Env} {held : List Ident}

include T

theorem pure {a : α} {got : α → List Ident} (h : held.Perm (got a)) :
    Carries R held (Pure.pure a) got := fun more _ _ hR =>
  T.perm hR (h.append_left more)

/-- A step that puts in the identifiers of its result. -/
theorem carries_of_step {x : Lower α} {g : α → List Ident}
    (h : ∀ s, R s (g (x.run s).1) (x.run s).2) : Carries R [] x g := fun more s t hR => by
  rw [append_nil] at hR
  exact T.trans hR (h t)

theorem conv {held' : List Ident} {x : Lower α} {got got' : α → List Ident}
    (h : Carries R held x got) (hheld : held'.Perm held) (hgot : ∀ a, (got a).Perm (got' a)) :
    Carries R held' x got' := fun more s t hR =>
  T.perm (h more s t (T.perm hR (hheld.append_left more))) ((hgot _).append_left more)

/-- Given identifiers can be held at any time. -/
theorem giving {n : List Ident} {x : Lower α} {got : α → List Ident} (hn : ∀ id ∈ n, given id)
    (h : Carries R (held ++ n) x got) : Carries R held x got := by
  intro more s t hR
  refine h more s t ?_
  rw [← append_assoc]
  exact T.trans hR (T.still hn)

theorem pureGiven {a : α} {got : α → List Ident} {n : List Ident} (h : (held ++ n).Perm (got a))
    (hn : ∀ id ∈ n, given id) : Carries R held (Pure.pure a) got :=
  T.giving hn (T.pure h)

/-! ## Elementary operations -/

theorem unitStep {x : Lower Unit} (h : ∀ s, R s [] (x.run s).2) : Carries R [] x fun _ => [] :=
  T.carries_of_step h

theorem given_of_name {name : String} : ∀ id ∈ (Expr.ofName name).idents, given id := by
  simpa using T.synthetic name

theorem reference_carries (env : Env) (d : Option Declaration) (exportName : String)
    (token : Token) : Carries R [] (reference env d exportName token) Expr.idents := by
  have hname : Carries R [] (Pure.pure (Expr.ofName exportName)) Expr.idents :=
    T.pureGiven (List.Perm.refl _) T.given_of_name
  cases d with
  | none => exact hname
  | some d =>
    rw [reference]
    split
    · split
      · refine (T.carries_of_step (g := fun id => [id]) (T.exportAlias _ _)).bind fun id => ?_
        exact T.pure (List.Perm.refl _)
      · exact hname
    · split
      · refine (T.carries_of_step (g := fun id => [id]) (T.importAlias _)).bind fun id => ?_
        exact T.pureGiven (n := [.synthetic exportName]) (by simp) (by simpa using T.synthetic _)
      · exact (T.unitStep fun s => T.fail env _ s (by simp [Diagnostic.ofArgs])).skip hname

theorem notImplemented_carries : Carries R [] (Pure.pure notImplemented) Expr.idents :=
  T.pureGiven (n := [.synthetic "Error"]) (by simp [notImplemented])
    (by simpa using T.synthetic "Error")

theorem declarationReference_carries (env : Env) (d : Option Declaration) (token : Token) :
    Carries R [] (declarationReference env d token) Expr.idents := by
  cases d with
  | none => exact T.notImplemented_carries
  | some d => exact T.reference_carries env (some d) d.name token

theorem extensionReference_carries (env : Env) (s : Signature) (token : Token) :
    Carries R [] (extensionReference env s token) Expr.idents :=
  T.reference_carries env _ _ token

theorem targetReference_carries (env : Env) (t : Target) (token : Token) :
    Carries R [] (targetReference env t token) Expr.idents :=
  T.reference_carries env _ _ token

theorem trace_carries (henv : env.TraceIs given) (token : Token) :
    Carries R [] (trace env token) Expr.idents := by
  rw [trace]
  split
  · rename_i id hid
    exact T.pureGiven (List.Perm.refl _) (by simpa using henv id hid)
  · refine (T.carries_of_step (g := fun id => [id]) T.traceVar).bind fun id => ?_
    exact T.pure (by simp)

theorem withTrace_carries (henv : env.TraceIs given) (s : Signature) (token : Token)
    (args : List Expr) :
    Carries R (args.flatMap Expr.idents) (withTrace env s token args) (·.flatMap Expr.idents) := by
  rw [withTrace]
  split
  · have htrace := (T.trace_carries henv token).frame (args.flatMap Expr.idents)
    simp only [append_nil] at htrace
    exact htrace.bind fun e => T.pure (by simp)
  · exact T.pure (List.Perm.refl _)

theorem callExtension_carries (henv : env.TraceIs given) (s : Signature) (token : Token)
    (typeArgs : List TypeRef) (receiver : Expr) (args : List Expr) :
    Carries R (receiver.idents ++ args.flatMap Expr.idents)
      (callExtension env s token typeArgs receiver args) Expr.idents := by
  refine (T.extensionReference_carries env s token).next fun fn => ?_
  have htrace := (T.withTrace_carries henv s token args).frame (receiver.idents ++ fn.idents)
  refine Carries.bind (T.conv htrace (perm_of_count ?_) fun _ => .refl _) fun as =>
    T.pure (perm_of_count ?_)
  · intro id; simp; omega
  · intro id
    cases hp : s.pipeable <;> simp [extensionCallTyped] <;> omega

theorem dataFirstCall_carries (env : Env) (target : Target) (token : Token) (first : Expr)
    (args : List Expr) :
    Carries R (first.idents ++ args.flatMap Expr.idents)
      (dataFirstCall env target token first args) Expr.idents := by
  refine (T.targetReference_carries env target token).next fun fn => T.pure (perm_of_count ?_)
  intro id; simp; omega

theorem mapM_carries {γ : Type} {f : γ → Lower α} {g : α → List Ident}
    (hf : ∀ x, Carries R [] (f x) g) :
    ∀ xs : List γ, Carries R [] (xs.mapM f) fun ys => ys.flatMap g
  | [] => by
    rw [mapM_nil]
    exact T.pure (.refl _)
  | x :: xs => by
    rw [mapM_cons]
    refine (hf x).bind fun y => (mapM_carries hf xs).next fun ys => T.pure ?_
    simp

/-! ## Derived values -/

theorem literal_carries (v : Literal) : Carries R [] (Pure.pure v.expr) Expr.idents :=
  T.pure (by cases v <;> simp [Literal.expr])

theorem deriveNode_carries (env : Env) (token : Token) {part : Option DerivId → Lower Expr}
    (hpart : ∀ d, Carries R [] (part d) Expr.idents) (id : DerivId) (d : Derivation) :
    Carries R [] (deriveNode env token part id d) Expr.idents := by
  have hdecl (d : Option DeclId) := T.declarationReference_carries env
    (env.compilation.declaration? d) token
  cases d with
  | invalid => exact T.notImplemented_carries
  | blockScope d =>
    -- The lookup reads the state, so its outcome is told apart in the state itself.
    intro more s t hR
    rw [blockScope_run]
    cases hd : d.bind fun d => t.pinned.lookup d with
    | none => exact hdecl d more s t hR
    | some id' =>
      obtain ⟨d, -, hid⟩ := Option.bind_eq_some_iff.1 hd
      rw [append_nil] at hR
      exact T.trans hR (T.reusePin d id' t hid)
  | implicitScope d => exact hdecl d
  | emptyObject => exact T.pure (by simp)
  | literal v => exact T.literal_carries v
  | intersection fields | object fields =>
    refine (T.mapM_carries (g := Property.idents) (fun f => ?_) fields).bind fun ps =>
      T.pure (by simp)
    exact (hpart _).bind fun e => T.pure (by simp)
  | tuple fields =>
    exact (T.mapM_carries hpart fields).bind fun es => T.pure (by simp)
  | prior target =>
    intro more s t hR
    rw [prior_run]
    cases hd : t.names.derivation? target with
    | none => exact T.notImplemented_carries more s t hR
    | some id' =>
      rw [append_nil] at hR
      exact T.trans hR (T.reuseDerivation target id' t hd)
  | rule rule args users lazyRule =>
    simp only [deriveNode]
    split
    · refine (hdecl rule).bind fun fn => (T.mapM_carries hpart args).next fun as => T.pure ?_
      simp
    · cases lazyRule with
      | none => exact T.notImplemented_carries
      | some rule' =>
        refine (T.carries_of_step (g := fun id => [id]) (T.derivationName id)).bind fun self => ?_
        refine (hdecl (some rule')).next fun wrap => (hdecl rule).next fun fn => ?_
        refine (T.mapM_carries hpart args).next fun as => T.pure (perm_of_count fun id => ?_)
        simp [count_cons]
        omega

theorem deriveWithin_carries (env : Env) (token : Token) :
    ∀ (n : Nat) (d : Option DerivId), Carries R [] (deriveWithin env token n d) Expr.idents
  | 0, none | _ + 1, none | 0, some _ => T.notImplemented_carries
  | n + 1, some id => by
    rw [deriveWithin]
    split
    · exact T.notImplemented_carries
    · exact T.deriveNode_carries env token (deriveWithin_carries env token n) id _

theorem derive_carries (env : Env) (d : Option DerivId) (token : Token) :
    Carries R [] (derive env d token) Expr.idents :=
  T.deriveWithin_carries env token _ d

/-! ## Arguments, names and pins -/

theorem fill_carries {env : Env} (henv : env.TraceIs given) (token : Token) :
    ∀ (skipped : Nat) (ps : List Formal),
      Carries R [] (fill env token skipped ps) (·.flatMap Expr.idents)
  | _, [] => T.pure (.refl _)
  | skipped, p :: ps => by
    rw [fill]
    split
    · have hrest (arg : Expr) : Carries R arg.idents
          (do
            let rest ← fill env token 0 ps
            return List.replicate skipped .voidZero ++ arg :: rest)
          (·.flatMap Expr.idents) :=
        (fill_carries henv token 0 ps).next fun rest => T.pure (by simp [flatMap_replicate])
      dsimp only
      split
      · exact (T.derive_carries env p.derivation token).bind hrest
      · exact (T.trace_carries henv token).bind hrest
    · exact fill_carries henv token (skipped + 1) ps

theorem complete_carries (henv : env.TraceIs given) (token : Token) (facts : CallFacts)
    (args lowered : List Expr) :
    Carries R (lowered.flatMap Expr.idents) (complete env token facts args lowered)
      (·.flatMap Expr.idents) := by
  rw [complete]
  split
  · exact T.pure (.refl _)
  · split
    · exact T.pure (.refl _)
    · refine (T.fill_carries henv token 0 _).next fun rest => T.pure ?_
      simp

theorem unresolvedCall_carries (env : Env) (token : Token) (callee : Expr) :
    Carries R [] (unresolvedCall env token callee) fun _ => [] := by
  rw [unresolvedCall]
  split
  · exact T.unitStep fun s => T.fail env _ s (by simp [Diagnostic.invariant, Diagnostic.ofArgs])
  · exact T.unitStep T.giveUp

theorem name_carries {id : Ident} (hid : given id) : Carries R [] (name id) Expr.idents := by
  rw [name]
  split
  · rename_i g _
    refine (T.carries_of_step (g := fun id => [id]) (T.importAlias g.path)).bind fun a => ?_
    exact T.pureGiven (n := [.synthetic g.name]) (by simp) (by simpa using T.synthetic _)
  · exact T.pureGiven (List.Perm.refl _) (by simpa using hid)

theorem shorthand_carries (token : Token) {id : Option Ident} (hid : ∀ i ∈ id, given i) :
    Carries R [] (shorthand token id) Property.idents := by
  cases id with
  | none => exact T.pure (.refl _)
  | some id =>
    have hgiven : given id := hid id rfl
    rw [shorthand]
    split
    · refine (T.name_carries hgiven).bind fun e => ?_
      exact T.pureGiven (n := [.synthetic id.name]) (by simp) (by simpa using T.synthetic _)
    · exact T.pureGiven (n := [id]) (by simp) (by simpa using hgiven)

theorem registerPins_carries (env : Env) :
    ∀ ds : List DeclId, Carries R [] (registerPins env ds) (·.flatMap Pin.idents)
  | [] => T.pure (.refl _)
  | d :: ds => by
    intro more s t hR
    have ih := registerPins_carries env ds
    cases hd : t.pinned.lookup d with
    | some id =>
      rw [registerPins_of_some hd]
      exact ih more s t hR
    | none =>
      let decl := (env.compilation.declaration? (some d)).getD {}
      have hrest (id : Ident) : Carries R [id]
          (do
            let pins ← registerPins env ds
            return { name := decl.name, line := decl.line, ident := id } :: pins)
          (·.flatMap Pin.idents) := by
        refine ih.next fun pins => T.pureGiven (n := [.synthetic decl.name])
          (perm_of_count fun i => ?_) (by simpa using T.synthetic _)
        simp [Pin.idents, Pin.stmt, count_cons]
      rw [registerPins_of_none hd]
      rw [append_nil] at hR
      exact hrest _ more s _ (T.trans hR (T.pinName d decl.name t hd))

theorem placePins_carries (pins : List Pin) (ss : List Stmt) :
    Carries R (ss.flatMap Stmt.idents ++ pins.flatMap Pin.idents) (placePins pins ss)
      fun r => r.1.flatMap Stmt.idents ++ r.2.flatMap Pin.idents := by
  rw [placePins]
  dsimp only
  split
  · exact (T.unitStep T.giveUp).skip (T.pure (Pin.place_idents pins ss).symm)
  · exact T.pure (Pin.place_idents pins ss).symm

theorem insertPins_carries (pins : List Pin) (ss : List Stmt) :
    Carries R (ss.flatMap Stmt.idents ++ pins.flatMap Pin.idents) (insertPins pins ss)
      (·.flatMap Stmt.idents) := by
  refine (T.placePins_carries pins ss).bind fun r => T.pure (perm_of_count fun id => ?_)
  simp [Pin.flatMap_idents_stmt]
  omega

theorem retract_carries (env : Env) (dead : Expr) :
    Carries R dead.idents (Lower.retract env dead) fun _ => [] := by
  intro more s t hR
  rw [append_nil]
  exact T.retract env dead hR

end Tracking

end Lower

end ExtensionLowering
