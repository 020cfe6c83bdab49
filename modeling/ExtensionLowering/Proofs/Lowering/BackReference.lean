import ExtensionLowering.Proofs.Lowering.Layout
/-!
# Back references of derivations

A rule that is used by its own arguments is wrapped in an arrow function, and the back references
below it are the parameter of that arrow. `Realizes` says what expression a derivation becomes, with
the rules around it and the parameters of their arrows; a back reference is there the parameter that
the innermost arrow with this name binds, and it is the arrow of the rule referred to.

## Main definitions

* `Compilation.Rooted` — a derivation whose back references point to rules around them.
* `Realizes` — the expression that a derivation becomes.

## Main statements

* `Lower.back_references_bound` — deriving a rooted derivation realizes it, whatever names the state
  already has for derivations, and no name of a derivation is free in the result.
-/
namespace ExtensionLowering

open List

variable {scopes : Scopes} {o : Occurrence}

/-- The derivations that a derivation is built from, apart from back references. -/
def Derivation.parts : Derivation → List (Option DerivId)
  | .intersection fields | .tuple fields => fields
  | .object fields => fields.map (·.2)
  | .rule _ args _ _ => args
  | _ => []

namespace Compilation

/-- A rule with users that has a lazy rule to wrap it. -/
def IsRecursive (c : Compilation) (id : DerivId) : Prop :=
  ∃ rule args users lazyRule,
    c.derivation? id = some (.rule rule args users (some lazyRule)) ∧ users ≠ 0

/-- A derivation below the derivations of a path is a tree whose back references point to recursive
rules around them. -/
inductive Rooted (c : Compilation) : List DerivId → Option DerivId → Prop where
  | missing {path d} (h : d.bind c.derivation? = none) : Rooted c path d
  | node {path id d} (h : c.derivation? id = some d) (hnew : id ∉ path)
      (hprior : ∀ target, d = .prior target → ∃ r ∈ path, target = some r ∧ c.IsRecursive r)
      (hparts : ∀ p ∈ d.parts, Rooted c (id :: path) p) : Rooted c path (some id)

end Compilation

/-- None of the names occurs in the expression. -/
def Expr.Avoids (names : List Ident) (e : Expr) : Prop :=
  ∀ x ∈ e.idents, x ∉ names

theorem Ident.synthetic_not_mem {names : List Ident} (hnames : ∀ x ∈ names, x.mark.isSome)
    (name : String) : .synthetic name ∉ names := fun h =>
  Bool.false_ne_true (hnames _ h)

theorem notImplemented_avoids {names : List Ident} (hnames : ∀ x ∈ names, x.mark.isSome) :
    notImplemented.Avoids names := by
  simpa [Expr.Avoids, notImplemented] using Ident.synthetic_not_mem hnames "Error"

mutual

/-- The expression that a derivation becomes within arrows for the rules `ctx`, the innermost first.
The names of derivations are `names`; what refers to a declaration has none of them. -/
inductive Realizes (c : Compilation) (names : List Ident) :
    List (DerivId × Ident) → Option DerivId → Expr → Prop where
  | missing {ctx d} (h : d.bind c.derivation? = none) : Realizes c names ctx d notImplemented
  | invalid {ctx id message} (h : c.derivation? id = some (.invalid message)) :
      Realizes c names ctx (some id) notImplemented
  | blockScope {ctx id decl e} (h : c.derivation? id = some (.blockScope decl))
      (he : e.Avoids names) : Realizes c names ctx (some id) e
  | implicitScope {ctx id decl e} (h : c.derivation? id = some (.implicitScope decl))
      (he : e.Avoids names) : Realizes c names ctx (some id) e
  | emptyObject {ctx id} (h : c.derivation? id = some .emptyObject) :
      Realizes c names ctx (some id) (.ofProperties [])
  | literal {ctx id v} (h : c.derivation? id = some (.literal v)) :
      Realizes c names ctx (some id) v.expr
  | intersection {ctx id fields es} (h : c.derivation? id = some (.intersection fields))
      (hes : AllRealize c names ctx fields es) :
      Realizes c names ctx (some id) (.ofProperties (es.map .spreading))
  | object {ctx id fields es} (h : c.derivation? id = some (.object fields))
      (hes : AllRealize c names ctx (fields.map (·.2)) es) :
      Realizes c names ctx (some id)
        (.ofProperties (fields.zipWith (fun field e => .quoted field.1 e) es))
  | tuple {ctx id fields es} (h : c.derivation? id = some (.tuple fields))
      (hes : AllRealize c names ctx fields es) : Realizes c names ctx (some id) (.ofElems es)
  /-- The innermost arrow that binds the name is that of the rule referred to. -/
  | prior {ctx id target x} (h : c.derivation? id = some (.prior (some target)))
      (hx : ctx.find? (·.2.name = x.name) = some (target, x)) :
      Realizes c names ctx (some id) (.ofIdent x)
  | rule {ctx id decl args lazyRule es} {fn : Expr}
      (h : c.derivation? id = some (.rule decl args 0 lazyRule))
      (hfn : fn.Avoids names) (hes : AllRealize c names ctx args es) :
      Realizes c names ctx (some id) (fn.apply es)
  /-- A rule that needs a lazy rule and has none cannot be derived, whatever its arguments are. -/
  | unwrapped {ctx id decl args users} (h : c.derivation? id = some (.rule decl args users none))
      (husers : users ≠ 0) : Realizes c names ctx (some id) notImplemented
  | recursive {ctx id decl args users lazyRule self es} {wrap fn : Expr}
      (h : c.derivation? id = some (.rule decl args users (some lazyRule))) (husers : users ≠ 0)
      (hwrap : wrap.Avoids names) (hfn : fn.Avoids names)
      (hself : self ∈ names) (hes : AllRealize c names ((id, self) :: ctx) args es) :
      Realizes c names ctx (some id) (wrap.apply [.lambda [self] (fn.apply es)])

inductive AllRealize (c : Compilation) (names : List Ident) :
    List (DerivId × Ident) → List (Option DerivId) → List Expr → Prop where
  | nil {ctx} : AllRealize c names ctx [] []
  | cons {ctx d ds e es} (h : Realizes c names ctx d e) (hs : AllRealize c names ctx ds es) :
      AllRealize c names ctx (d :: ds) (e :: es)

end

namespace Lowering

variable {base : Nat} {reserved : List String} {s t u : Lowering}

/-- The synthesized identifiers that are no names of derivations. -/
def underived (s : Lowering) : List Ident :=
  s.ledger.aliases ++
    (s.traceVar.toList ++ s.pinned.map (·.2) ++ s.names.aliases.map (·.2.ident))

theorem synthesized_perm (s : Lowering) : s.synthesized.Perm (s.derived ++ s.underived) := by
  refine perm_of_count fun id => ?_
  simp only [synthesized, others, derived, underived, count_append]
  omega

theorem Sound.derived_marked (hs : s.Sound base reserved) : ∀ x ∈ s.derived, x.mark.isSome := by
  intro x hx
  obtain ⟨m, hm, -⟩ := hs.marked x (s.synthesized_perm.symm.subset (mem_append_left _ hx))
  rw [hm]
  rfl

theorem Sound.not_derived (hs : s.Sound base reserved) {x : Ident}
    (hx : x.GivenBelow base ∨ x ∈ s.underived) : x ∉ s.derived := by
  intro hmem
  obtain hx | hx := hx
  · obtain ⟨m, hm, hbase, -⟩ :=
      hs.marked x (s.synthesized_perm.symm.subset (mem_append_left _ hmem))
    exact absurd (hx m hm) (by omega)
  · have hnodup := (s.synthesized_perm.map (·.name)).nodup_iff.1 hs.names
    rw [map_append] at hnodup
    exact (nodup_append'.1 hnodup).2.2 (mem_map_of_mem hmem) (mem_map_of_mem hx)

/-- Two derivations never have the same name. -/
theorem Sound.derivation_unique (hs : s.Sound base reserved) {d d' : Option DerivId} {x x' : Ident}
    (hd : s.names.derivation? d = some x) (hd' : s.names.derivation? d' = some x')
    (hname : x.name = x'.name) : d = d' ∧ x = x' := by
  have hnodup := (s.synthesized_perm.map (·.name)).nodup_iff.1 hs.names
  rw [map_append, derived, map_map] at hnodup
  have heq := inj_on_of_nodup_map (nodup_append'.1 hnodup).1 (mem_of_lookup hd)
    (mem_of_lookup hd') hname
  exact Prod.mk.inj heq

/-- A step that keeps a state sound, and the names of derivations and what they are not. -/
structure Advances (base : Nat) (reserved : List String) (s t : Lowering) : Prop where
  sound : t.Sound base reserved
  named : ∀ d x, s.names.derivation? d = some x → t.names.derivation? d = some x
  others : s.underived ⊆ t.underived

namespace Advances

theorem refl (hs : s.Sound base reserved) : Advances base reserved s s :=
  ⟨hs, fun _ _ h => h, List.Subset.refl _⟩

theorem trans (h : Advances base reserved s t) (h' : Advances base reserved t u) :
    Advances base reserved s u :=
  ⟨h'.sound, fun d x hx => h'.named d x (h.named d x hx), List.Subset.trans h.others h'.others⟩

theorem fail (hs : s.Sound base reserved) (env : Env) {d : Diagnostic} :
    Advances base reserved s ((Lower.fail env d).run s).2 :=
  ⟨hs.step rfl (.refl _) hs.ledger, fun _ _ h => h, List.Subset.refl _⟩

theorem exportAlias (hs : s.Sound base reserved) (name : String) (exported : Bool) :
    Advances base reserved s ((Lower.exportAlias name exported).run s).2 ∧
      ((Lower.exportAlias name exported).run s).1 ∈
        ((Lower.exportAlias name exported).run s).2.underived := by
  have hsound := (Accounts.supplies hs (.exportAlias name exported s)).sound
  rw [Lower.exportAlias_run] at hsound ⊢
  unfold NameTable.exportAlias at hsound ⊢
  cases ha : s.names.alias? name with
  | some a =>
    simp only [ha] at hsound ⊢
    exact ⟨⟨hsound, fun _ _ h => h, List.Subset.refl _⟩,
      mem_append_right _
        (mem_append_right _ (mem_map_of_mem (mem_of_lookup ha)))⟩
  | none =>
    simp only [ha] at hsound ⊢
    refine ⟨⟨hsound, fun _ _ h => h, ?_⟩,
      mem_append_right _ (mem_append_right _ mem_cons_self)⟩
    intro x hx
    simp only [Lowering.underived, map_cons, mem_append, mem_cons] at hx ⊢
    exact hx.imp_right fun hx => hx.imp_right .inr

theorem importAlias (hs : s.Sound base reserved) (path : String) :
    Advances base reserved s ((Lower.importAlias path).run s).2 ∧
      (((Lower.importAlias path).run s).1.GivenBelow base ∨
        ((Lower.importAlias path).run s).1 ∈ ((Lower.importAlias path).run s).2.underived) := by
  have hsound := (Accounts.importAlias hs path).sound
  rw [Lower.importAlias_run] at hsound ⊢
  have hadvances {l : Ledger} {supply : NameSupply}
      (hsound : ({ s with ledger := l, names := { s.names with supply } } : Lowering).Sound
        base reserved) (hl : s.ledger.aliases ⊆ l.aliases) :
      Advances base reserved s { s with ledger := l, names := { s.names with supply } } := by
    refine ⟨hsound, fun _ _ h => h, fun x hx => ?_⟩
    obtain hx | hx := mem_append.1 hx
    · exact mem_append_left _ (hl hx)
    · exact mem_append_right _ hx
  obtain ⟨e, n, he, hn, hget⟩ | ⟨e, he, hp, hget⟩ | ⟨hpath, id, supply, hissues, hget⟩ :=
    s.ledger.get_cases s.names.supply path
  · simp only [hget] at hsound ⊢
    have hkeeps := Ledger.setBalance_keeps hs.ledger he hn (Nat.succ_pos n)
    have hmem := Ledger.mem_aliases_of_counted (Ledger.at?_mem he) hn
    exact ⟨hadvances hsound hkeeps.aliases.symm.subset,
      .inr (mem_append_left _ (hkeeps.aliases.symm.subset hmem))⟩
  · simp only [hget] at hsound ⊢
    exact ⟨hadvances hsound (List.Subset.refl _),
      .inl (hs.ledger.permanent e (Ledger.at?_mem he) hp)⟩
  · simp only [hget] at hsound ⊢
    have haliases := Ledger.append_aliases s.ledger path id
    exact ⟨hadvances hsound fun x hx => haliases.symm.subset (mem_cons_of_mem _ hx),
      .inr (mem_append_left _ (haliases.symm.subset mem_cons_self))⟩

theorem derivationName (hs : s.Sound base reserved) (d : DerivId) :
    Advances base reserved s ((Lower.derivationName d).run s).2 ∧
      ((Lower.derivationName d).run s).2.names.derivation? (some d) =
        some ((Lower.derivationName d).run s).1 := by
  have hsound := (Accounts.supplies hs (.derivationName d s)).sound
  rw [Lower.derivationName_run] at hsound ⊢
  unfold NameTable.derivationName at hsound ⊢
  cases hd : s.names.derivation? (some d) with
  | some x =>
    simp only [hd] at hsound ⊢
    exact ⟨⟨hsound, fun _ _ h => h, List.Subset.refl _⟩, trivial⟩
  | none =>
    simp only [hd] at hsound ⊢
    refine ⟨⟨hsound, fun d' x hx => ?_, List.Subset.refl _⟩, by simp [NameTable.derivation?]⟩
    have hne : d' ≠ some d := by
      rintro rfl
      rw [hd] at hx
      cases hx
    rw [← hx]
    simp only [NameTable.derivation?, lookup_cons]
    rw [beq_false_of_ne hne]

end Advances

end Lowering

namespace Lower

open Lowering

variable {α β : Type} {base : Nat} {reserved : List String} {s : Lowering} {x : Lower α}
  {P Q : Lowering → α → Prop}

/-- Running `x` advances the state, and its result is as it should be in whatever the state advances
to later. -/
def Brings (base : Nat) (reserved : List String) (x : Lower α) (s : Lowering)
    (Q : Lowering → α → Prop) : Prop :=
  Advances base reserved s (x.run s).2 ∧ ∀ u, Advances base reserved (x.run s).2 u → Q u (x.run s).1

namespace Brings

theorem mono (h : Brings base reserved x s P) (hQ : ∀ u a, P u a → Q u a) :
    Brings base reserved x s Q :=
  ⟨h.1, fun u hu => hQ u _ (h.2 u hu)⟩

theorem pure (hs : s.Sound base reserved) {a : α} (h : ∀ u, Advances base reserved s u → Q u a) :
    Brings base reserved (Pure.pure a) s Q :=
  ⟨.refl hs, h⟩

theorem bind {f : α → Lower β} {Q : Lowering → β → Prop} (h : Brings base reserved x s P)
    (hf : ∀ a t, Advances base reserved s t → P t a →
      Brings base reserved (f a) t fun u b => P u a → Q u b) :
    Brings base reserved (x >>= f) s Q := by
  obtain ⟨hnext, hlater⟩ := hf (x.run s).1 (x.run s).2 h.1 (h.2 _ (.refl h.1.sound))
  exact ⟨h.1.trans hnext, fun u hu => hlater u hu (h.2 u (hnext.trans hu))⟩

theorem finish {g : α → β} {Q : Lowering → β → Prop} (h : Brings base reserved x s P)
    (hQ : ∀ u a, P u a → Q u (g a)) : Brings base reserved (do return g (← x)) s Q :=
  h.bind fun _ _ ht _ => .pure ht.sound fun _ _ => hQ _ _

theorem of_run {y : Lower α} (hrun : x.run s = y.run s) (h : Brings base reserved y s Q) :
    Brings base reserved x s Q := by
  unfold Brings
  rw [hrun]
  exact h

end Brings

theorem exportAlias_brings (hs : s.Sound base reserved) (name : String) (exported : Bool) :
    Brings base reserved (exportAlias name exported) s fun u id => id ∉ u.derived :=
  have ⟨hadvances, hmem⟩ := Advances.exportAlias hs name exported
  ⟨hadvances, fun _ hu => hu.sound.not_derived (.inr (hu.others hmem))⟩

theorem importAlias_brings (hs : s.Sound base reserved) (path : String) :
    Brings base reserved (importAlias path) s fun u id => id ∉ u.derived :=
  have ⟨hadvances, hmem⟩ := Advances.importAlias hs path
  ⟨hadvances, fun _ hu => hu.sound.not_derived (hmem.imp_right (hu.others ·))⟩

theorem derivationName_brings (hs : s.Sound base reserved) (d : DerivId) :
    Brings base reserved (derivationName d) s fun u id =>
      u.names.derivation? (some d) = some id :=
  have ⟨hadvances, hnamed⟩ := Advances.derivationName hs d
  ⟨hadvances, fun _ hu => hu.named _ _ hnamed⟩

theorem reference_brings (env : Env) (d : Option Declaration) (exportName : String) (token : Token)
    (hs : s.Sound base reserved) :
    Brings base reserved (reference env d exportName token) s fun u e => e.Avoids u.derived := by
  have hsynthetic {u : Lowering} (hu : u.Sound base reserved) :=
    Ident.synthetic_not_mem hu.derived_marked exportName
  have hname {t : Lowering} (ht : t.Sound base reserved) :
      Brings base reserved (Pure.pure (Expr.ofName exportName)) t fun u e => e.Avoids u.derived :=
    .pure ht fun u hu => by simpa [Expr.Avoids] using hsynthetic hu.sound
  cases d with
  | none => exact hname hs
  | some d =>
    rw [reference]
    split
    · split
      · exact (exportAlias_brings hs exportName d.exported).finish fun u id hid => by
          simpa [Expr.Avoids] using hid
      · exact hname hs
    · split
      · refine (importAlias_brings hs _).bind fun id t ht _ => .pure ht.sound fun u hu hid => ?_
        simpa [Expr.Avoids] using ⟨hid, hsynthetic hu.sound⟩
      · have hfail :=
          Advances.fail hs env (d := Diagnostic.ofArgs .noImportPath token [.text d.file])
        exact ⟨hfail, (hname hfail.sound).2⟩

theorem declarationReference_brings (env : Env) (d : Option Declaration) (token : Token)
    (hs : s.Sound base reserved) :
    Brings base reserved (declarationReference env d token) s fun u e => e.Avoids u.derived := by
  cases d with
  | none =>
    exact .pure hs fun u hu => notImplemented_avoids hu.sound.derived_marked
  | some d => exact reference_brings env (some d) d.name token hs

/-- Parts that are realized one after the other are all realized. -/
theorem mapM_brings {c : Compilation} {ctx : List (DerivId × Ident)}
    {part : Option DerivId → Lower Expr} {ds : List (Option DerivId)} (hs : s.Sound base reserved)
    (hpart : ∀ d ∈ ds, ∀ t, Advances base reserved s t →
      Brings base reserved (part d) t fun u e => Realizes c u.derived ctx d e) :
    Brings base reserved (ds.mapM part) s fun u es => AllRealize c u.derived ctx ds es := by
  induction ds generalizing s with
  | nil =>
    rw [mapM_nil]
    exact .pure hs fun _ _ => .nil
  | cons d ds ih =>
    rw [mapM_cons]
    refine (hpart d mem_cons_self s (.refl hs)).bind fun e t ht _ => ?_
    refine (ih ht.sound fun d hd u hu => ?_).finish fun u es hes he => .cons he hes
    exact hpart d (mem_cons_of_mem _ hd) u (ht.trans hu)

theorem mapM_zipWith {γ δ : Type} (key : γ → Option DerivId) (g : γ → Expr → δ)
    (part : Option DerivId → Lower Expr) (xs : List γ) :
    (xs.mapM fun x => do return g x (← part (key x))) =
      xs.zipWith g <$> (xs.map key).mapM part := by
  induction xs with
  | nil => simp
  | cons x xs ih =>
    simp only [mapM_cons, map_cons, ih, map_eq_pure_bind, bind_assoc, pure_bind,
      zipWith_cons_cons]

theorem mapM_map {δ : Type} (g : Expr → δ) (part : Option DerivId → Lower Expr)
    (ds : List (Option DerivId)) :
    (ds.mapM fun d => do return g (← part d)) = map g <$> ds.mapM part := by
  induction ds with
  | nil => simp
  | cons d ds ih =>
    simp only [mapM_cons, map_cons, ih, map_eq_pure_bind, bind_assoc, pure_bind]

end Lower

/-- The rules of a path that are recursive have arrows with the names that the state has for
them. -/
structure Around (c : Compilation) (s : Lowering) (path : List DerivId)
    (ctx : List (DerivId × Ident)) : Prop where
  named : ∀ b ∈ ctx, s.names.derivation? (some b.1) = some b.2
  bound : ∀ r ∈ path, c.IsRecursive r → ∃ x, (r, x) ∈ ctx

namespace Around

variable {base : Nat} {reserved : List String} {c : Compilation} {s t : Lowering}
  {path : List DerivId} {ctx : List (DerivId × Ident)} {id : DerivId}

theorem later (h : Around c s path ctx) (ht : Lowering.Advances base reserved s t) :
    Around c t path ctx :=
  ⟨fun b hb => ht.named _ _ (h.named b hb), h.bound⟩

/-- Below a derivation that is no recursive rule nothing more is bound. -/
theorem below (h : Around c s path ctx) (hid : ¬ c.IsRecursive id) :
    Around c s (id :: path) ctx := by
  refine ⟨h.named, fun r hr hrec => ?_⟩
  obtain rfl | hr := mem_cons.1 hr
  · exact absurd hrec hid
  · exact h.bound r hr hrec

theorem within (h : Around c s path ctx) {self : Ident}
    (hself : s.names.derivation? (some id) = some self) :
    Around c s (id :: path) ((id, self) :: ctx) := by
  refine ⟨fun b hb => ?_, fun r hr hrec => ?_⟩
  · obtain rfl | hb := mem_cons.1 hb
    · exact hself
    · exact h.named b hb
  · obtain rfl | hr := mem_cons.1 hr
    · exact ⟨self, mem_cons_self⟩
    · obtain ⟨x, hx⟩ := h.bound r hr hrec
      exact ⟨x, mem_cons_of_mem _ hx⟩

/-- The innermost arrow with the name of a rule is its own: no two rules have the same name. -/
theorem find? (h : Around c s path ctx) (hs : s.Sound base reserved) {r : DerivId} {x : Ident}
    (hr : (r, x) ∈ ctx) : ctx.find? (·.2.name = x.name) = some (r, x) := by
  cases hfind : ctx.find? (·.2.name = x.name) with
  | none => simpa using find?_eq_none.1 hfind (r, x) hr
  | some b =>
    have hname : b.2.name = x.name := by simpa using find?_some hfind
    have hb := h.named b (mem_of_find?_eq_some hfind)
    obtain ⟨hid, hident⟩ := hs.derivation_unique hb (h.named _ hr) hname
    exact congrArg some (Prod.ext (Option.some.inj hid) hident)

end Around

namespace Lower

open Lowering

variable {base : Nat} {reserved : List String} {s : Lowering} {ctx : List (DerivId × Ident)}

/-- One derivation is realized when its parts are. -/
theorem deriveNode_brings (env : Env) (token : Token) {part : Option DerivId → Lower Expr}
    {path : List DerivId} {id : DerivId} {d : Derivation}
    (hs : s.Sound base reserved) (hd : env.compilation.derivation? id = some d)
    (haround : Around env.compilation s path ctx) (hprior : ∀ target, d = .prior target →
      ∃ r ∈ path, target = some r ∧ env.compilation.IsRecursive r)
    (hpart : ∀ p ∈ d.parts, ∀ t ctx', t.Sound base reserved →
      Around env.compilation t (id :: path) ctx' →
      Brings base reserved (part p) t fun u e => Realizes env.compilation u.derived ctx' p e) :
    Brings base reserved (deriveNode env token part id d) s fun u e =>
      Realizes env.compilation u.derived ctx (some id) e := by
  have hdeclared {t : Lowering} (ht : t.Sound base reserved) (decl : Option DeclId) :=
    declarationReference_brings env (env.compilation.declaration? decl) token ht
  have hflat (hflat : ¬ env.compilation.IsRecursive id) {t : Lowering}
      (ht : Advances base reserved s t) :
      Brings base reserved (d.parts.mapM part) t fun u es =>
        AllRealize env.compilation u.derived ctx d.parts es :=
    mapM_brings ht.sound fun p hp u hu =>
      hpart p hp u ctx hu.sound ((haround.later (ht.trans hu)).below hflat)
  have hnot (h : ∀ rule args users lazyRule, d ≠ .rule rule args users lazyRule) :
      ¬ env.compilation.IsRecursive id := by
    rintro ⟨rule, args, users, lazyRule, heq, -⟩
    exact h _ _ _ _ (Option.some.inj (hd.symm.trans heq))
  cases d with
  | invalid message => exact .pure hs fun _ _ => .invalid hd
  | blockScope decl =>
    -- The lookup reads the state, so its outcome is told apart in the state itself.
    cases hpin : decl.bind fun d => s.pinned.lookup d with
    | none =>
      refine .of_run ?_ ((hdeclared hs decl).mono fun u e he => .blockScope hd he)
      rw [blockScope_run, hpin]
    | some x =>
      refine .of_run (y := pure (.ofIdent x)) ?_ (.pure hs fun u hu => .blockScope hd ?_)
      · rw [blockScope_run, hpin]
        rfl
      · obtain ⟨decl, -, hx⟩ := Option.bind_eq_some_iff.1 hpin
        have hmem : x ∈ s.underived := mem_append_right _
          (mem_append_left _ (mem_append_right _
            (mem_map_of_mem (f := (·.2)) (mem_of_lookup hx))))
        simpa [Expr.Avoids] using hu.sound.not_derived (.inr (hu.others hmem))
  | implicitScope decl =>
    exact (hdeclared hs decl).mono fun u e he => .implicitScope hd he
  | emptyObject => exact .pure hs fun _ _ => .emptyObject hd
  | literal v => exact .pure hs fun _ _ => .literal hd
  | intersection fields =>
    simp only [deriveNode, mapM_map, bind_map_left]
    exact (hflat (hnot (by simp)) (.refl hs)).finish fun u es hes => .intersection hd hes
  | object fields =>
    simp only [deriveNode, mapM_zipWith, bind_map_left]
    exact (hflat (hnot (by simp)) (.refl hs)).finish fun u es hes => .object hd hes
  | tuple fields =>
    exact (hflat (hnot (by simp)) (.refl hs)).finish fun u es hes => .tuple hd hes
  | prior target =>
    obtain ⟨r, hr, rfl, hrec⟩ := hprior target rfl
    obtain ⟨x, hx⟩ := haround.bound r hr hrec
    refine .of_run (y := pure (.ofIdent x)) ?_ (.pure hs fun u hu => ?_)
    · rw [prior_run, haround.named _ hx]
      rfl
    · exact .prior hd (haround.find? hs hx)
  | rule decl args users lazyRule =>
    simp only [deriveNode]
    split
    · rename_i husers
      subst husers
      have hplain : ¬ env.compilation.IsRecursive id := by
        rintro ⟨_, _, _, _, heq, hne⟩
        cases hd.symm.trans heq
        exact hne rfl
      exact (hdeclared hs decl).bind fun fn t ht _ =>
        (hflat hplain ht).finish fun u es hes hfn => .rule hd hfn hes
    · rename_i husers
      cases lazyRule with
      | none => exact .pure hs fun _ _ => .unwrapped hd husers
      | some lazyRule =>
        refine (derivationName_brings hs id).bind fun self t ht hself => ?_
        refine (hdeclared ht.sound (some lazyRule)).bind fun wrap t' ht' _ => ?_
        refine (hdeclared ht'.sound decl).bind fun fn t'' ht'' _ => ?_
        have hlater := ht'.trans ht''
        have hargs : Brings base reserved (args.mapM part) t'' fun u es =>
            AllRealize env.compilation u.derived ((id, self) :: ctx) args es :=
          mapM_brings hlater.sound fun p hp u hu => hpart p hp u _ hu.sound
            (((haround.later ht).within hself).later (hlater.trans hu))
        exact hargs.finish fun u es hes hfn hwrap hself =>
          .recursive hd husers hwrap hfn (mem_map_of_mem (mem_of_lookup hself)) hes

/-- A path without repetitions is no longer than the graph, so enough references can be followed. -/
theorem deriveWithin_brings (env : Env) (token : Token) {path : List DerivId} {d : Option DerivId}
    (hd : env.compilation.Rooted path d) {n : Nat}
    (hs : s.Sound base reserved) (haround : Around env.compilation s path ctx) (hnodup : path.Nodup)
    (hsize : ∀ r ∈ path, r < env.compilation.derivations.size)
    (hn : env.compilation.derivations.size < n + path.length) :
    Brings base reserved (deriveWithin env token n d) s fun u e =>
      Realizes env.compilation u.derived ctx d e := by
  induction hd generalizing n s ctx with
  | @missing path d h =>
    have hrun : deriveWithin env token n d = pure notImplemented := by
      cases d with
      | none => rw [deriveWithin]
      | some id =>
        cases n with
        | zero => rw [deriveWithin]
        | succ n =>
          simp only [Option.bind_some] at h
          rw [deriveWithin, h]
    rw [hrun]
    exact .pure hs fun _ _ => .missing h
  | @node path id d h hnew hprior hparts ih =>
    cases n with
    | zero =>
      have hsub : path ⊆ range env.compilation.derivations.size := fun r hr =>
        mem_range.2 (hsize r hr)
      have hle := (subperm_of_subset hnodup hsub).length_le
      rw [length_range] at hle
      omega
    | succ n =>
      have hlt : id < env.compilation.derivations.size :=
        (Array.getElem?_eq_some_iff.1 h).1
      rw [deriveWithin, h]
      refine deriveNode_brings env token hs h haround hprior fun p hp t ctx' ht haround' => ?_
      refine ih p hp ht haround' (nodup_cons.2 ⟨hnew, hnodup⟩) (fun r hr => ?_) ?_
      · obtain rfl | hr := mem_cons.1 hr
        · exact hlt
        · exact hsize r hr
      · rw [length_cons]
        omega

end Lower

/-! ## Names of derivations are bound -/

theorem Expr.mem_idents_of_refs {e : Expr} (h : o ∈ e.refs scopes) : o.ident ∈ e.idents := by
  rw [← (e.spots_spec scopes).2] at h
  obtain ⟨q, hq, ho⟩ := mem_filterMap.1 h
  have hident : o.ident = q.ident := by
    unfold Spot.occurrence? at ho
    split at ho <;> cases ho <;> rfl
  rw [hident, ← (e.spots_spec scopes).1]
  exact mem_map_of_mem hq

theorem Expr.mem_allRefs {es : List Expr} :
    o ∈ Expr.allRefs scopes es ↔ ∃ e ∈ es, o ∈ e.refs scopes := by
  induction es with
  | nil => simp [Expr.allRefs]
  | cons e es ih => simp [Expr.allRefs, ih]

theorem Property.mem_allRefs {ps : List Property} :
    o ∈ Property.allRefs scopes ps ↔ ∃ p ∈ ps, o ∈ p.refs scopes := by
  induction ps with
  | nil => simp [Property.allRefs]
  | cons p ps ih => simp [Property.allRefs, ih]

namespace Expr

variable {names : List Ident} {scopes : Scopes}

/-- Every name of a derivation that is referred to means a binding. -/
def Binds (names : List Ident) (scopes : Scopes) (e : Expr) : Prop :=
  ∀ o ∈ e.refs scopes, o.ident ∈ names → o.target.isSome

theorem Avoids.binds {e : Expr} (h : e.Avoids names) : e.Binds names scopes := fun _ ho hname =>
  absurd hname (h _ (mem_idents_of_refs ho))

theorem binds_apply {fn : Expr} {es : List Expr} (hfn : fn.Binds names scopes)
    (hes : ∀ e ∈ es, e.Binds names scopes) : (fn.apply es).Binds names scopes := by
  intro o ho
  obtain ho | ho := mem_append.1 ho
  · exact hfn o ho
  · obtain ⟨e, he, ho⟩ := mem_allRefs.1 ho
    exact hes e he o ho

theorem binds_ofElems {es : List Expr} (hes : ∀ e ∈ es, e.Binds names scopes) :
    (ofElems es).Binds names scopes := by
  intro o ho
  obtain ⟨e, he, ho⟩ := mem_allRefs.1 ho
  exact hes e he o ho

theorem binds_ofProperties {ps : List Property}
    (hps : ∀ p ∈ ps, ∃ e : Expr, p.refs scopes = e.refs scopes ∧ e.Binds names scopes) :
    (ofProperties ps).Binds names scopes := by
  intro o ho
  obtain ⟨p, hp, ho⟩ := Property.mem_allRefs.1 ho
  obtain ⟨e, hrefs, he⟩ := hps p hp
  exact he o (hrefs ▸ ho)

theorem binds_lambda {self : Ident} {e : Expr} (he : e.Binds names ([self.name] :: scopes)) :
    (lambda [self] e).Binds names scopes :=
  he

end Expr

theorem Scopes.resolve_cons_isSome {frame : List String} {x : String}
    (h : x ∈ frame ∨ (scopes.resolve x).isSome) : (Scopes.resolve (frame :: scopes) x).isSome := by
  rw [Scopes.resolve]
  split
  · rfl
  · rename_i hnone
    rw [Option.isSome_map]
    exact h.resolve_left fun hx => absurd hx (idxOf?_eq_none_iff.1 hnone)

mutual

theorem Realizes.binds {c : Compilation} {names : List Ident} (hnames : ∀ x ∈ names, x.mark.isSome)
    {ctx : List (DerivId × Ident)} {scopes : Scopes}
    (hctx : ∀ b ∈ ctx, (scopes.resolve b.2.name).isSome) {d : Option DerivId} {e : Expr} :
    Realizes c names ctx d e → e.Binds names scopes
  | .missing _ | .invalid _ | .unwrapped _ _ => (notImplemented_avoids hnames).binds
  | .blockScope _ he | .implicitScope _ he => he.binds
  | .emptyObject _ => by simp [Expr.Binds, Expr.ofProperties, Expr.refs, Property.allRefs]
  | .literal (v := v) _ => by
    cases v <;>
      simp [Expr.Binds, Literal.expr, Expr.refs, Expr.ofString, Expr.ofFloat, Expr.ofBool]
  | .intersection _ hes => by
    refine Expr.binds_ofProperties fun p hp => ?_
    obtain ⟨e, he, rfl⟩ := mem_map.1 hp
    exact ⟨e, rfl, hes.binds hnames hctx e he⟩
  | .object _ hes => by
    refine Expr.binds_ofProperties fun p hp => ?_
    rw [← map_uncurry_zip_eq_zipWith] at hp
    obtain ⟨⟨field, e⟩, hmem, rfl⟩ := mem_map.1 hp
    exact ⟨e, rfl, hes.binds hnames hctx e (of_mem_zip hmem).2⟩
  | .tuple _ hes => Expr.binds_ofElems (hes.binds hnames hctx)
  | .prior _ hx => by
    intro o ho _
    obtain rfl := mem_singleton.1 ho
    exact hctx _ (mem_of_find?_eq_some hx)
  | .rule _ hfn hes => Expr.binds_apply hfn.binds (hes.binds hnames hctx)
  | .recursive _ _ hwrap hfn _ hes => by
    refine Expr.binds_apply hwrap.binds fun e he => ?_
    obtain rfl := mem_singleton.1 he
    refine Expr.binds_lambda (Expr.binds_apply hfn.binds (hes.binds hnames fun b hb => ?_))
    refine Scopes.resolve_cons_isSome ?_
    obtain rfl | hb := mem_cons.1 hb
    · exact .inl (mem_singleton_self _)
    · exact .inr (hctx b hb)

theorem AllRealize.binds {c : Compilation} {names : List Ident}
    (hnames : ∀ x ∈ names, x.mark.isSome) {ctx : List (DerivId × Ident)} {scopes : Scopes}
    (hctx : ∀ b ∈ ctx, (scopes.resolve b.2.name).isSome) {ds : List (Option DerivId)}
    {es : List Expr} : AllRealize c names ctx ds es → ∀ e ∈ es, e.Binds names scopes
  | .nil => by simp
  | .cons h hs => forall_mem_cons.2 ⟨h.binds hnames hctx, hs.binds hnames hctx⟩

end

/-- Deriving a derivation whose back references point to recursive rules around them realizes it, in
every sound state and so in every state of a file that is being lowered: each back reference is the
parameter of the arrow of its own rule. No name of a derivation is free in the result. -/
theorem Lower.back_references_bound (env : Env) (d : Option DerivId) (token : Token) (base : Nat)
    (reserved : List String) (s : Lowering) (hs : s.Sound base reserved)
    (hd : env.compilation.Rooted [] d) :
    Realizes env.compilation ((derive env d token).run s).2.derived []
        d ((derive env d token).run s).1 ∧
      ∀ o ∈ ((derive env d token).run s).1.refs [],
        o.ident ∈ ((derive env d token).run s).2.derived → o.target.isSome := by
  have haround : Around env.compilation s [] [] := ⟨by simp, by simp⟩
  obtain ⟨hadvances, hlater⟩ := deriveWithin_brings env token hd hs haround nodup_nil (by simp)
    (n := env.compilation.derivations.size + 1) (by simp)
  have hrealizes := hlater _ (.refl hadvances.sound)
  exact ⟨hrealizes, hrealizes.binds hadvances.sound.derived_marked (by simp)⟩

/-- A rule `forest` around a rule `tree` whose arguments refer back to both. -/
def forestRules : Compilation where
  declarations := #[{ name := "forest", kind := .other }, { name := "tree", kind := .other },
    { name := "lazy", kind := .other }]
  derivations := #[.rule (some 0) [some 1] 1 (some 2), .rule (some 1) [some 2, some 3] 1 (some 2),
    .prior (some 0), .prior (some 1)]

/-- The name `derived_n`. -/
def derivedName (n : Nat) : Ident :=
  { Ident.synthetic (numbered "derived" n) with mark := some (n - 1) }

/-- `lazy((derived_1) => forest(lazy((derived_2) => tree(derived_1, derived_2))))` -/
theorem Lower.back_references_bound_nested :
    forestRules.Rooted [] (some 0) ∧
      ((derive { compilation := forestRules } (some 0) {}).run
        (Session.start { compilation := forestRules } {})).1 =
        (Expr.ofName "lazy").apply [.lambda [derivedName 1] ((Expr.ofName "forest").apply
          [(Expr.ofName "lazy").apply [.lambda [derivedName 2] ((Expr.ofName "tree").apply
            [.ofIdent (derivedName 1), .ofIdent (derivedName 2)])]])] ∧
      ∀ o ∈ ((derive { compilation := forestRules } (some 0) {}).run
          (Session.start { compilation := forestRules } {})).1.refs [],
        o.ident ∈ ((derive { compilation := forestRules } (some 0) {}).run
          (Session.start { compilation := forestRules } {})).2.derived → o.target.isSome := by
  have hrecursive : ∀ r ∈ [1, 0], forestRules.IsRecursive r := by
    simp only [forall_mem_cons, not_mem_nil, false_implies, implies_true, and_true]
    exact ⟨⟨_, _, _, _, rfl, by decide⟩, ⟨_, _, _, _, rfl, by decide⟩⟩
  have hprior {id r : DerivId} (hid : forestRules.derivation? id = some (.prior (some r)))
      (hnew : id ∉ [1, 0]) (hr : r ∈ [1, 0]) : forestRules.Rooted [1, 0] (some id) :=
    .node hid hnew (fun _ h => ⟨r, hr, (Derivation.prior.inj h).symm, hrecursive r hr⟩)
      (by simp [Derivation.parts])
  have hrooted : forestRules.Rooted [] (some 0) := by
    refine .node rfl (by simp) (by rintro _ ⟨⟩) fun p hp => ?_
    obtain rfl : p = some 1 := mem_singleton.1 hp
    refine .node rfl (by simp) (by rintro _ ⟨⟩) fun p hp => ?_
    obtain rfl | hp := mem_cons.1 hp
    · exact hprior rfl (by simp) (by simp)
    · obtain rfl := mem_singleton.1 hp
      exact hprior rfl (by simp) (by simp)
  exact ⟨hrooted, by rfl, (back_references_bound { compilation := forestRules } (some 0) {} _ _ _
    (Session.start_sound _ {}) hrooted).2⟩

end ExtensionLowering
