import ExtensionLowering.Proofs.Lowering.Events
import ExtensionLowering.Proofs.Lowering.Provenance
/-!
# Where references are laid

`Lays` relates what a walk asks for to the spots of the tree that it builds, state by state: every
marked reference of the tree answers a request or is the name of something else that lowering has
named, and it stands within the frames of the request. A request may stay unanswered. `Laid` is the
logic for showing it of lowering, result by result.
-/
namespace ExtensionLowering

open List

abbrev Env.Unmarked : Env → Prop :=
  TraceIs (·.mark = none)

/-- Is it a reference or a binding of something that lowering shares or has named? -/
@[grind =] def Spot.isInserted (q : Spot) : Bool :=
  q.role ≠ .label && q.ident.mark.isSome

/-- The spots that may stand in a tree, once the scopes around it are known. -/
abbrev View := Scopes → Spot → Prop

/-- A view has the marked references and bindings of a tree. -/
@[grind =] def View.Shows (p : View) (spots : Scopes → List Spot) : Prop :=
  ∀ sc, ∀ q ∈ spots sc, q.isInserted → p sc q

attribute [grind =] Expr.spots Expr.allSpots Expr.apply Expr.applyTyped

variable {p : View}

theorem View.Shows.mono {p' : View} {spots : Scopes → List Spot} (h : p.Shows spots)
    (hp : ∀ sc q, p sc q → p' sc q) : p'.Shows spots := fun sc q hq hins =>
  hp sc q (h sc q hq hins)

theorem View.shows_nil : p.Shows fun _ => [] := fun _ _ hq =>
  absurd hq not_mem_nil

theorem View.Shows.append {p' : View} {spots spots' : Scopes → List Spot} (h : p.Shows spots)
    (h' : p'.Shows spots') :
    View.Shows (fun sc q => p sc q ∨ p' sc q) fun sc => spots sc ++ spots' sc := fun sc q hq hins =>
  (mem_append.1 hq).imp (h sc q · hins) (h' sc q · hins)

/-- The view of one reference. -/
def View.one (id : Ident) : View :=
  fun sc q => q = ⟨id, .reference, sc⟩

/-- The spot binds the copy of one of the declarations. -/
def Spot.BindsCopy (o : List (DeclId × Ident)) (held : List DeclId) (q : Spot) : Prop :=
  q.role = .binder ∧ ∃ d ∈ held, (d, q.ident) ∈ o

theorem Spot.BindsCopy.mono {o : List (DeclId × Ident)} {held held' : List DeclId} {q : Spot}
    (h : q.BindsCopy o held) (hheld : held ⊆ held') : q.BindsCopy o held' :=
  ⟨h.1, h.2.imp fun _ hd => ⟨hheld hd.1, hd.2⟩⟩

/-! ## Steps -/

namespace Ledger

variable (l : Ledger)

/-- The ledger has handed out the identifier for a path. -/
def Knows (l : Ledger) (path : String) (id : Ident) : Prop :=
  (∃ e ∈ l.entries, e.path = path ∧ e.ident = id) ∨ (id, path) ∈ l.retired

/-- A change of a ledger that forgets nothing, as long as every path has one entry. -/
def Grows (l l' : Ledger) : Prop :=
  (l.entries.map (·.path)).Nodup →
    (l'.entries.map (·.path)).Nodup ∧ ∀ path id, l.Knows path id → l'.Knows path id

theorem Grows.refl : l.Grows l := fun h =>
  ⟨h, fun _ _ h => h⟩

theorem Grows.trans {l l' l'' : Ledger} (h : l.Grows l') (h' : l'.Grows l'') : l.Grows l'' :=
  fun hpaths =>
    have ⟨hpaths', hknows⟩ := h hpaths
    have ⟨hpaths'', hknows'⟩ := h' hpaths'
    ⟨hpaths'', fun path id hk => hknows' path id (hknows path id hk)⟩

theorem setBalance_grows (path : String) (b : Balance) : l.Grows (l.setBalance path b) := by
  have hpaths : (l.setBalance path b).entries.map (·.path) = l.entries.map (·.path) := by
    rw [setBalance, map_map]
    refine map_congr_left fun e _ => ?_
    dsimp only [Function.comp]
    split <;> rfl
  refine fun h => ⟨hpaths ▸ h, ?_⟩
  rintro _ _ (⟨e, he, rfl, rfl⟩ | hk)
  · refine .inl ⟨_, mem_map_of_mem he, ?_⟩
    split <;> exact ⟨rfl, rfl⟩
  · exact .inr hk

theorem remove_grows (path : String) : l.Grows (l.remove path) := by
  rw [remove]
  split
  · exact .refl l
  · rename_i e he
    split
    · exact .refl l
    · split
      · intro h
        refine ⟨h.sublist (filter_sublist.map _), ?_⟩
        rintro _ _ (⟨x, hx, rfl, rfl⟩ | hk)
        · by_cases hpath : x.path = e.path
          · have hxe : x = e := inj_on_of_nodup_map h hx (at?_mem he) hpath
            exact .inr (hxe ▸ mem_cons_self)
          · exact .inl ⟨x, mem_filter.2 ⟨hx, by simpa using hpath⟩, rfl, rfl⟩
        · exact .inr (mem_cons_of_mem _ hk)
      · exact l.setBalance_grows path _

theorem retractAll_grows (ids : List Ident) : l.Grows (l.retractAll ids).1 := by
  induction ids generalizing l with
  | nil => exact .refl l
  | cons id ids ih =>
    have hone : l.Grows (l.retractOne id).1 := by
      rw [retractOne]
      split
      · exact l.remove_grows _
      · exact .refl l
    exact hone.trans (ih _)

theorem get_grows (supply : NameSupply) (path : String) :
    l.Grows (l.get supply path).2.1 ∧ (l.get supply path).2.1.Knows path (l.get supply path).1 := by
  obtain ⟨e, n, he, -, hget⟩ | ⟨e, he, -, hget⟩ | ⟨hnone, id, supply', -, hget⟩ :=
    l.get_cases supply path
  · rw [hget]
    have hpath := at?_path he
    refine ⟨l.setBalance_grows path _, .inl ⟨_, mem_map_of_mem (at?_mem he), ?_⟩⟩
    split <;> exact ⟨hpath, rfl⟩
  · rw [hget]
    exact ⟨.refl l, .inl ⟨e, at?_mem he, at?_path he, rfl⟩⟩
  · rw [hget]
    refine ⟨fun h => ⟨?_, ?_⟩, .inl ⟨_, mem_append_right _ mem_cons_self, rfl, rfl⟩⟩
    · have hnew : ∀ e ∈ l.entries, e.path ≠ path := fun e he => by
        simpa using List.find?_eq_none.1 hnone e he
      rw [map_append]
      refine nodup_append'.2 ⟨h, nodup_singleton _, ?_⟩
      simpa [disjoint_singleton] using hnew
    · rintro _ _ (⟨e, he, rfl, rfl⟩ | hk)
      · exact .inl ⟨e, mem_append_left _ he, rfl, rfl⟩
      · exact .inr hk

end Ledger

namespace Lowering

/-- The names of derivations that refer to themselves. -/
def derived (s : Lowering) : List Ident :=
  s.names.derivations.map (·.2)

/-- The identifiers that are synthesized neither for imports nor for pinned copies. -/
def unpinned (s : Lowering) : List Ident :=
  s.traceVar.toList ++ s.derived ++ s.names.aliases.map (·.2.ident)

theorem derived_subset_unpinned (s : Lowering) : s.derived ⊆ s.unpinned := fun _ h =>
  mem_append_left _ (mem_append_right _ h)

theorem mem_others {s : Lowering} {id : Ident} :
    id ∈ s.others ↔ id ∈ s.unpinned ∨ id ∈ s.pinned.map (·.2) := by
  simp only [others, unpinned, derived, mem_append]
  tauto

/-- A step that registers no copy and forgets nothing. -/
structure Keeps (s t : Lowering) : Prop where
  pinned : t.pinned = s.pinned
  unpinned : s.unpinned ⊆ t.unpinned
  derived : s.derived ⊆ t.derived
  ledger : s.ledger.Grows t.ledger

/-- A step that registers the copies `new`, for those declarations of a list that have none. -/
structure Registers (s : Lowering) (unique : List DeclId) (new : List (DeclId × Ident))
    (t : Lowering) : Prop where
  pinned : t.pinned = new ++ s.pinned
  unpinned : t.unpinned = s.unpinned
  derived : t.derived = s.derived
  ledger : t.ledger = s.ledger
  registered : ∀ d ∈ unique, s.pinned.lookup d = none → ∃ id, (d, id) ∈ new
  listed : ∀ d id, (d, id) ∈ new → d ∈ unique ∧ s.pinned.lookup d = none
  distinct : (new.map (·.1)).Nodup

/-- What lies between two states: the requests of a walk, within a listing that has registered the
copies `o`, and what may stand in the tree that was built. The names of frames are among `own`. -/
inductive Lays (own : List String) :
    List (DeclId × Ident) → Lowering → List Event → View → Lowering → Prop
  | append {o s t u E E' p p'} (h : Lays own o s E p t) (h' : Lays own o t E' p' u) :
      Lays own o s (E ++ E') (fun sc q => p sc q ∨ p' sc q) u
  /-- What is built may be put into functions that bind derivations that refer to themselves. -/
  | within {o s t E} {p p' : View} (h : Lays own o s E p t)
      (hp : ∀ sc q, p' sc q →
        (∃ frames : Scopes, (∀ x ∈ frames.flatten, ∃ id ∈ t.derived, id.name = x) ∧
          p (frames ++ sc) q) ∨
        (q.role = .binder ∧ q.ident ∈ t.derived)) :
      Lays own o s E p' t
  | quiet {o s t} (h : s.Keeps t) : Lays own o s [] (fun _ _ => False) t
  | named {o s id} (h : id ∈ s.unpinned) : Lays own o s [] (View.one id) s
  | module {o s path id} (h : s.ledger.Knows path id) :
      Lays own o s [.module path] (View.one id) s
  | pin {o s d id} (h : s.pinned.lookup d = some id) :
      Lays own o s [.pin d] (View.one id) s
  | unanswered {o s} (e : Event) (h : (∃ path, e = .module path) ∨ ∃ d, e = .pin d) :
      Lays own o s [e] (fun _ _ => False) s
  /-- The scopes that a frame becomes bind its names and the copies that stand in it. -/
  | frame {o s t E p names held} (h : Lays own o s E p t) (frames : Scopes) (hown : names ⊆ own)
      (hnames : ∀ x, x ∈ frames.flatten ↔
        x ∈ names ∨ ∃ d id, (d, id) ∈ o ∧ d ∈ held ∧ id.name = x) :
      Lays own o s [.frame names held E]
        (fun sc q => p (frames ++ sc) q ∨ q.BindsCopy o held) t
  | listing {o new s s' t E p unique} (hnew : s.Registers unique new s')
      (h : Lays own new s' E p t) : Lays own o s [.listing unique E] p t

theorem Keeps.refl (s : Lowering) : s.Keeps s :=
  ⟨rfl, List.Subset.refl _, List.Subset.refl _, .refl _⟩

variable {own : List String} {o : List (DeclId × Ident)} {s t : Lowering} {E : List Event}
  {p p' : View}

theorem Lays.subset (h : Lays own o s E p t) (hp : ∀ sc q, p' sc q → p sc q) :
    Lays own o s E p' t :=
  h.within fun sc q hq => .inl ⟨[], by simp, hp sc q hq⟩

/-- The step comes first, then what it hands out is laid. -/
theorem Lays.after {u : Lowering} (h : s.Keeps t) (h' : Lays own o t E p u) : Lays own o s E p u :=
  ((Lays.quiet h).append h').subset fun _ _ => .inr

section

variable (h : Lays own o s E p t)
include h

theorem Lays.followed {u : Lowering} (h' : t.Keeps u) : Lays own o s E p u := by
  have h := h.append (Lays.quiet h')
  rw [append_nil] at h
  exact h.subset fun _ _ => .inl

/-- Names of other things are never forgotten. -/
theorem Lays.unpinned_subset : s.unpinned ⊆ t.unpinned := by
  induction h with
  | append _ _ ih ih' => exact List.Subset.trans ih ih'
  | within _ _ ih | frame _ _ _ _ ih => exact ih
  | quiet h => exact h.unpinned
  | named | module | pin | unanswered => exact List.Subset.refl _
  | listing hnew _ ih => exact hnew.unpinned ▸ ih

theorem Lays.derived_subset : s.derived ⊆ t.derived := by
  induction h with
  | append _ _ ih ih' => exact List.Subset.trans ih ih'
  | within _ _ ih | frame _ _ _ _ ih => exact ih
  | quiet h => exact h.derived
  | named | module | pin | unanswered => exact List.Subset.refl _
  | listing hnew _ ih => exact hnew.derived ▸ ih

theorem Lays.pinned_append : ∃ more, t.pinned = more ++ s.pinned := by
  induction h with
  | append _ _ ih ih' =>
    obtain ⟨more, hmore⟩ := ih
    obtain ⟨more', hmore'⟩ := ih'
    exact ⟨more' ++ more, by rw [hmore', hmore, append_assoc]⟩
  | within _ _ ih | frame _ _ _ _ ih => exact ih
  | quiet h => exact ⟨[], h.pinned⟩
  | named | module | pin | unanswered => exact ⟨[], rfl⟩
  | @listing o new _ _ _ _ _ _ hnew _ ih =>
    obtain ⟨more, hmore⟩ := ih
    exact ⟨more ++ new, by rw [hmore, hnew.pinned, append_assoc]⟩

theorem Lays.others_subset : s.others ⊆ t.others := by
  intro id hid
  obtain ⟨more, hmore⟩ := h.pinned_append
  rw [mem_others] at hid ⊢
  refine hid.imp (h.unpinned_subset ·) fun hid => ?_
  rw [hmore, map_append]
  exact mem_append_right _ hid

theorem Lays.ledger_grows : s.ledger.Grows t.ledger := by
  induction h with
  | append _ _ ih ih' => exact ih.trans ih'
  | within _ _ ih | frame _ _ _ _ ih => exact ih
  | quiet h => exact h.ledger
  | named | module | pin | unanswered => exact .refl _
  | listing hnew _ ih => exact hnew.ledger ▸ ih

/-- What is bound is a derivation, a copy of the listing, or one that is registered on the way. -/
theorem Lays.binder {sc : Scopes} {q : Spot} (hq : p sc q) (hrole : q.role = .binder) :
    q.ident ∈ t.derived ∨ (∃ d, (d, q.ident) ∈ o) ∨
      ∃ more, t.pinned = more ++ s.pinned ∧ q.ident ∈ more.map (·.2) := by
  induction h generalizing sc with
  | append h h' ih ih' =>
    obtain ⟨more, hmore⟩ := h.pinned_append
    obtain ⟨more', hmore'⟩ := h'.pinned_append
    obtain hq | hq := hq
    · refine (ih hq).imp (h'.derived_subset ·) (.imp_right fun ⟨new, hnew, hid⟩ => ?_)
      exact ⟨more' ++ new, by rw [hmore', hnew, append_assoc],
        by rw [map_append]; exact mem_append_right _ hid⟩
    · refine (ih' hq).imp_right (.imp_right fun ⟨new, hnew, hid⟩ => ?_)
      exact ⟨new ++ more, by rw [hnew, hmore, append_assoc],
        by rw [map_append]; exact mem_append_left _ hid⟩
  | within _ hp ih =>
    obtain ⟨frames, -, hq⟩ | ⟨-, hq⟩ := hp sc q hq
    · exact ih hq
    · exact .inl hq
  | quiet | unanswered => exact hq.elim
  | named | module | pin =>
    obtain rfl := hq
    cases hrole
  | frame _ _ _ _ ih =>
    obtain hq | ⟨-, d, -, hq⟩ := hq
    · exact ih hq
    · exact .inr (.inl ⟨d, hq⟩)
  | @listing o new _ _ _ _ _ _ hnew h ih =>
    obtain ⟨more, hmore⟩ := h.pinned_append
    obtain hq | ⟨d, hq⟩ | ⟨more, hmore, hq⟩ := ih hq
    · exact .inl hq
    · refine .inr (.inr ⟨more ++ new, by rw [hmore, hnew.pinned, append_assoc], ?_⟩)
      rw [map_append]
      exact mem_append_right _ (mem_map_of_mem hq)
    · refine .inr (.inr ⟨more ++ new, by rw [hmore, hnew.pinned, append_assoc], ?_⟩)
      rw [map_append]
      exact mem_append_left _ hq

end

end Lowering

namespace Lower

open Lowering

variable {p : View} {ids : List Ident} {e : Expr} {env : Env} {args : List Expr}
variable {α β : Type} {own : List String} {o : List (DeclId × Ident)} {E E' : List Event}
variable {sc : Scopes} {q : Spot}

/-- Whatever the state, running `x` lays the requests `E`, and its result is as it should be. -/
def Laid (own : List String) (o : List (DeclId × Ident)) (E : List Event) (Q : α → View → Prop)
    (x : Lower α) : Prop :=
  ∀ s, ∃ p, Q (x.run s).1 p ∧ Lays own o s E p (x.run s).2

namespace Laid

variable {P P' : α → View → Prop} {Q : β → View → Prop} {x : Lower α} {f : α → Lower β}

section

variable (hx : Laid own o E P x)
include hx

theorem bind
    (hf : ∀ a p, P a p → Laid own o E' (fun b p' => Q b fun sc q => p sc q ∨ p' sc q) (f a)) :
    Laid own o (E ++ E') Q (x >>= f) := by
  intro s
  obtain ⟨p, hP, hp⟩ := hx s
  obtain ⟨p', hQ, hp'⟩ := hf _ p hP (x.run s).2
  exact ⟨_, hQ, hp.append hp'⟩

/-- What follows does not use the state. -/
theorem finish {g : α → β} (hf : ∀ a p, P a p → Q (g a) p) :
    Laid own o E Q (x >>= fun a => Pure.pure (g a)) := by
  intro s
  obtain ⟨p, hP, hp⟩ := hx s
  exact ⟨p, hf _ p hP, hp⟩

theorem mono (h : ∀ a p, P a p → P' a p) : Laid own o E P' x := by
  intro s
  obtain ⟨p, hP, hp⟩ := hx s
  exact ⟨p, h _ p hP, hp⟩

/-- A fact about the result in any state. -/
theorem fact (A : α → Prop) (h : ∀ s, A (x.run s).1) : Laid own o E (fun a p => A a ∧ P a p) x := by
  intro s
  obtain ⟨p, hP, hp⟩ := hx s
  exact ⟨p, ⟨h s, hP⟩, hp⟩

/-- Parts of the result may be put into a scope without names. -/
theorem loosen
    (h : ∀ a p, P a p → P' a fun sc q => p sc q ∨ p ([] :: sc) q) : Laid own o E P' x := by
  intro s
  obtain ⟨p, hP, hp⟩ := hx s
  refine ⟨_, h _ p hP, hp.within fun sc q hq => .inl ?_⟩
  obtain hq | hq := hq
  · exact ⟨[], by simp, hq⟩
  · exact ⟨[[]], by simp, hq⟩

end

theorem pure {a : α} (h : P a fun _ _ => False) : Laid own o [] P (Pure.pure a) := fun s =>
  ⟨_, h, .quiet (.refl s)⟩

theorem skip {x : Lower Unit} (hx : ∀ s : Lowering, s.Keeps (x.run s).2) {f : Unit → Lower β}
    (hf : Laid own o E Q (f ())) : Laid own o E Q (x >>= f) := by
  intro s
  obtain ⟨p, hQ, hp⟩ := hf (x.run s).2
  exact ⟨p, hQ, hp.after (hx s)⟩

/-- What follows asks for nothing. -/
theorem followed (hx : Laid own o E P x) (hkeeps : ∀ a (s : Lowering), s.Keeps ((f a).run s).2)
    (h : ∀ a p s, P a p → Q ((f a).run s).1 p) : Laid own o E Q (x >>= f) := by
  intro s
  obtain ⟨p, hP, hp⟩ := hx s
  exact ⟨p, h _ p _ hP, hp.followed (hkeeps _ _)⟩

/-- The result stands in scopes that bind the names of a frame and its copies. -/
theorem frame (hx : Laid own o E P x) {names : List String} {held : List DeclId}
    (hown : names ⊆ own)
    (h : ∀ a p, P a p → ∃ frames : Scopes,
      (∀ x, x ∈ frames.flatten ↔ x ∈ names ∨ ∃ d id, (d, id) ∈ o ∧ d ∈ held ∧ id.name = x) ∧
        P' a fun sc q => p (frames ++ sc) q ∨ q.BindsCopy o held) :
    Laid own o [.frame names held E] P' x := by
  intro s
  obtain ⟨p, hP, hp⟩ := hx s
  obtain ⟨frames, hnames, hP'⟩ := h _ p hP
  exact ⟨_, hP', hp.frame frames hown hnames⟩

/-- A scope without copies. -/
theorem inside (hx : Laid own o E P x) {names : List String} (hown : names ⊆ own)
    (h : ∀ a p, P a p → P' a fun sc q => p (names :: sc) q) :
    Laid own o [.frame names [] E] P' x := by
  intro s
  obtain ⟨p, hP, hp⟩ := hx s
  exact ⟨_, h _ p hP, (hp.frame [names] hown (by simp)).subset fun _ _ => .inl⟩

end Laid

/-! ## Elementary operations -/

theorem fail_keeps (env : Env) (d : Diagnostic) (s : Lowering) : s.Keeps ((fail env d).run s).2 :=
  ⟨rfl, List.Subset.refl _, List.Subset.refl _, .refl _⟩

theorem giveUp_keeps (s : Lowering) : s.Keeps (giveUp.run s).2 :=
  ⟨rfl, List.Subset.refl _, List.Subset.refl _, .refl _⟩

theorem retract_keeps (env : Env) (dead : Expr) (s : Lowering) :
    s.Keeps ((retract env dead).run s).2 := by
  obtain ⟨errors, hrun⟩ := retract_run env dead s
  rw [hrun]
  exact ⟨rfl, List.Subset.refl _, List.Subset.refl _, s.ledger.retractAll_grows _⟩

theorem importAlias_laid (path : String) :
    Laid own o [.module path] (fun id p => p = View.one id) (importAlias path) := by
  intro s
  have hget := s.ledger.get_grows s.names.supply path
  have hkeeps : s.Keeps ((importAlias path).run s).2 :=
    ⟨rfl, List.Subset.refl _, List.Subset.refl _, hget.1⟩
  exact ⟨_, rfl, .after hkeeps (.module hget.2)⟩

/-- A step that names something else. -/
theorem laid_of_unpinned {x : Lower Ident} (hx : ∀ s : Lowering, s.Keeps (x.run s).2)
    (hid : ∀ s, (x.run s).1 ∈ (x.run s).2.unpinned) :
    Laid own o [] (fun id p => p = View.one id) x := fun s =>
  ⟨_, rfl, .after (hx s) (.named (hid s))⟩

theorem exportAlias_keeps (name : String) (exported : Bool) (s : Lowering) :
    s.Keeps ((exportAlias name exported).run s).2 ∧
      ((exportAlias name exported).run s).1 ∈ ((exportAlias name exported).run s).2.unpinned := by
  rw [exportAlias_run, NameTable.exportAlias]
  split
  · rename_i a ha
    refine ⟨.refl s, mem_append_right _ (mem_map.2 ⟨_, mem_of_lookup ha, rfl⟩)⟩
  · refine ⟨⟨rfl, fun id hid => ?_, List.Subset.refl _, .refl _⟩,
      mem_append_right _ mem_cons_self⟩
    simp only [unpinned, mem_append, map_cons, mem_cons] at hid ⊢
    exact hid.imp_right .inr

theorem derivationName_keeps (d : DerivId) (s : Lowering) :
    s.Keeps ((derivationName d).run s).2 ∧
      ((derivationName d).run s).1 ∈ ((derivationName d).run s).2.derived := by
  rw [derivationName_run, NameTable.derivationName]
  split
  · rename_i id hid
    exact ⟨.refl s, mem_map.2 ⟨_, mem_of_lookup hid, rfl⟩⟩
  · refine ⟨⟨rfl, fun id hid => ?_, subset_cons_self _ _, .refl _⟩, mem_cons_self⟩
    simp only [unpinned, derived, mem_append, map_cons, mem_cons] at hid ⊢
    exact hid.imp_left (·.imp_right .inr)

theorem traceVar_keeps (s : Lowering) :
    s.Keeps (traceVar.run s).2 ∧ (traceVar.run s).1 ∈ (traceVar.run s).2.unpinned := by
  cases hv : s.traceVar with
  | some id =>
    rw [traceVar_of_some hv]
    refine ⟨.refl s, mem_append_left _ (mem_append_left _ ?_)⟩
    rw [hv]
    exact mem_singleton_self id
  | none =>
    rw [traceVar_of_none hv]
    refine ⟨⟨rfl, fun id hid => ?_, List.Subset.refl _, .refl _⟩,
      mem_append_left _ (mem_append_left _ mem_cons_self)⟩
    simp only [unpinned, hv, Option.toList_none, nil_append] at hid
    simp only [unpinned, append_assoc]
    exact mem_append_right _ hid

/-! ## References -/

/-- The result is an expression whose marked references are in view. -/
abbrev Shown (e : Expr) (p : View) : Prop :=
  p.Shows (e.spots ·)

abbrev AllShown (es : List Expr) (p : View) : Prop :=
  p.Shows (Expr.allSpots · es)

theorem shows_unmarked {spots : Scopes → List Spot} (hspots : ∀ sc, (spots sc).map (·.ident) = ids)
    (h : ∀ id ∈ ids, id.mark = none) : p.Shows spots := by
  intro sc q hq hins
  have hmark := h q.ident (hspots sc ▸ mem_map_of_mem hq)
  simp [Spot.isInserted, hmark] at hins

theorem shown_unmarked (h : ∀ id ∈ e.idents, id.mark = none) : Shown e p :=
  shows_unmarked (fun sc => (e.spots_spec sc).1) h

theorem shown_one (id : Ident) : Shown (.ofIdent id) (View.one id) := by
  intro sc q hq _
  exact mem_singleton.1 hq

theorem allShown_cons {es : List Expr} : AllShown (e :: es) p ↔ Shown e p ∧ AllShown es p := by
  refine ⟨fun h => ⟨fun sc q hq => h sc q (mem_append_left _ hq),
    fun sc q hq => h sc q (mem_append_right _ hq)⟩, fun h sc q hq hins => ?_⟩
  exact (mem_append.1 hq).elim (h.1 sc q · hins) (h.2 sc q · hins)

theorem allShown_singleton (h : Shown e p) : AllShown [e] p :=
  allShown_cons.2 ⟨h, View.shows_nil⟩

theorem shown_member (h : Shown e p) (name : String) : Shown (e.member name) p := by
  intro sc q hq hins
  simp only [Expr.member, Expr.spots, mem_append, mem_spotsOf] at hq
  obtain hq | ⟨_, -, rfl⟩ := hq
  · exact h sc q hq hins
  · simp [Spot.isInserted] at hins

theorem Param.bound_ofIdent (ids : List Ident) :
    Param.bound (ids.map .ofIdent) = ids.map (·.name) := by
  simp [Param.bound, namesOf, Function.comp_def, Param.ofIdent, Param.name]

theorem Param.mem_spots_ofIdent :
    q ∈ Param.allSpots sc (ids.map .ofIdent) ↔ ∃ id ∈ ids, q = ⟨id, .binder, sc⟩ := by
  induction ids with
  | nil => simp [Param.allSpots]
  | cons id ids ih =>
    simp only [map_cons, Param.allSpots, Param.ofIdent, Param.spots, Expr.spots] at ih ⊢
    grind

theorem mem_spots_lambda :
    q ∈ (Expr.lambda ids e).spots sc ↔
      (∃ id ∈ ids, q = ⟨id, .binder, ids.map (·.name) :: sc⟩) ∨
        q ∈ e.spots (ids.map (·.name) :: sc) := by
  simp only [Expr.lambda, Expr.spots, Param.bound_ofIdent, Block.spots, Block.isMissing, if_true,
    append_nil, mem_append, Param.mem_spots_ofIdent]

theorem mem_spots_lambdaBlock {ss : List Stmt} :
    q ∈ (Expr.lambdaBlock ids ss).spots sc ↔
      (∃ id ∈ ids, q = ⟨id, .binder, ids.map (·.name) :: sc⟩) ∨
        q ∈ Stmt.allSpots (Stmt.scope true ss :: ids.map (·.name) :: sc) ss := by
  simp only [Expr.lambdaBlock, Expr.spots, Param.bound_ofIdent, Block.ofStmts, Block.spots,
    Block.isMissing, Expr.idents_missing, spotsOf, map_nil, Bool.false_eq_true, if_false,
    append_nil, mem_append, Param.mem_spots_ofIdent]

theorem reference_laid (env : Env) (d : Option Declaration) (exportName : String) (token : Token) :
    Laid own o (env.declarationEvents d) Shown (reference env d exportName token) := by
  have hname : Laid own o [] Shown (Pure.pure (Expr.ofName exportName)) :=
    .pure (shown_unmarked (by simp [Ident.synthetic]))
  cases d with
  | none => exact hname
  | some d =>
    rw [reference, Env.declarationEvents, Option.bind_some, Env.modulePath?]
    cases env.isCurrentFile d.file with
    | true =>
      simp only [if_true]
      split
      · exact (laid_of_unpinned (fun s => (exportAlias_keeps _ _ s).1)
          fun s => (exportAlias_keeps _ _ s).2).finish fun id p hp => hp ▸ shown_one id
      · exact hname
    | false =>
      simp only [Bool.false_eq_true, if_false]
      cases env.importPath? d with
      | some path =>
        exact (importAlias_laid path).finish fun id p hp => shown_member (hp ▸ shown_one id) _
      | none => exact hname.skip (fail_keeps env _)

theorem notImplemented_laid : Laid own o [] Shown (Pure.pure notImplemented) :=
  .pure (shown_unmarked (by simp [notImplemented, Ident.synthetic]))

theorem declarationReference_laid (env : Env) (d : Option Declaration) (token : Token) :
    Laid own o (env.declarationEvents d) Shown (declarationReference env d token) := by
  cases d with
  | none => exact notImplemented_laid
  | some d => exact reference_laid env (some d) d.name token

theorem extensionReference_laid (env : Env) (s : Signature) (token : Token) :
    Laid own o (env.declEvents s.decl) Shown (extensionReference env s token) :=
  reference_laid env _ _ token

theorem targetReference_laid (env : Env) (t : Target) (token : Token) :
    Laid own o (env.declEvents t.decl) Shown (targetReference env t token) :=
  reference_laid env _ _ token

theorem trace_laid (henv : env.Unmarked) (token : Token) :
    Laid own o [] Shown (trace env token) := by
  rw [trace]
  split
  · rename_i id hid
    exact .pure (shown_unmarked (by simpa using henv id hid))
  · refine (laid_of_unpinned (fun s => (traceVar_keeps s).1) fun s => (traceVar_keeps s).2).finish ?_
    rintro id p rfl sc q hq hins
    have := shown_one id sc q
    simp only [Expr.infixOp, Expr.ofString, Expr.spots, append_nil] at hq
    exact this hq hins

theorem withTrace_laid (henv : env.Unmarked) (s : Signature) (token : Token)
    (hargs : AllShown args p) :
    Laid own o [] (fun as p' => AllShown as fun sc q => p sc q ∨ p' sc q)
      (withTrace env s token args) := by
  rw [withTrace]
  split
  · refine (trace_laid henv token).finish fun e p' he => ?_
    intro sc q hq hins
    grind [Expr.allSpots_append]
  · refine .pure ?_
    grind

theorem callExtension_laid (henv : env.Unmarked) (s : Signature) (token : Token)
    (typeArgs : List TypeRef) {receiver : Expr} {p' : View} (hreceiver : Shown receiver p)
    (hargs : AllShown args p') :
    Laid own o (env.declEvents s.decl)
      (fun e p'' => Shown e fun sc q => p sc q ∨ p' sc q ∨ p'' sc q)
      (callExtension env s token typeArgs receiver args) := by
  rw [← append_nil (env.declEvents s.decl)]
  refine (extensionReference_laid env s token).bind fun fn r hfn => ?_
  refine (withTrace_laid henv s token hargs).finish fun as r' has sc q hq hins => ?_
  rw [extensionCallTyped] at hq
  split at hq <;> grind

theorem dataFirstCall_laid (env : Env) (target : Target) (token : Token) {first : Expr} {p' : View}
    (hfirst : Shown first p) (hargs : AllShown args p') :
    Laid own o (env.declEvents target.decl)
      (fun e p'' => Shown e fun sc q => p sc q ∨ p' sc q ∨ p'' sc q)
      (dataFirstCall env target token first args) := by
  refine (targetReference_laid env target token).finish fun fn r hfn sc q hq hins => ?_
  grind

/-! ## Derived values -/

theorem mapM_laid {γ : Type} {f : γ → Lower α} {events : γ → List Event}
    (spots : Scopes → α → List Spot)
    (hf : ∀ x, Laid own o (events x) (fun a p => p.Shows (spots · a)) (f x)) (xs : List γ) :
    Laid own o (xs.flatMap events) (fun as p => p.Shows fun sc => as.flatMap (spots sc))
      (xs.mapM f) := by
  induction xs with
  | nil =>
    rw [mapM_nil]
    exact .pure View.shows_nil
  | cons x xs ih =>
    rw [mapM_cons]
    refine (hf x).bind fun a p ha => ih.finish fun as p' has => ?_
    grind

theorem literal_laid (v : Literal) : Laid own o [] Shown (Pure.pure v.expr) :=
  .pure (shown_unmarked (by cases v <;> simp [Literal.expr]))

/-- What follows the name of a derivation may stand in the scope of a function that binds it. -/
theorem derivationName_bind {d : DerivId} {f : Ident → Lower Expr}
    (h : ∀ self, Laid own o E (fun e p => Shown e fun sc q =>
      p sc q ∨ p ([self.name] :: sc) q ∨ (q.role = .binder ∧ q.ident = self)) (f self)) :
    Laid own o E Shown (derivationName d >>= f) := by
  intro s
  obtain ⟨hkeeps, hself⟩ := derivationName_keeps d s
  obtain ⟨p, hshown, hp⟩ := h ((derivationName d).run s).1 ((derivationName d).run s).2
  have hderived := hp.derived_subset hself
  refine ⟨_, hshown, .after hkeeps (hp.within fun sc q hq => ?_)⟩
  obtain hq | hq | ⟨hrole, hq⟩ := hq
  · exact .inl ⟨[], by simp, hq⟩
  · refine .inl ⟨[[_]], ?_, hq⟩
    simpa using ⟨_, hderived, rfl⟩
  · exact .inr ⟨hrole, hq ▸ hderived⟩

theorem deriveNode_laid (env : Env) (token : Token) {part : Option DerivId → Lower Expr}
    {events : Option DerivId → List Event} (hpart : ∀ d, Laid own o (events d) Shown (part d))
    (id : DerivId) (d : Derivation) :
    Laid own o (env.planEvents events d) Shown (deriveNode env token part id d) := by
  have hdecl (d : Option DeclId) : Laid own o (env.declEvents d) Shown
      (declarationReference env (env.compilation.declaration? d) token) :=
    declarationReference_laid env _ token
  cases d with
  | invalid => exact notImplemented_laid
  | blockScope d =>
    -- The lookup reads the state, so its outcome is told apart in the state itself.
    intro s
    rw [blockScope_run]
    cases hd : d.bind fun d => s.pinned.lookup d with
    | none =>
      cases d with
      | none => exact hdecl none s
      | some d =>
        obtain ⟨p, hshown, hp⟩ := hdecl (some d) s
        exact ⟨p, hshown, ((Lays.unanswered (.pin d) (.inr ⟨d, rfl⟩)).append hp).subset
          fun _ _ => .inr⟩
    | some id' =>
      obtain ⟨d, rfl, hid⟩ := Option.bind_eq_some_iff.1 hd
      have hmodules : ∃ p, Lays own o s (env.declEvents (some d)) p s := by
        rw [Env.declEvents, Env.declarationEvents]
        cases (env.compilation.declaration? (some d)).bind env.modulePath? with
        | none => exact ⟨_, .quiet (.refl s)⟩
        | some path => exact ⟨_, .unanswered _ (.inl ⟨path, rfl⟩)⟩
      obtain ⟨p, hp⟩ := hmodules
      exact ⟨_, shown_one id', ((Lays.pin hid).append hp).subset fun _ _ => .inl⟩
  | implicitScope d => exact hdecl d
  | emptyObject => exact .pure (shown_unmarked (by simp))
  | literal v => exact literal_laid v
  | intersection fields | object fields =>
    refine (mapM_laid Property.spots (fun f => ?_) fields).finish fun ps p h => ?_
    · exact (hpart _).finish fun e p he => he
    · simpa only [Shown, Expr.ofProperties, Expr.spots, Property.allSpots_eq_flatMap] using h
  | tuple fields =>
    refine (mapM_laid Expr.spots hpart fields).finish fun es p h => ?_
    simpa only [Shown, Expr.ofElems, Expr.spots, Expr.allSpots_eq_flatMap] using h
  | prior target =>
    intro s
    rw [prior_run]
    cases hd : s.names.derivation? target with
    | none => exact notImplemented_laid s
    | some id' =>
      refine ⟨_, shown_one id', .named (derived_subset_unpinned s ?_)⟩
      exact mem_map.2 ⟨_, mem_of_lookup hd, rfl⟩
  | rule rule args users lazyRule =>
    have hargs := mapM_laid Expr.spots hpart args
    simp only [deriveNode, Env.planEvents]
    split
    · refine (hdecl rule).bind fun fn p hfn => hargs.finish fun as p' has => ?_
      grind [Expr.allSpots_eq_flatMap]
    · cases lazyRule with
      | none => exact notImplemented_laid
      | some rule' =>
        refine derivationName_bind fun self => ?_
        refine (hdecl (some rule')).bind fun wrap p hwrap => ?_
        refine (hdecl rule).bind fun fn p' hfn => hargs.finish fun as p'' has => ?_
        intro sc q hq hins
        simp only [Expr.apply, Expr.applyTyped, Expr.spots, Expr.allSpots, append_nil,
          mem_append, mem_spots_lambda, Expr.allSpots_eq_flatMap, mem_singleton,
          exists_eq_left] at hq
        obtain hq | rfl | hq | hq := hq
        · exact .inl (.inl (hwrap sc q hq hins))
        · exact .inr (.inr ⟨rfl, rfl⟩)
        · exact .inr (.inl (.inr (.inl (hfn _ q hq hins))))
        · exact .inr (.inl (.inr (.inr (has _ q hq hins))))

theorem deriveWithin_laid (env : Env) (token : Token) (n : Nat) (d : Option DerivId) :
    Laid own o (env.derivationEvents n d) Shown (deriveWithin env token n d) := by
  induction n generalizing d with
  | zero => cases d <;> exact notImplemented_laid
  | succ n ih =>
    cases d with
    | none => exact notImplemented_laid
    | some id =>
      rw [deriveWithin, Env.derivationEvents]
      cases env.compilation.derivation? id with
      | none => exact notImplemented_laid
      | some d => exact deriveNode_laid env token ih id d

theorem derive_laid (env : Env) (d : Option DerivId) (token : Token) :
    Laid own o (env.deriveEvents d) Shown (derive env d token) :=
  deriveWithin_laid env token _ d

/-! ## Arguments and names -/

theorem allSpots_replicate_voidZero (sc : Scopes) (n : Nat) :
    Expr.allSpots sc (List.replicate n .voidZero) = [] := by
  induction n with
  | zero => rfl
  | succ n ih => simpa [replicate_succ, Expr.allSpots, Expr.voidZero, Expr.spots] using ih

theorem fill_laid (henv : env.Unmarked) (token : Token) (skipped : Nat)
    (ps : List Formal) : Laid own o (env.fillEvents ps) AllShown (fill env token skipped ps) := by
  induction ps generalizing skipped with
  | nil => exact .pure View.shows_nil
  | cons f ps ih =>
    rw [fill, Env.fillEvents]
    have hrest (arg : Expr) (p : View) (harg : Shown arg p) : Laid own o (env.fillEvents ps)
        (fun as p' => AllShown as fun sc q => p sc q ∨ p' sc q)
        (do
          let rest ← fill env token 0 ps
          return List.replicate skipped .voidZero ++ arg :: rest) := by
      refine (ih 0).finish fun rest p' hrest sc q hq hins => ?_
      simp only [Expr.allSpots_append, allSpots_replicate_voidZero, nil_append] at hq
      exact (mem_append.1 hq).imp (harg sc q · hins) (hrest sc q · hins)
    cases hauto : f.automatic with
    | true =>
      simp only [Bool.true_or, if_true]
      exact (derive_laid env f.derivation token).bind hrest
    | false =>
      simp only [Bool.false_or, Bool.false_eq_true, if_false, nil_append]
      split
      · exact (trace_laid henv token).bind hrest
      · exact ih (skipped + 1)

theorem complete_laid (henv : env.Unmarked) (token : Token) (facts : CallFacts)
    (args : List Expr) {lowered : List Expr} (hlowered : AllShown lowered p) :
    Laid own o (env.completeEvents facts args)
      (fun as p' => AllShown as fun sc q => p sc q ∨ p' sc q)
      (complete env token facts args lowered) := by
  have hkeep : Laid own o [] (fun as p' => AllShown as fun sc q => p sc q ∨ p' sc q)
      (Pure.pure lowered) :=
    .pure fun sc q hq hins => .inl (hlowered sc q hq hins)
  rw [complete, Env.completeEvents]
  cases facts.formals with
  | none => exact hkeep
  | some formals =>
    dsimp only
    split
    · exact hkeep
    · refine (fill_laid henv token 0 _).finish fun rest p' hrest sc q hq hins => ?_
      simp only [Expr.allSpots_append] at hq
      exact (mem_append.1 hq).imp (hlowered sc q · hins) (hrest sc q · hins)

theorem unresolvedCall_keeps (env : Env) (token : Token) (callee : Expr) (s : Lowering) :
    s.Keeps ((unresolvedCall env token callee).run s).2 := by
  rw [unresolvedCall]
  split
  · exact fail_keeps env _ s
  · exact giveUp_keeps s

theorem name_laid {id : Ident} (hid : id.mark = none) : Laid own o id.events Shown (name id) := by
  rw [name, Ident.events]
  cases id.globalImport with
  | none => exact .pure (shown_unmarked (by simpa using hid))
  | some g =>
    exact (importAlias_laid g.path).finish fun a p hp => shown_member (hp ▸ shown_one a) g.name

theorem shorthand_laid (token : Token) {id : Option Ident} (hid : ∀ i ∈ id, i.mark = none) :
    Laid own o ((id.map Ident.events).getD []) (fun r p => p.Shows (Property.spots · r))
      (shorthand token id) := by
  cases id with
  | none => exact .pure View.shows_nil
  | some id =>
    have hmark := hid id rfl
    rw [shorthand, Option.map_some, Option.getD_some]
    split
    · refine (name_laid hmark).finish fun e p he sc q hq hins => he sc q ?_ hins
      grind [Property.spots, Expr.isLiteralKey, Expr.ofName, Expr.ofIdent]
    · rename_i hglobal
      rw [Ident.events, Option.not_isSome_iff_eq_none.1 hglobal]
      exact .pure (shows_unmarked (fun sc => (Property.spots_spec _ sc).1) (by simpa using hmark))

/-- A lazy expression is put into a function without parameters. -/
theorem shown_thunkIf (h : Shown e p) (lazy : Bool) :
    Shown (thunkIf lazy e) fun sc q => p sc q ∨ p ([] :: sc) q := by
  intro sc q hq hins
  cases lazy with
  | false => exact .inl (h sc q hq hins)
  | true =>
    simp only [thunkIf, if_true, Expr.thunk, mem_spots_lambda, not_mem_nil, false_and,
      exists_false, false_or] at hq
    exact .inr (h _ q hq hins)

end Lower

end ExtensionLowering
