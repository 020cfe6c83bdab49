import ExtensionLowering.Proofs.Alias.Capture
import ExtensionLowering.Proofs.Lowering.Provenance
/-!
# What moving declarations does to identifiers

The three passes that follow the walk, on identifiers in their scopes. Renaming touches references
to moved names only, moving touches what is declared at the top level, and relabelling touches marked
identifiers only. None of them changes a scope below the top level, so an identifier that they spare
means afterwards what it meant before.
-/
namespace ExtensionLowering

open List

namespace Renaming

variable {bound : List String}

/-- What renaming makes of some spots: it leaves them, writes new names into references, and puts
new identifiers behind the keys of shorthand properties. A reference to a moved name is left if a
scope around it binds the name, or one of the `vars` of a block does. -/
def Rewrites (r : Renaming) (vars : List String) (before after : List Spot) : Prop :=
  ∀ q ∈ after,
    (q ∈ before ∧ (q.IsReference → r.lookup q.ident.name = none ∨
      q.ident.name ∈ q.scopes.flatten ∨ q.ident.name ∈ vars)) ∨
    (q.role = .label ∧ q.ident.mark = none) ∨
    ∃ p ∈ before, p.IsReference ∧ ∃ b, r.lookup p.ident.name = some b ∧ q.role = .reference ∧
      q.scopes = p.scopes ∧ (q.ident = p.ident.rename b.name ∨ q.ident = b)

/-- The names that renaming takes for bound are bound by the scopes, or they are `vars`. -/
def Covers (vars : List String) (sc : Scopes) (bound : List String) : Prop :=
  ∀ x ∈ bound, x ∈ sc.flatten ∨ x ∈ vars

variable {r : Renaming} {vars : List String}
variable {x : String}

theorem Rewrites.append {a a' b b' : List Spot} (h : Rewrites r vars a a')
    (h' : Rewrites r vars b b') : Rewrites r vars (a ++ b) (a' ++ b') := by
  intro q hq
  obtain hq | hq := mem_append.1 hq
  · exact (h q hq).imp (.imp_left (mem_append_left _)) (.imp_right fun ⟨p, hp, hrest⟩ =>
      ⟨p, mem_append_left _ hp, hrest⟩)
  · exact (h' q hq).imp (.imp_left (mem_append_right _)) (.imp_right fun ⟨p, hp, hrest⟩ =>
      ⟨p, mem_append_right _ hp, hrest⟩)

theorem Rewrites.nil : Rewrites r vars [] [] := fun _ hq => absurd hq not_mem_nil

/-- What is no reference is left. -/
theorem Rewrites.spotsOf {role : SpotRole} (hrole : role = .binder ∨ role = .label) (sc : Scopes)
    (ids : List Ident) : Rewrites r vars (spotsOf role sc ids) (spotsOf role sc ids) := by
  refine fun q hq => .inl ⟨hq, fun href => ?_⟩
  obtain ⟨id, -, rfl⟩ := mem_spotsOf.1 hq
  obtain rfl | rfl := hrole <;> simp [Spot.IsReference] at href

/-- A list of statements declares a name in its own block, or as a `var`. -/
theorem mem_declaredNames_cases {ss : List Stmt} (h : x ∈ declaredNames ss) :
    x ∈ ss.flatMap Stmt.lexical ∨ x ∈ Stmt.allHoisted ss := by
  induction ss with
  | nil => cases h
  | cons s ss ih =>
    rw [declaredNames, flatMap_cons, filterMap_append, map_append] at h
    rw [flatMap_cons, Stmt.allHoisted, mem_append, mem_append]
    obtain h | h := mem_append.1 h
    · have hs : x ∈ s.lexical ∨ x ∈ s.hoisted := by
        cases s with
        | varDecl t exported k ds =>
          cases k with
          | var => exact .inr h
          | _ => exact .inl h
        | funcDecl | classDecl => exact .inl h
        | _ => cases h
      exact hs.imp .inl .inl
    · exact (ih h).imp .inr .inr

namespace Covers

variable {sc : Scopes} {bound : List String}

theorem push (h : Covers vars sc bound) {names names' : List String} (hnames : names ⊆ names') :
    Covers vars (names' :: sc) (names ++ bound) := by
  intro x hx
  rw [flatten_cons, mem_append]
  obtain hx | hx := mem_append.1 hx
  · exact .inl (.inl (hnames hx))
  · exact (h x hx).imp_left .inr

theorem params (h : Covers vars sc bound) (ps : List Param) :
    Covers vars (Param.bound ps :: sc) (paramNames ps ++ bound) :=
  h.push (paramNames_eq ps ▸ List.Subset.refl _)

/-- A block binds what it declares directly, but for its `var`s. -/
theorem block (h : Covers vars sc bound) (body : Bool) {ss : List Stmt}
    (hvars : body = false → Covers vars sc (Stmt.allHoisted ss)) :
    Covers vars (Stmt.scope body ss :: sc) (declaredNames ss ++ bound) ∧
      Covers vars (Stmt.scope body ss :: sc) (Stmt.allHoisted ss) := by
  have hhoisted : Covers vars (Stmt.scope body ss :: sc) (Stmt.allHoisted ss) := by
    intro x hx
    rw [flatten_cons, mem_append]
    cases body with
    | true => exact .inl (.inl (mem_append_right _ hx))
    | false => exact (hvars rfl x hx).imp_left .inr
  refine ⟨fun x hx => ?_, hhoisted⟩
  obtain hx | hx := mem_append.1 hx
  · obtain hx | hx := mem_declaredNames_cases hx
    · exact .inl (mem_append_left _ (mem_append_left _ hx))
    · exact hhoisted x hx
  · exact (h x hx).imp_left (mem_append_right _)

theorem append {names : List String} :
    Covers vars sc (names ++ bound) ↔ Covers vars sc names ∧ Covers vars sc bound := by
  simp only [Covers, forall_mem_append]

end Covers

theorem target?_eq_none (h : r.target? bound x = none) : x ∈ bound ∨ r.lookup x = none := by
  rw [target?] at h
  split at h
  · rename_i hbound
    exact .inl (by simpa using hbound)
  · exact .inr h

theorem target?_eq_some {b : Ident} (h : r.target? bound x = some b) : r.lookup x = some b := by
  rw [target?] at h
  split at h
  · cases h
  · exact h

theorem ident_rewrites {sc : Scopes} (h : Covers vars sc bound) (id : Ident) :
    Rewrites r vars [⟨id, .reference, sc⟩] [⟨r.ident bound id, .reference, sc⟩] := by
  intro q hq
  obtain rfl := mem_singleton.1 hq
  cases ht : r.target? bound id.name with
  | none =>
    have hident : r.ident bound id = id := by simp [ident, ht]
    rw [hident]
    exact .inl ⟨mem_singleton_self _, fun _ => (target?_eq_none ht).symm.imp_right (h _)⟩
  | some b =>
    exact .inr (.inr ⟨_, mem_singleton_self _, .inl rfl, b, target?_eq_some ht, rfl, rfl,
      .inl (by simp [ident, ht])⟩)

theorem shorthand_rewrites {sc : Scopes} (h : Covers vars sc bound) (t : Token)
    (name : Option Ident) :
    Rewrites r vars ((Property.shorthand t name).spots sc) ((r.shorthand bound t name).spots sc) := by
  cases name with
  | none => exact .nil
  | some id =>
    cases ht : r.target? bound id.name with
    | none =>
      have hshorthand : r.shorthand bound t (some id) = .shorthand t (some id) := by
        simp [shorthand, ht]
      rw [hshorthand]
      refine fun q hq => .inl ⟨hq, fun _ => ?_⟩
      obtain rfl : q = ⟨id, .shorthand, sc⟩ := mem_singleton.1 hq
      exact (target?_eq_none ht).symm.imp_right (h _)
    | some b =>
      intro q hq
      have hq : q = ⟨.synthetic id.name, .label, sc⟩ ∨ q = ⟨b, .reference, sc⟩ := by
        simpa [shorthand, ht, Property.spots, Expr.ofName, Expr.ofIdent, Expr.isLiteralKey,
          Expr.spots, ExtensionLowering.spotsOf] using hq
      obtain rfl | rfl := hq
      · exact .inr (.inl ⟨rfl, rfl⟩)
      · exact .inr (.inr ⟨⟨id, .shorthand, sc⟩, mem_singleton_self _, .inr rfl, b,
          target?_eq_some ht, rfl, rfl, .inr rfl⟩)

/-- Rewriting is a law of renaming. -/
def rewriting (r : Renaming) (vars : List String) : Law r where
  Rel := Rewrites r vars
  Covers := Covers vars
  Hoists := Covers vars
  Clear _ := True
  free := False
  clear_append h := ⟨h, h⟩
  hoists_append := Covers.append.1
  nil := .nil
  append := .append
  kept := .spotsOf
  ofIdent := ident_rewrites
  ofShorthand := shorthand_rewrites
  inParams h _ := h.params _
  inSelf {_ _ _ self} h _ := h.push (by cases self <;> exact List.Subset.refl _)
  inBlock h _ _ hvars := h.block _ hvars

theorem references_rewrites (ss : List Stmt) (sc : Scopes) :
    Rewrites r (Stmt.allHoisted ss) (Stmt.allSpots sc ss) (Stmt.allSpots sc (r.references ss)) := by
  rw [references]
  split
  · rename_i hempty
    obtain rfl := List.isEmpty_iff.1 hempty
    exact fun q hq => .inl ⟨hq, fun _ => .inl rfl⟩
  · have hempty : Covers (Stmt.allHoisted ss) sc [] := by simp [Covers]
    exact (rewriting r _).stmts_rel ss ⟨hempty, trivial, False.elim⟩ fun _ => .inr

/-- A marked identifier after renaming: it stood there, its name has moved, or it is an alias. -/
theorem references_idents {ss : List Stmt} {id : Ident}
    (hid : id ∈ (r.references ss).flatMap Stmt.idents) (hmark : id.mark ≠ none) :
    id ∈ ss.flatMap Stmt.idents ∨ (∃ x, (x, id) ∈ r) ∨
      ∃ i ∈ ss.flatMap Stmt.idents, ∃ b, r.lookup i.name = some b ∧ id = i.rename b.name := by
  simp only [← (Stmt.allSpots_spec _ []).1] at hid ⊢
  obtain ⟨q, hq, rfl⟩ := mem_map.1 hid
  obtain ⟨hq, -⟩ | ⟨-, hq⟩ | ⟨p, hp, -, b, hb, -, -, heq | heq⟩ := references_rewrites ss [] q hq
  · exact .inl (mem_map_of_mem hq)
  · exact absurd hq hmark
  · exact .inr (.inr ⟨_, mem_map_of_mem hp, b, hb, heq⟩)
  · exact .inr (.inl ⟨_, heq ▸ mem_of_lookup hb⟩)

end Renaming

/-! ## Moving -/

namespace Aliases

variable {ss : List Stmt} {sc : Scopes} {binding : Ident}
variable {as : Aliases}
variable {orig : String}

/-- What moving makes of the spots of top-level statements: it adds unmarked names and aliases that
are taken. -/
def Moves (as : Aliases) (ss : List Stmt) (sc : Scopes) (before after : List Spot) : Prop :=
  ∀ q ∈ after, q ∈ before ∨
    q.scopes = sc ∧ (q.ident.mark = none ∨ ∃ orig, (orig, q.ident) ∈ as.renames ss)

theorem mem_renames_of_moved? {s : Stmt} {name : Option Ident} {b : String × Ident}
    (hname : name ∈ declaredBy s) (h : as.moved? name = some b) : b ∈ as.renames [s] :=
  mem_filterMap.2 ⟨name, by simpa using hname, h⟩

theorem mem_renames_of_part {s part : Stmt} {b : String × Ident} (hpart : part ∈ s.singles)
    (h : as.moved? part.binder? = some b) : b ∈ as.renames [s] := by
  obtain ⟨id, -, hid, -⟩ := moved?_eq_some h
  exact mem_renames_of_moved? (mem_declaredBy_of_part hpart hid) (hid ▸ h)

theorem spots_under {s : Stmt} {q : Spot} (hq : q ∈ (s.under binding).spots sc) :
    q ∈ s.spots sc ∨ q = ⟨binding, .binder, sc⟩ := by
  unfold Stmt.under at hq
  split at hq
  case h_4 => exact .inl hq
  all_goals
    simp only [Stmt.spots, Declarator.allSpots, Declarator.spots, spotsOf, Option.toList_some,
      map_singleton, mem_append, mem_singleton] at hq ⊢
    grind

theorem spots_sequel (s : Stmt) : ∀ q ∈ (s.sequel orig binding).flatMap (Stmt.spots sc),
    q.scopes = sc ∧ (q.ident.mark = none ∨ q.ident = binding) := by
  rw [Stmt.sequel]
  cases s.isClass <;> cases s.isExported <;> cases s.isFixed <;>
    simp [Stmt.naming, Stmt.forwarding, Stmt.listing, Stmt.spots, Declarator.allSpots,
      Declarator.spots, Expr.spots, Expr.allSpots, Property.allSpots, Property.spots,
      Expr.isLiteralKey, Specifier.idents, spotsOf]

theorem moveStmt_spots (as : Aliases) (sc : Scopes) (s : Stmt) :
    as.Moves [s] sc (s.spots sc) (Stmt.allSpots sc (as.moveStmt s)) := by
  have hF (t : Token) (x : Bool) (k : VarKind) (ds : List Declarator) :
      (Stmt.varDecl t x k ds).spots sc = ds.flatMap fun d => (Stmt.varDecl t x k [d]).spots sc := by
    simp [Stmt.spots, Declarator.allSpots_eq_flatMap]
  intro q hq
  rw [Stmt.allSpots_eq_flatMap] at hq
  obtain hq | ⟨part, hpart, b, hm, hq⟩ := mem_flatMap_moveStmt hF hq
  · exact .inl hq
  have hb : b ∈ as.renames [s] := mem_renames_of_part hpart hm
  obtain hq | hq := hq
  · obtain hq | rfl := spots_under hq
    · exact .inl (Stmt.flatMap_singles hF s ▸ mem_flatMap.2 ⟨part, hpart, hq⟩)
    · exact .inr ⟨rfl, .inr ⟨b.1, hb⟩⟩
  · obtain ⟨hsc, hq⟩ := spots_sequel part q hq
    exact .inr ⟨hsc, hq.imp_right fun h : q.ident = b.2 => ⟨b.1, h ▸ hb⟩⟩

theorem moveAll_spots (as : Aliases) (sc : Scopes) (ss : List Stmt) :
    as.Moves ss sc (Stmt.allSpots sc ss) (Stmt.allSpots sc (as.moveAll ss)) := by
  intro q hq
  rw [moveAll, Stmt.allSpots_eq_flatMap, mem_flatMap] at hq
  obtain ⟨s', hs', hq⟩ := hq
  obtain ⟨s, hs, hs'⟩ := mem_flatMap.1 hs'
  have hq : q ∈ Stmt.allSpots sc (as.moveStmt s) := by
    rw [Stmt.allSpots_eq_flatMap]
    exact mem_flatMap.2 ⟨s', hs', hq⟩
  obtain hq | ⟨hsc, hq⟩ := as.moveStmt_spots sc s q hq
  · rw [Stmt.allSpots_eq_flatMap]
    exact .inl (mem_flatMap.2 ⟨s, hs, hq⟩)
  · refine .inr ⟨hsc, hq.imp_right ?_⟩
    rintro ⟨orig, hb⟩
    obtain ⟨name, hname, hmoved⟩ := mem_filterMap.1 hb
    refine ⟨orig, mem_filterMap.2 ⟨name, mem_flatMap.2 ⟨s, hs, ?_⟩, hmoved⟩⟩
    simpa using hname

/-- The identifiers of moved statements, without their scopes. -/
theorem moveAll_idents {id : Ident} (h : id ∈ (as.moveAll ss).flatMap Stmt.idents) :
    id ∈ ss.flatMap Stmt.idents ∨ id.mark = none ∨ ∃ orig, (orig, id) ∈ as.renames ss := by
  rw [← (Stmt.allSpots_spec _ []).1] at h ⊢
  obtain ⟨q, hq, rfl⟩ := mem_map.1 h
  exact (as.moveAll_spots [] ss q hq).imp mem_map_of_mem And.right

end Aliases

/-! ## Relabelling -/

theorem Aliases.lookup_untaken {as : Aliases} {r : Renaming} {m : Nat} {name : String}
    (h : (as.untaken r).lookup m = some name) :
    ∃ a, (name, a) ∈ as ∧ r.lookup name = none ∧ a.ident.mark = some m := by
  obtain ⟨a, ha, hmem⟩ := mem_filterMap.1 (mem_of_lookup h)
  obtain ⟨name', a⟩ := a
  dsimp only at hmem
  split at hmem
  · cases hmem
  · rename_i hfree
    obtain ⟨k, hk, hpair⟩ := Option.map_eq_some_iff.1 hmem
    obtain ⟨rfl, rfl⟩ := Prod.mk.inj hpair
    exact ⟨a, ha, Option.not_isSome_iff_eq_none.1 hfree, hk⟩

section Labels

variable {as : Aliases} {ss : List Stmt} {x : String} {a : Alias} {m : Nat}

theorem Aliases.lookup_renames_iff (ha : (x, a) ∈ as) :
    (as.renames ss).lookup x = none ↔ x ∉ declaredNames ss := by
  rw [lookup_eq_none_iff]
  constructor
  · intro hnone hdecl
    obtain ⟨i, hi, rfl⟩ := mem_map.1 hdecl
    obtain ⟨_, hdecl, rfl⟩ := mem_filterMap.1 hi
    cases hl : as.lookup i.name with
    | none => simpa using lookup_eq_none_iff.1 hl _ ha
    | some b =>
      have hmem : (i.name, b.ident) ∈ as.renames ss :=
        mem_filterMap.2 ⟨some i, hdecl, by simp [moved?, hl]⟩
      simpa using hnone _ hmem
  · intro hdecl b hb
    obtain ⟨i, -, hi, hname, -⟩ := mem_renames hb
    have hne : x ≠ b.1 := by
      rintro rfl
      exact hdecl (hname ▸ mem_map_of_mem (mem_filterMap.2 ⟨some i, hi, rfl⟩))
    simpa using hne

/-- The label of an alias is its plain name, unless a declaration takes the alias. -/
theorem Aliases.lookup_untaken_alias (h : (as.map (·.2.ident.mark)).Nodup) (ha : (x, a) ∈ as)
    (hm : a.ident.mark = some m) :
    (as.untaken (as.renames ss)).lookup m = if x ∈ declaredNames ss then none else some x := by
  cases hl : (as.untaken (as.renames ss)).lookup m with
  | none =>
    rw [if_pos]
    by_contra hdecl
    have hmem : (m, x) ∈ as.untaken (as.renames ss) :=
      mem_filterMap.2 ⟨_, ha, by simp [(lookup_renames_iff ha).2 hdecl, hm]⟩
    simpa using lookup_eq_none_iff.1 hl _ hmem
  | some name =>
    obtain ⟨b, hb, hnone, hm'⟩ := lookup_untaken hl
    obtain ⟨rfl, -⟩ := Prod.mk.inj (inj_on_of_nodup_map h hb ha (hm'.trans hm.symm))
    rw [if_neg ((lookup_renames_iff ha).1 hnone)]

end Labels

theorem Renaming.lookup_carried {r : Renaming} {ss : List Stmt} {m : Nat} {name : String}
    (h : (r.carried ss).lookup m = some name) :
    ∃ id ∈ ss.flatMap Stmt.idents, id.mark = some m ∧ id.name = name ∧
      ∃ b ∈ r, b.2.name = name ∧ b.2.mark ≠ some m := by
  obtain ⟨id, hid, hmem⟩ := mem_filterMap.1 (mem_of_lookup h)
  split at hmem
  · rename_i hany
    obtain ⟨k, hk, hpair⟩ := Option.map_eq_some_iff.1 hmem
    obtain ⟨rfl, rfl⟩ := Prod.mk.inj hpair
    obtain ⟨b, hb, hbinding⟩ := any_eq_true.1 hany
    simp only [Bool.and_eq_true, decide_eq_true_eq] at hbinding
    exact ⟨id, hid, hk, rfl, b, hb, hbinding.1, hk ▸ hbinding.2⟩
  · cases hmem

/-! ## After the walk -/

namespace Session

variable {a : String × Alias} {id : Ident} {m : Nat} {b : String × Ident}
variable (session : Session) (f : File)

/-- The new identifiers of the declarations that move. -/
def moves : Renaming :=
  (session.aliases f).renames (session.walk f).1.1

variable {session f}

theorem alias_mem_others (ha : a ∈ session.aliases f) : a.2.ident ∈ (session.walk f).2.others :=
  mem_append_right _ (mem_map_of_mem (f := fun a : String × Alias => a.2.ident) ha)

theorem others_synthesized (h : id ∈ (session.walk f).2.others) :
    id ∈ (session.walk f).2.synthesized :=
  mem_append_right _ h

theorem eq_of_alias_name {a b : String × Alias} (ha : a ∈ session.aliases f)
    (hb : b ∈ session.aliases f) (h : a.2.ident.name = b.2.ident.name) : a = b := by
  have hnames := (session.walk_accounts f).sound.names
  simp only [Lowering.synthesized, Lowering.others, map_append, map_map] at hnames
  have haliases := (nodup_append'.1 (nodup_append'.1 hnames).2.1).2.1
  exact inj_on_of_nodup_map haliases ha hb h

theorem alias_marks : ((session.aliases f).map (·.2.ident.mark)).Nodup := by
  have hmarks := (session.walk_accounts f).sound.marks
  simp only [Lowering.synthesized, Lowering.others, map_append, map_map] at hmarks
  exact (nodup_append'.1 (nodup_append'.1 hmarks).2.1).2.1

/-- One mark stands for one synthesized identifier. -/
theorem eq_of_synthesized_mark {a b : Ident} (ha : a ∈ (session.walk f).2.synthesized)
    (hb : b ∈ (session.walk f).2.synthesized) (h : a.mark = b.mark) : a = b :=
  inj_on_of_nodup_map (session.walk_accounts f).sound.marks ha hb h

theorem eq_of_synthesized_name {a b : Ident} (ha : a ∈ (session.walk f).2.synthesized)
    (hb : b ∈ (session.walk f).2.synthesized) (h : a.name = b.name) : a = b :=
  inj_on_of_nodup_map (session.walk_accounts f).sound.names ha hb h

/-- An identifier of the walked statements with the mark of a synthesized one is that one. -/
theorem eq_of_walked_mark {a : Ident} (hid : id ∈ session.walkedIdents f)
    (ha : a ∈ (session.walk f).2.synthesized) (h : id.mark = a.mark) : id = a := by
  have haccount := session.walk_accounts f
  obtain ⟨m, hm, hbase, -⟩ := haccount.sound.marked a ha
  obtain hbelow | hmem := haccount.known id hid
  · have := hbelow m (h.trans hm)
    omega
  · exact eq_of_synthesized_mark hmem ha h

/-- Names of the file are no synthesized names, so an identifier with the name and any mark is the
synthesized one. -/
theorem walked_mark_of_name {a : Ident} (hid : id ∈ session.walkedIdents f)
    (hm : id.mark = some m) (ha : a ∈ (session.walk f).2.synthesized) (h : a.name = id.name) :
    a.mark = some m := by
  have haccount := session.walk_accounts f
  obtain hbelow | hmem := haccount.known id hid
  · have hown := session.walk_ownBelow f id hid m hm (hbelow m hm)
    exact absurd (h ▸ mem_map_of_mem hown) (haccount.sound.apart a ha)
  · rw [eq_of_synthesized_name ha hmem h, hm]

/-- One mark stands for one identifier of the walked statements. -/
theorem eq_of_walked (hf : f.Marked) {a b : Ident} (ha : a ∈ session.walkedIdents f)
    (hb : b ∈ session.walkedIdents f) (ham : a.mark = some m) (hbm : b.mark = some m) : a = b := by
  have hknown := (session.walk_accounts f).known
  have hown := session.walk_ownBelow f
  obtain habelow | hsynth := hknown a ha
  · obtain hbbelow | hsynth := hknown b hb
    · exact hf.apart (hown a ha m ham (habelow m ham)) (hown b hb m hbm (hbbelow m hbm)) ham hbm
    · exact eq_of_walked_mark ha hsynth (ham.trans hbm.symm)
  · exact (eq_of_walked_mark hb hsynth (hbm.trans ham.symm)).symm

theorem mem_moves (hb : b ∈ session.moves f) :
    ∃ a, (b.1, a) ∈ session.aliases f ∧ a.ident = b.2 := by
  obtain ⟨-, a, -, -, ha, hident⟩ := mem_renames hb
  exact ⟨a, ha, hident⟩

theorem moves_others (hb : b ∈ session.moves f) : b.2 ∈ (session.walk f).2.others := by
  obtain ⟨a, ha, hident⟩ := mem_moves hb
  exact hident ▸ alias_mem_others ha

theorem moves_synthesized (hb : b ∈ session.moves f) : b.2 ∈ (session.walk f).2.synthesized :=
  others_synthesized (moves_others hb)

theorem eq_of_moves_name {b b' : String × Ident} (hb : b ∈ session.moves f)
    (hb' : b' ∈ session.moves f) (h : b.2.name = b'.2.name) : b = b' := by
  obtain ⟨a, ha, hident⟩ := mem_moves hb
  obtain ⟨a', ha', hident'⟩ := mem_moves hb'
  have heq := eq_of_alias_name ha ha' (by rwa [hident, hident'])
  obtain ⟨hname, rfl⟩ := Prod.mk.inj heq
  exact Prod.ext hname (hident.symm.trans hident')

/-- What else is synthesized is no alias. -/
theorem ne_alias (hid : id ∈ (session.walk f).2.traceVar.toList ++
      (session.walk f).2.names.derivations.map (·.2) ++ session.copies f)
    (ha : a ∈ session.aliases f) : id.mark ≠ a.2.ident.mark := by
  have hmarks := (session.walk_accounts f).sound.marks
  rw [Lowering.synthesized, Lowering.others, map_append, map_append] at hmarks
  have hothers := (nodup_append'.1 (nodup_append'.1 hmarks).2.1).2.2
  refine fun h => hothers (mem_map_of_mem hid) ?_
  rw [h, map_map]
  exact mem_map_of_mem (f := fun a : String × Alias => a.2.ident.mark) ha

theorem pinned_ne_alias (hid : id ∈ session.copies f)
    (ha : a ∈ session.aliases f) : id.mark ≠ a.2.ident.mark :=
  ne_alias (mem_append_right _ hid) ha

/-- Only names of the file and of pinned copies are renamed. -/
theorem lookup_moves_eq_none (hid : id ∈ (session.walk f).2.synthesized)
    (hdeclared : some id ∉ session.declared f) : (session.moves f).lookup id.name = none := by
  cases hl : (session.moves f).lookup id.name with
  | none => rfl
  | some b =>
    obtain ⟨x, -, hx, hname, -⟩ := mem_renames (mem_of_lookup hl)
    obtain hfile | hcopy := session.walk_declared f hx
    · have hmem : id.name ∈ f.names :=
        hname ▸ mem_map_of_mem (Aliases.mem_file_of_declaredBy hfile)
      exact absurd hmem ((session.walk_accounts f).sound.apart id hid)
    · obtain rfl := eq_of_synthesized_name (others_synthesized (pinned_others hcopy)) hid hname
      exact absurd hx hdeclared

/-- No alias is declared before the declarations move. -/
theorem alias_not_declared (ha : a ∈ session.aliases f) : some a.2.ident ∉ session.declared f := by
  intro h
  obtain h | h := session.walk_declared f h
  · exact (session.walk_accounts f).sound.apart _ (others_synthesized (alias_mem_others ha))
      (mem_map_of_mem (Aliases.mem_file_of_declaredBy h))
  · exact pinned_ne_alias h ha rfl

/-- The name of an alias does not move. -/
theorem lookup_moves_of_taken (hb : b ∈ session.moves f) :
    (session.moves f).lookup b.2.name = none := by
  obtain ⟨a, ha, hident⟩ := mem_moves hb
  exact lookup_moves_eq_none (moves_synthesized hb) (hident ▸ alias_not_declared ha)

/-- The names that aliases fall back to which no declaration has taken. -/
def untaken (session : Session) (f : File) : List (Nat × String) :=
  (session.aliases f).untaken (session.moves f)

/-- The lowered statements with the declarations moved, before references are renamed. -/
def movedStmts (session : Session) (f : File) : List Stmt :=
  relabel (session.untaken f)
    ((session.walk f).1.2.map Pin.stmt ++
      (session.aliases f).moveAll (session.walk f).1.1)

def renamedStmts (session : Session) (f : File) : List Stmt :=
  (session.moves f).references (session.movedStmts f)

/-- The new names of shared identifiers, some references to which are renamed. -/
def carried (session : Session) (f : File) : List (Nat × String) :=
  (session.moves f).carried (session.renamedStmts f)

/-- The identifiers that have a mark with no label are those of the walked statements and the aliases
that are taken. -/
theorem movedStmts_idents (hm : (session.untaken f).lookup m = none)
    (hid : id ∈ (session.movedStmts f).flatMap Stmt.idents) (hmark : id.mark = some m) :
    id ∈ session.walkedIdents f ∨ ∃ orig, (orig, id) ∈ session.moves f := by
  rw [movedStmts, relabel_idents] at hid
  obtain ⟨i, hi, rfl⟩ := mem_map.1 hid
  rw [Ident.relabel_mark] at hmark
  rw [Ident.relabel_of_lookup fun k hk => Option.some.inj (hmark.symm.trans hk) ▸ hm]
  rw [flatMap_append, mem_append, Pin.flatMap_idents_stmt] at hi
  obtain hi | hi := hi
  · exact .inl (mem_append_right _ hi)
  · obtain hi | hi | hi := Aliases.moveAll_idents hi
    · exact .inl (mem_append_left _ hi)
    · simp [hi] at hmark
    · exact .inr hi

/-- After renaming an identifier that has a mark with no label may also have the new name of its
declaration. -/
theorem renamedStmts_idents (hm : (session.untaken f).lookup m = none)
    (hid : id ∈ (session.renamedStmts f).flatMap Stmt.idents) (hmark : id.mark = some m) :
    id ∈ session.walkedIdents f ∨ (∃ orig, (orig, id) ∈ session.moves f) ∨
      ∃ i ∈ session.walkedIdents f, i.mark = some m ∧
        ∃ b, (session.moves f).lookup i.name = some b ∧ id = i.rename b.name := by
  obtain hid | htaken | ⟨i, hi, b, hb, rfl⟩ := Renaming.references_idents hid (by simp [hmark])
  · exact (movedStmts_idents hm hid hmark).imp_right .inl
  · exact .inr (.inl htaken)
  · obtain hwalked | ⟨orig, horig⟩ := movedStmts_idents hm hi hmark
    · exact .inr (.inr ⟨i, hwalked, hmark, b, hb, rfl⟩)
    · simp [lookup_moves_of_taken horig] at hb

/-- A mark that is carried along belongs to an identifier whose name has moved. -/
theorem lookup_carried_moves {name : String} (hm : (session.untaken f).lookup m = none)
    (h : (session.carried f).lookup m = some name) :
    ∃ id ∈ session.walkedIdents f,
      id.mark = some m ∧ ∃ b, (session.moves f).lookup id.name = some b ∧ b.name = name := by
  obtain ⟨id, hid, hmark, rfl, b, hb, hname, hother⟩ := Renaming.lookup_carried h
  obtain hwalked | ⟨orig, horig⟩ | ⟨i, hi, hmark, b', hb', rfl⟩ := renamedStmts_idents hm hid hmark
  · exact absurd (walked_mark_of_name hwalked hmark (moves_synthesized hb) hname) hother
  · -- An alias that is taken has the mark of its declaration.
    obtain rfl := eq_of_moves_name hb horig hname
    exact absurd hmark hother
  · exact ⟨i, hi, hmark, b', hb', rfl⟩

/-- The identifier as the output shows it. -/
def shown (session : Session) (f : File) (id : Ident) : Ident :=
  (id.relabel (session.untaken f)).relabel (session.carried f)

theorem shown_unmarked (h : id.mark = none) : session.shown f id = id := by
  rw [shown, Ident.relabel_of_unmarked h, Ident.relabel_of_unmarked h]

/-- What is no alias falls back to no other name. -/
theorem lookup_untaken_of_ne (h : ∀ a ∈ session.aliases f, id.mark ≠ a.2.ident.mark)
    (hm : id.mark = some m) : (session.untaken f).lookup m = none := by
  by_contra hsome
  obtain ⟨name, hl⟩ := Option.ne_none_iff_exists'.1 hsome
  obtain ⟨a, ha, -, hm'⟩ := Aliases.lookup_untaken hl
  exact h _ ha (hm.trans hm'.symm)

theorem lookup_untaken_of_taken (hb : b ∈ session.moves f) (hm : b.2.mark = some m) :
    (session.untaken f).lookup m = none := by
  obtain ⟨i, a, hi, hname, ha, hident⟩ := mem_renames hb
  refine (Aliases.lookup_untaken_alias alias_marks ha (hident ▸ hm)).trans (if_pos ?_)
  exact hname ▸ mem_map_of_mem (mem_filterMap.2 ⟨some i, hi, rfl⟩)

/-- The aliases that are taken keep their names. -/
theorem shown_taken (hb : b ∈ session.moves f) : session.shown f b.2 = b.2 := by
  rw [shown, Ident.relabel_of_lookup fun _ => lookup_untaken_of_taken hb]
  refine Ident.relabel_of_lookup fun m hm => ?_
  by_contra hsome
  obtain ⟨name, hl⟩ := Option.ne_none_iff_exists'.1 hsome
  obtain ⟨id, hid, hmark, b', hb', -⟩ := lookup_carried_moves (lookup_untaken_of_taken hb hm) hl
  obtain rfl := eq_of_walked_mark hid (moves_synthesized hb) (hmark.trans hm.symm)
  simp [lookup_moves_of_taken hb] at hb'

/-- A mark that is carried along and is no alias's gives the new name of its identifier. -/
theorem lookup_carried_of_walked (hf : f.Marked) (hid : id ∈ session.walkedIdents f)
    (halias : ∀ a ∈ session.aliases f, id.mark ≠ a.2.ident.mark)
    (hm : id.mark = some m) {name : String} (hl : (session.carried f).lookup m = some name) :
    ∃ b, (session.moves f).lookup id.name = some b ∧ b.name = name := by
  obtain ⟨id', hid', hmark, hb⟩ := lookup_carried_moves (lookup_untaken_of_ne halias hm) hl
  obtain rfl := eq_of_walked hf hid hid' hm hmark
  exact hb

/-- What is no alias keeps its name, or takes the new name of the declaration that it reads like. -/
theorem shown_name (hf : f.Marked) (hid : id ∈ session.walkedIdents f)
    (halias : ∀ a ∈ session.aliases f, id.mark ≠ a.2.ident.mark) :
    session.shown f id = id ∨
      ∃ b, (session.moves f).lookup id.name = some b ∧
        (session.shown f id).name = b.name := by
  rw [shown, Ident.relabel_of_lookup fun _ => lookup_untaken_of_ne halias]
  by_cases hlabel : ∀ m, id.mark = some m → (session.carried f).lookup m = none
  · exact .inl (Ident.relabel_of_lookup hlabel)
  · push Not at hlabel
    obtain ⟨m, hm, hsome⟩ := hlabel
    obtain ⟨name, hl⟩ := Option.ne_none_iff_exists'.1 hsome
    obtain ⟨b, hb, rfl⟩ := lookup_carried_of_walked hf hid halias hm hl
    exact .inr ⟨b, hb, by simp [Ident.relabel, hm, hl, Ident.rename]⟩

/-- The output is the preamble and the moved statements with their references renamed. -/
theorem lower_body {out : File} (h : session.Lowers f out) :
    out.stmts = preamble (session.env f) (session.walk f).2 ++
      relabel (session.carried f) (session.renamedStmts f) := by
  obtain ⟨body, hbody, hout⟩ := session.lower_eq f h
  rw [moveDeclarations] at hbody
  split at hbody
  · cases hbody
  · dsimp only at hbody
    split at hbody
    · cases hbody
    · cases hbody
      exact hout

end Session

end ExtensionLowering
