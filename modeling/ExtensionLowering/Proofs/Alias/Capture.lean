import ExtensionLowering.Proofs.Alias.Move
import ExtensionLowering.Proofs.Name.Hygiene
/-!
# Renaming references avoids capture

Renaming changes the free references to the names it maps, and nothing else: the skeleton of the
tree stays, each reference means the binding it meant before, and a free one that is mapped has the
new name. The new names must be mentioned nowhere, or a binding could capture them.
-/
namespace ExtensionLowering

open List

namespace Scopes

theorem resolve_eq_none {scopes : Scopes} {x : String} :
    scopes.resolve x = none ↔ x ∉ scopes.flatten := by
  induction scopes with
  | nil => simp [resolve]
  | cons names outer ih =>
    rw [resolve, flatten_cons, mem_append, not_or]
    cases h : names.idxOf? x with
    | none => simpa [idxOf?_eq_none_iff.1 h] using ih
    | some i =>
      have hmem : x ∈ names := by
        by_contra hx
        rw [idxOf?_eq_none_iff.2 hx] at h
        cases h
      simp [hmem]

end Scopes

/-- A reference after renaming: what it means stays, a free one that is mapped is written with the
new name. -/
def Occurrence.renamed (r : Renaming) (o : Occurrence) : Occurrence :=
  match o.target, r.lookup o.ident.name with
  | none, some binding =>
    { o with ident := if o.short then binding else o.ident.rename binding.name, short := false }
  | _, _ => o

theorem Occurrence.renamed_target (r : Renaming) (o : Occurrence) :
    (o.renamed r).target = o.target := by
  rw [renamed]
  split <;> rfl

namespace Renaming

variable {r : Renaming} {bound : List String} {scopes : Scopes}
variable {ss : List Stmt}

/-- The bound names are those of the enclosing scopes, and no new name is among them. -/
structure Fits (r : Renaming) (bound : List String) (scopes : Scopes) : Prop where
  covers : ∀ x, x ∈ bound ↔ x ∈ scopes.flatten
  clear : ∀ b ∈ r, b.2.name ∉ scopes.flatten

theorem Fits.push (h : Fits r bound scopes) {names : List String}
    (hclear : ∀ b ∈ r, b.2.name ∉ names) : Fits r (names ++ bound) (names :: scopes) where
  covers x := by simp [h.covers x]
  clear b hb := by simpa using ⟨hclear b hb, by simpa using h.clear b hb⟩

/-- How an unbound name, a bound one and a mapped one are told apart. -/
theorem Fits.target?_cases (h : Fits r bound scopes) (x : String) :
    (∃ b, r.target? bound x = some b ∧ scopes.resolve x = none ∧ r.lookup x = some b) ∨
      (r.target? bound x = none ∧ (scopes.resolve x ≠ none ∨ r.lookup x = none)) := by
  by_cases hx : x ∈ bound
  · refine .inr ⟨by simp [target?, hx], .inl fun hnone => ?_⟩
    exact Scopes.resolve_eq_none.1 hnone ((h.covers x).1 hx)
  · have hnone := Scopes.resolve_eq_none.2 fun hmem => hx ((h.covers x).2 hmem)
    cases hl : r.lookup x with
    | none => exact .inr ⟨by simp [target?, hx, hl], .inr rfl⟩
    | some b => exact .inl ⟨b, by simp [target?, hx, hl], hnone, rfl⟩

theorem Fits.resolve_new (h : Fits r bound scopes) {x : String} {b : Ident}
    (hb : r.lookup x = some b) : scopes.resolve b.name = none :=
  Scopes.resolve_eq_none.2 (h.clear _ (mem_of_lookup hb))

theorem renamed_of_fixed {id : Ident} {short : Bool}
    (h : scopes.resolve id.name ≠ none ∨ r.lookup id.name = none) :
    (id.refer scopes short).renamed r = id.refer scopes short := by
  rw [Occurrence.renamed]
  split
  · rename_i hnone hsome
    obtain h | h := h
    · exact absurd hnone h
    · simp [Ident.refer, h] at hsome
  · rfl

theorem refer_ident (h : Fits r bound scopes) (id : Ident) :
    (r.ident bound id).refer scopes false = (id.refer scopes false).renamed r := by
  obtain ⟨b, htarget, hfree, hlookup⟩ | ⟨htarget, hfixed⟩ := h.target?_cases id.name
  · have hnew := h.resolve_new hlookup
    simp [ident, htarget, Occurrence.renamed, Ident.refer, hfree, hlookup, hnew, Ident.rename]
  · rw [renamed_of_fixed hfixed]
    simp [ident, htarget]

theorem refs_shorthand (h : Fits r bound scopes) (t : Token) (name : Option Ident) :
    (r.shorthand bound t name).refs scopes =
      ((Property.shorthand t name).refs scopes).map (·.renamed r) := by
  cases name with
  | none => rfl
  | some id =>
    obtain ⟨b, htarget, hfree, hlookup⟩ | ⟨htarget, hfixed⟩ := h.target?_cases id.name
    · have hnew := h.resolve_new hlookup
      simp [shorthand, htarget, Property.refs, Expr.refs, Expr.ofName, Expr.ofIdent,
        Expr.isLiteralKey, Occurrence.renamed, Ident.refer, hfree, hlookup, hnew]
    · simp [shorthand, htarget, Property.refs, renamed_of_fixed hfixed]

mutual

theorem hoisted_of_varFree_block : ∀ b : Block, b.VarFree → b.hoisted = []
  | .missing, _ => rfl
  | .mk _ _ ss, h => hoisted_of_varFree_stmts ss h

theorem hoisted_of_varFree_stmt : ∀ s : Stmt, s.VarFree → s.hoisted = []
  | .block b, h => hoisted_of_varFree_block b h
  | .cond _ _ y n, h => by
    rw [Stmt.VarFree] at h
    rw [Stmt.hoisted, hoisted_of_varFree_stmt y h.2.1, hoisted_of_varFree_stmt n h.2.2]
    rfl
  | .varDecl _ _ k ds, h => by
    rw [Stmt.VarFree] at h
    cases k with
    | var => exact absurd rfl h.1
    | _ => rfl
  | .missing, _ | .expr .., _ | .ret .., _ | .throw .., _ | .funcDecl .., _ | .classDecl .., _
  | .importDecl .., _ | .exportDecl .., _ => rfl

theorem hoisted_of_varFree_stmts : ∀ ss : List Stmt, Stmt.AllVarFree ss → Stmt.allHoisted ss = []
  | [], _ => rfl
  | s :: ss, h => by
    rw [Stmt.AllVarFree] at h
    rw [Stmt.allHoisted, hoisted_of_varFree_stmt s h.1, hoisted_of_varFree_stmts ss h.2]
    rfl

end

/-- Without `var`, what a block declares is what its scope binds. -/
theorem scope_of_varFree (body : Bool) (h : Stmt.AllVarFree ss) :
    Stmt.scope body ss = declaredNames ss := by
  have hlexical : ss.flatMap Stmt.lexical = declaredNames ss := by
    induction ss with
    | nil => rfl
    | cons s ss ih =>
      rw [Stmt.AllVarFree] at h
      have hs : s.lexical = namesOf (Aliases.declaredBy s) := by
        cases s with
        | varDecl t x k ds =>
          cases k with
          | var => exact absurd rfl h.1.1
          | _ => rfl
        | _ => rfl
      rw [flatMap_cons, hs, ih h.2, declaredNames, declaredNames, flatMap_cons,
        filterMap_append, map_append]
      rfl
  rw [Stmt.scope, hoisted_of_varFree_stmts ss h, hlexical, ite_self, append_nil]

/-! ## References keep their meaning -/

/-- No new name is among the names of some identifiers. -/
def Clear (r : Renaming) (ids : List Ident) : Prop :=
  ∀ b ∈ r, b.2.name ∉ ids.map (·.name)

theorem clear_append {a b : List Ident} : Clear r (a ++ b) ↔ Clear r a ∧ Clear r b := by
  simp only [Clear, map_append, mem_append, not_or, forall_and]

theorem Clear.namesOf {names : List (Option Ident)} (h : Clear r (names.flatMap Option.toList)) :
    ∀ b ∈ r, b.2.name ∉ namesOf names := by
  intro b hb hmem
  refine h b hb ?_
  simp only [ExtensionLowering.namesOf, mem_map, mem_filterMap, id_eq] at hmem
  obtain ⟨id, ⟨n, hn, rfl⟩, hname⟩ := hmem
  exact mem_map.2 ⟨id, mem_flatMap.2 ⟨_, hn, by simp⟩, hname⟩

theorem Clear.subset {a b : List Ident} (h : Clear r b) (hab : a ⊆ b) : Clear r a :=
  fun x hx hmem => h x hx (map_subset _ hab hmem)

theorem Fits.params (h : Fits r bound scopes) {ps : List Param}
    (hc : Clear r (ps.flatMap Param.idents)) :
    Fits r (paramNames ps ++ bound) (Param.bound ps :: scopes) := by
  rw [paramNames_eq]
  refine h.push (Clear.namesOf (hc.subset fun id hid => ?_))
  obtain ⟨n, hn, hid⟩ := mem_flatMap.1 hid
  obtain ⟨⟨t, n', ty, o, q, e⟩, hp, rfl⟩ := mem_map.1 hn
  exact mem_flatMap.2 ⟨_, hp, by simpa using .inl (Option.mem_toList.1 hid)⟩

theorem Fits.self (h : Fits r bound scopes) {self : Option Ident} (hc : Clear r self.toList) :
    Fits r (self.toList.map (·.name) ++ bound) (namesOf [self] :: scopes) := by
  have hnames : self.toList.map (·.name) = namesOf [self] := by cases self <;> rfl
  rw [hnames]
  exact h.push (Clear.namesOf (by simpa using hc))

theorem Fits.block (h : Fits r bound scopes) (body : Bool) (hv : Stmt.AllVarFree ss)
    (hc : Clear r (ss.flatMap Stmt.idents)) :
    Fits r (declaredNames ss ++ bound) (Stmt.scope body ss :: scopes) := by
  rw [scope_of_varFree body hv]
  refine h.push (Clear.namesOf (hc.subset fun id hid => ?_))
  obtain ⟨n, hn, hid⟩ := mem_flatMap.1 hid
  obtain ⟨s, hs, hn⟩ := mem_flatMap.1 hn
  obtain rfl := Option.mem_toList.1 hid
  exact mem_flatMap.2 ⟨s, hs, Aliases.mem_idents_of_declaredBy hn⟩

/-- That references keep their meaning is a law of renaming. -/
def meaning (r : Renaming) : Law r where
  Rel ps qs := refsOf qs = (refsOf ps).map (·.renamed r)
  Covers sc bound := Fits r bound sc
  Hoists _ _ := True
  Clear ps := Clear r (ps.map Spot.ident)
  free := True
  clear_append h := by rwa [map_append, clear_append] at h
  hoists_append h := ⟨h, h⟩
  nil := rfl
  append h h' := by rw [refsOf_append, refsOf_append, h, h', map_append]
  kept hrole _ _ := by obtain rfl | rfl := hrole <;> simp
  ofIdent h id := congrArg ([·]) (refer_ident h id)
  ofShorthand h t name := by
    rw [(Property.spots_spec _ _).2, (Property.spots_spec _ _).2]
    exact refs_shorthand h t name
  inParams h hclear := h.params (by rwa [(Param.allSpots_spec _ _).1] at hclear)
  inSelf h hclear := h.self (by rwa [spotsOf_ident] at hclear)
  inBlock h hclear hfree _ :=
    ⟨h.block _ (hfree trivial) (by rwa [(Stmt.allSpots_spec _ _).1] at hclear), trivial⟩

/-! ## Everything else stays -/

attribute [local simp] expr exprs property properties param params block stmt stmts declarator
  declarators member members Expr.skeleton Expr.skeletons Property.skeleton Property.skeletons
  Param.skeleton Param.skeletons Block.skeleton Stmt.skeleton Stmt.skeletons Declarator.skeleton
  Declarator.skeletons Member.skeleton Member.skeletons

theorem skeleton_shorthand (r : Renaming) (bound : List String) (t : Token) (name : Option Ident) :
    (r.shorthand bound t name).skeleton = (Property.shorthand t name).skeleton := by
  cases name with
  | none => rfl
  | some id =>
    cases h : r.target? bound id.name with
    | none => simp [shorthand, h]
    | some binding =>
      simp [shorthand, h, Expr.ofName, Expr.ofIdent, Expr.isLiteralKey]

section

variable (r : Renaming)

mutual

theorem skeleton_expr : ∀ (bound : List String) (e : Expr), (expr r bound e).skeleton = e.skeleton
  | _, .missing | _, .ident _ | _, .number .. | _, .string .. | _, .bool .. | _, .this _
  | _, .super _ => rfl
  | bound, .prop _ _ e _ _ | bound, .unary _ _ e | bound, .paren _ e | bound, .void _ e
  | bound, .spread _ e => by simp [skeleton_expr bound e]
  | bound, .elem _ _ o x | bound, .binary _ _ o _ x => by
    simp [skeleton_expr bound o, skeleton_expr bound x]
  | bound, .call _ _ c _ as | bound, .new _ c _ as => by
    simp [skeleton_expr bound c, skeleton_exprs bound as]
  | bound, .cond _ c t e => by
    simp [skeleton_expr bound c, skeleton_expr bound t, skeleton_expr bound e]
  | bound, .array _ es => by simp [skeleton_exprs bound es]
  | bound, .object _ ps => by simp [skeleton_properties bound ps]
  | bound, .arrow _ ps b e => by
    rw [expr, Expr.skeleton, Expr.skeleton, block_isMissing, skeleton_params _ ps,
      skeleton_block _ b]
    cases b.isMissing <;> simp [skeleton_expr _ e]
  | bound, .func _ _ ps b => by simp [skeleton_params _ ps, skeleton_block _ b]

theorem skeleton_exprs :
    ∀ (bound : List String) (es : List Expr),
      Expr.skeletons (exprs r bound es) = Expr.skeletons es
  | _, [] => rfl
  | bound, e :: es => by simp [skeleton_expr bound e, skeleton_exprs bound es]

theorem skeleton_properties :
    ∀ (bound : List String) (ps : List Property),
      Property.skeletons (properties r bound ps) = Property.skeletons ps
  | _, [] => rfl
  | bound, p :: ps => by simp [skeleton_property bound p, skeleton_properties bound ps]

theorem skeleton_property :
    ∀ (bound : List String) (p : Property), (property r bound p).skeleton = p.skeleton
  | bound, .assign _ k v => by
    rw [property, Property.skeleton, Property.skeleton, skeleton_expr bound v]
    cases hkey : k.isLiteralKey with
    | true => simp [hkey]
    | false => simp [expr_isLiteralKey, hkey, skeleton_expr bound k]
  | bound, .shorthand t name => skeleton_shorthand r bound t name
  | bound, .spread _ e => by simp [skeleton_expr bound e]

theorem skeleton_params :
    ∀ (bound : List String) (ps : List Param),
      Param.skeletons (params r bound ps) = Param.skeletons ps
  | _, [] => rfl
  | bound, .mk _ _ _ _ _ e :: ps => by simp [skeleton_expr bound e, skeleton_params bound ps]

theorem skeleton_block :
    ∀ (bound : List String) (b : Block), (block r bound b).skeleton = b.skeleton
  | _, .missing => rfl
  | bound, .mk _ _ ss => by simp [skeleton_stmts _ ss]

theorem skeleton_stmts :
    ∀ (bound : List String) (ss : List Stmt),
      Stmt.skeletons (stmts r bound ss) = Stmt.skeletons ss
  | _, [] => rfl
  | bound, s :: ss => by simp [skeleton_stmt bound s, skeleton_stmts bound ss]

theorem skeleton_stmt : ∀ (bound : List String) (s : Stmt), (stmt r bound s).skeleton = s.skeleton
  | _, .missing | _, .importDecl .. | _, .exportDecl .. => rfl
  | bound, .block b => by simp [skeleton_block bound b]
  | bound, .expr _ e | bound, .ret _ e | bound, .throw _ e => by simp [skeleton_expr bound e]
  | bound, .cond _ c y n => by
    simp [skeleton_expr bound c, skeleton_stmt bound y, skeleton_stmt bound n]
  | bound, .varDecl _ _ _ ds => by simp [skeleton_declarators bound ds]
  | bound, .funcDecl _ _ _ ps _ b => by simp [skeleton_params _ ps, skeleton_block _ b]
  | bound, .classDecl _ _ _ base ms => by simp [skeleton_expr bound base, skeleton_members bound ms]

theorem skeleton_declarators :
    ∀ (bound : List String) (ds : List Declarator),
      Declarator.skeletons (declarators r bound ds) = Declarator.skeletons ds
  | _, [] => rfl
  | bound, .mk _ _ _ e :: ds => by simp [skeleton_expr bound e, skeleton_declarators bound ds]

theorem skeleton_members :
    ∀ (bound : List String) (ms : List Member),
      Member.skeletons (members r bound ms) = Member.skeletons ms
  | _, [] => rfl
  | bound, m :: ms => by simp [skeleton_member bound m, skeleton_members bound ms]

theorem skeleton_member :
    ∀ (bound : List String) (m : Member), (member r bound m).skeleton = m.skeleton
  | bound, .ctor _ ps b | bound, .method _ _ _ ps b => by
    simp [skeleton_params _ ps, skeleton_block _ b]
  | bound, .field _ _ _ _ e => by simp [skeleton_expr bound e]

end

end

/-! ## Top-level statements -/

theorem Fits.top (r : Renaming) : Fits r [] [] :=
  ⟨fun x => by simp, fun b _ => by simp⟩

theorem refs_stmt_top (r : Renaming) {s : Stmt} (hv : s.VarFreeBelow) (hc : Clear r s.idents) :
    (stmt r [] s).refs [] = (s.refs []).map (·.renamed r) := by
  have hclear : Clear r ((s.spots []).map Spot.ident) := by rwa [(s.spots_spec []).1]
  rw [← (Stmt.spots_spec _ _).2, ← (Stmt.spots_spec _ _).2]
  cases s with
  | varDecl t x k ds => exact (meaning r).declarators_rel ds ⟨.top r, hclear, fun _ => hv⟩
  | _ => exact (meaning r).stmt_rel _ ⟨.top r, hclear, fun _ => hv⟩ trivial

theorem refs_stmts_top (r : Renaming) (hv : ∀ s ∈ ss, s.VarFreeBelow)
    (hc : Clear r (ss.flatMap Stmt.idents)) :
    Stmt.allRefs [] (stmts r [] ss) = (Stmt.allRefs [] ss).map (·.renamed r) := by
  induction ss with
  | nil => rfl
  | cons s ss ih =>
    rw [flatMap_cons, clear_append] at hc
    rw [stmts, Stmt.allRefs, Stmt.allRefs, map_append,
      refs_stmt_top r (hv s mem_cons_self) hc.1,
      ih (fun s' hs' => hv s' (mem_cons_of_mem _ hs')) hc.2]

/-- Renaming leaves the skeleton, writes the free references to mapped names with the new name, and
lets every reference mean the binding it meant before. -/
theorem references_avoid_capture (r : Renaming) (ss : List Stmt)
    (hvar : ∀ s ∈ ss, s.VarFreeBelow) (hnew : ∀ b ∈ r, ¬ Stmt.AnyMentions b.2.name ss) :
    Stmt.skeletons (r.references ss) = Stmt.skeletons ss ∧
      Stmt.allRefs [] (r.references ss) = (Stmt.allRefs [] ss).map (·.renamed r) ∧
      (Stmt.allRefs [] (r.references ss)).map (·.target) =
        (Stmt.allRefs [] ss).map (·.target) := by
  have hclear : Clear r (ss.flatMap Stmt.idents) := fun b hb hmem =>
    hnew b hb ((Stmt.named_all b.2.name ss).1 (mem_map.1 hmem))
  have hrefs : Stmt.allRefs [] (r.references ss) = (Stmt.allRefs [] ss).map (·.renamed r) := by
    rw [references]
    split
    · rename_i hempty
      obtain rfl := isEmpty_iff.1 hempty
      refine ((map_congr_left fun o _ => ?_).trans (map_id _)).symm
      rw [Occurrence.renamed]
      split
      · rename_i hsome
        simp at hsome
      · rfl
    · exact refs_stmts_top r hvar hclear
  refine ⟨?_, hrefs, ?_⟩
  · rw [references]
    split
    · rfl
    · exact skeleton_stmts r [] ss
  · rw [hrefs, map_map]
    exact map_congr_left fun o _ => o.renamed_target r

/-- `function k() { const eq = 1; return eq }` and then `({ eq })` -/
def shadowing : List Stmt :=
  [.funcDecl {} false (some { name := "k" }) [] .missing
      (.mk {} []
        [.varDecl {} false .const [.mk {} (some { name := "eq" }) .missing (.number {} "1")],
          .ret {} (.ident { name := "eq" })]),
    .expr {} (.paren {} (.object {} [.shorthand {} (some { name := "eq" })]))]

/-- The constant of the function is left alone, the shorthand property gets the new name. -/
theorem references_avoid_capture_shadowing :
    (∀ s ∈ shadowing, s.VarFreeBelow) ∧ ¬ Stmt.AnyMentions "eq_1" shadowing ∧
      (Stmt.allRefs [] (Renaming.references [("eq", { name := "eq_1" })] shadowing)).map
        (fun o => (o.ident.name, o.short, o.target)) =
        [("eq", false, some (0, 0)), ("eq_1", false, none)] := by
  have hvar : ∀ s ∈ shadowing, s.VarFreeBelow := by
    simp [shadowing, Stmt.VarFreeBelow, Stmt.VarFree, Stmt.AllVarFree, Block.VarFree,
      Declarator.VarFree, Declarator.AllVarFree, Param.AllVarFree, Expr.VarFree, Property.VarFree,
      Property.AllVarFree]
  have hnew : ¬ Stmt.AnyMentions "eq_1" shadowing := by
    simp [shadowing, Stmt.AnyMentions, Stmt.Mentions, Block.Mentions, Declarator.Mentions,
      Declarator.AnyMentions, Param.AnyMentions, Expr.Mentions, Property.Mentions,
      Property.AnyMentions, holds]
  refine ⟨hvar, hnew, ?_⟩
  rw [(references_avoid_capture [("eq", { name := "eq_1" })] shadowing hvar
    fun b hb => mem_singleton.1 hb ▸ hnew).2.1]
  decide +kernel

end Renaming

end ExtensionLowering
