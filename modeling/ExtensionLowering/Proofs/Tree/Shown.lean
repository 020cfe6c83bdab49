import ExtensionLowering.Tree.Complete
import ExtensionLowering.Proofs.Tree.Preorder
/-!
# What a printed tree shows

The text of a tree is put together from the marks and words of the language, from the texts that
nodes bring with them (literals, operators, types and modules) and from names. All of it comes from
nodes that a walk visits: a name is that of an identifier on the walk, and no identifier is shown
more often than it is visited.

## Main definitions

* `Node.texts`: the texts that the nodes on a walk bring with them.
* `Shows`: a text that is put together from given texts and identifiers.

## Main results

* `Node.walk_prunes`: a walk visits what no refused node hides, and a printed tree shows what the
  full walk visits.
-/
namespace ExtensionLowering

open List

/-- The marks and words that printing puts in. -/
def printedMarks : List String :=
  ["", " ", "\n", "    ", "(", ")", ") ", "[", "]", "<", ">", "\x7b\x7d", "\x7b\n", "\x7d", "\x7b ",
    " \x7d", ", ", ": ", ";", ".", "?.", "...", "?", " ? ", " : ", " = ", " => ", "<???>", " as ",
    "* as ", " from ", "true", "false", "this", "super", "new ", "void ", "function", "function ",
    "class ", " extends ", "constructor", "static ", "const", "let", "var", "return", "throw ",
    "if (", " else ", "import ", "export "]

/-- What a text is put together from. -/
inductive Piece where
  | text (t : String)
  | name (id : Ident)

namespace Piece

def shown : Piece → String
  | .text t => t
  | .name id => id.name

def ident? : Piece → Option Ident
  | .text _ => none
  | .name id => some id

end Piece

/-- The text consists of marks, of given texts and of names of given identifiers, each used at most
once. -/
def Shows (texts : List String) (ids : List Ident) (s : String) : Prop :=
  ∃ pieces : List Piece, s = String.join (pieces.map Piece.shown) ∧
    pieces.filterMap Piece.ident? <+~ ids ∧
    ∀ t, .text t ∈ pieces → t ∈ printedMarks ∨ t ∈ texts

namespace Shows

variable {texts texts' : List String} {ids ids' : List Ident} {s t : String} {depth : Nat}

theorem text (h : t ∈ printedMarks ∨ t ∈ texts) : Shows texts ids t :=
  ⟨[.text t], by simp [Piece.shown], nil_subperm, by simpa using h⟩

theorem mark (h : t ∈ printedMarks) : Shows texts ids t :=
  text (.inl h)

theorem own (h : t ∈ texts) : Shows texts ids t :=
  text (.inr h)

theorem name (id : Ident) : Shows texts [id] id.name :=
  ⟨[.name id], by simp [Piece.shown], .refl _, by simp⟩

theorem append (hs : Shows texts ids s) (ht : Shows texts ids' t) :
    Shows texts (ids ++ ids') (s ++ t) := by
  obtain ⟨ps, rfl, hids, htexts⟩ := hs
  obtain ⟨qs, rfl, hids', htexts'⟩ := ht
  refine ⟨ps ++ qs, by simp, ?_, fun t ht => (mem_append.1 ht).elim (htexts t) (htexts' t)⟩
  rw [filterMap_append]
  exact ((subperm_append_right _).2 hids).trans ((subperm_append_left _).2 hids')

theorem mono (h : Shows texts ids s) (htexts : texts ⊆ texts') (hids : ids <+~ ids') :
    Shows texts' ids' s := by
  obtain ⟨ps, rfl, hsub, hall⟩ := h
  exact ⟨ps, rfl, hsub.trans hids, fun t ht => (hall t ht).imp_right (htexts ·)⟩

theorem append_text (h : Shows texts ids s) (ht : Shows texts [] t) : Shows texts ids (s ++ t) := by
  simpa using h.append ht

theorem text_append (ht : Shows texts [] t) (h : Shows texts ids s) : Shows texts ids (t ++ s) :=
  ht.append h

theorem before (h : Shows texts ids s) (ht : t ∈ printedMarks) : Shows texts ids (s ++ t) :=
  h.append_text (mark ht)

theorem behind (h : Shows texts ids s) (ht : t ∈ printedMarks) : Shows texts ids (t ++ s) :=
  (mark ht).text_append h

theorem choose {p : Prop} [Decidable p] (hs : Shows texts ids s) (ht : Shows texts ids t) :
    Shows texts ids (if p then s else t) := by
  split
  · exact hs
  · exact ht

protected theorem parenthesized (h : Shows texts ids s) : Shows texts ids (parenthesized s) :=
  (h.behind (by decide)).before (by decide)

protected theorem fit (h : Shows texts ids s) (least : Nat) (e : Expr) :
    Shows texts ids (e.fit least s) :=
  h.parenthesized.choose h

protected theorem asTarget (h : Shows texts ids s) (e : Expr) : Shows texts ids (e.asTarget s) :=
  h.parenthesized.choose (h.fit _ e)

protected theorem nameText (id : Option Ident) : Shows texts id.toList (nameText id) := by
  cases id with
  | none => exact mark (by decide)
  | some id => exact name id

protected theorem initText (h : Shows texts ids s) (e : Expr) : Shows texts ids (initText e s) :=
  (mark (by decide)).choose ((h.fit _ e).behind (by decide))

protected theorem resultText (h : Shows texts ids s) (e : Expr) :
    Shows texts ids (resultText e s) := by
  unfold resultText
  split
  · exact h.parenthesized
  · exact h.fit _ e

protected theorem annotationText (t : TypeRef) (h : t.render ∈ texts) :
    Shows texts ids (annotationText t) :=
  (mark (by decide)).choose ((own h).behind (by decide))

protected theorem exportText (exported : Bool) : Shows texts ids (exportText exported) :=
  (mark (by decide)).choose (mark (by decide))

protected theorem staticText (static : Bool) : Shows texts ids (staticText static) :=
  (mark (by decide)).choose (mark (by decide))

section Lists

variable {α : Type} {xs : List α} {f : α → String} {g : α → List Ident}

theorem join (h : ∀ x ∈ xs, Shows texts (g x) (f x)) :
    Shows texts (xs.flatMap g) (String.join (xs.map f)) := by
  induction xs with
  | nil => exact mark (t := "") (by decide)
  | cons x xs ih =>
    obtain ⟨hx, hxs⟩ := forall_mem_cons.1 h
    rw [map_cons, String.join_cons]
    exact hx.append (ih hxs)

protected theorem commaSeparated (h : ∀ x ∈ xs, Shows texts (g x) (f x)) :
    Shows texts (xs.flatMap g) (commaSeparated (xs.map f)) := by
  induction xs with
  | nil => exact mark (t := "") (by decide)
  | cons x xs ih =>
    obtain ⟨hx, hxs⟩ := forall_mem_cons.1 h
    cases xs with
    | nil => simpa [commaSeparated] using hx
    | cons y ys =>
      rw [commaSeparated, map_cons, map_cons, String.intercalate_cons_cons]
      exact (hx.before (by decide)).append (ih hxs)

protected theorem angled {types : List String} (h : types ⊆ texts) :
    Shows texts ids (angled types) := by
  have hcommas : Shows texts (types.flatMap fun _ => []) (commaSeparated (types.map id)) :=
    .commaSeparated fun t ht => own (h ht)
  rw [map_id, flatMap_eq_nil_iff.2 fun _ _ => rfl] at hcommas
  have hcommas := hcommas.mono (Subset.refl _) (nil_subperm (l := ids))
  exact (mark (by decide)).choose ((hcommas.behind (by decide)).before (by decide))

protected theorem indentation (depth : Nat) : Shows texts ids (indentation depth) := by
  induction depth with
  | zero => exact mark (t := "") (by decide)
  | succ depth ih =>
    rw [indentation, replicate_succ, String.join_cons]
    exact ih.behind (by decide)

protected theorem lineText (h : Shows texts ids s) : Shows texts ids (lineText depth s) :=
  ((@Shows.indentation texts [] depth).append h).before (by decide)

protected theorem bracesText (h : ∀ x ∈ xs, Shows texts (g x) (f x)) :
    Shows texts (xs.flatMap g) (bracesText depth (xs.map f)) := by
  have hlines := ((join h).behind (t := "\x7b\n") (by decide)).append
    (@Shows.indentation texts [] depth)
  rw [append_nil] at hlines
  exact (mark (by decide)).choose (hlines.before (by decide))

protected theorem objectText (h : ∀ x ∈ xs, Shows texts (g x) (f x)) :
    Shows texts (xs.flatMap g) (objectText (xs.map f)) :=
  (mark (by decide)).choose (((Shows.commaSeparated h).behind (by decide)).before (by decide))

end Lists

protected theorem specifiersText (specs : List Specifier) :
    Shows texts (specs.flatMap Specifier.idents) (specifiersText specs) := by
  have hspec (s : Specifier) : Shows texts s.idents
      (nameText s.name ++ s.newName.elim "" fun a => " as " ++ a.name) := by
    refine (Shows.nameText s.name).append ?_
    cases s.newName with
    | none => exact mark (by decide)
    | some id => exact (name id).behind (by decide)
  exact ((Shows.commaSeparated fun s _ => hspec s).behind (by decide)).before (by decide)

protected theorem importClause (space default : Option Ident) (named : List Specifier) :
    Shows texts (space.toList ++ default.toList ++ named.flatMap Specifier.idents)
      (importClause space default named) := by
  -- The default binding is written first, but visited behind that of the namespace.
  let parts : List (List Ident × String) := default.toList.map (fun id => ([id], id.name)) ++
    space.toList.map (fun id => ([id], "* as " ++ id.name)) ++
    if named.isEmpty then [] else [(named.flatMap Specifier.idents, specifiersText named)]
  have hparts : ∀ part ∈ parts, Shows texts part.1 part.2 := by
    intro part hpart
    obtain (hpart | hpart) | hpart := by simpa only [parts, mem_append] using hpart
    · obtain ⟨id, -, rfl⟩ := mem_map.1 hpart
      exact name id
    · obtain ⟨id, -, rfl⟩ := mem_map.1 hpart
      exact (name id).behind (by decide)
    · split at hpart
      · cases hpart
      · obtain rfl := mem_singleton.1 hpart
        exact Shows.specifiersText named
  have htexts : importClause space default named =
      if (parts.map (·.2)).isEmpty then "" else commaSeparated (parts.map (·.2)) ++ " from " := by
    simp only [importClause, parts, map_append, map_map, Function.comp_def]
    cases named <;> rfl
  have hids : (parts.flatMap (·.1)).Perm
      (space.toList ++ default.toList ++ named.flatMap Specifier.idents) := by
    cases default <;> cases space <;> cases named <;>
      simp [parts, Perm.swap]
  rw [htexts]
  refine (mark (by decide)).choose (Shows.before ?_ (by decide))
  exact (Shows.commaSeparated hparts).mono (Subset.refl _) hids.subperm

end Shows

/-! ## Nodes -/

namespace Node

/-- The texts that a node shows besides names and marks. Types are written with the node that has
them. -/
def ownTexts : Node → List String
  | .expr (.number _ t) => [t]
  | .expr (.string _ v) => [Text.quote v]
  | .expr (.binary _ _ _ op _) | .expr (.unary _ op _) => [op]
  | .expr (.call _ _ _ ts _) | .expr (.new _ _ ts _) => TypeRef.renders ts
  | .param (.mk _ _ t _ _ _) | .declarator (.mk _ _ t _) | .member (.field _ _ _ t _)
  | .stmt (.funcDecl _ _ _ _ t _) | .type t => [t.render]
  | .stmt (.importDecl _ _ _ _ module) => [module.elim "" Text.quote]
  | _ => []

/-- The texts that the nodes on a full walk show. -/
def texts (n : Node) : List String :=
  n.nodes.flatMap ownTexts

def renderAt (depth : Nat) : Node → String
  | .file f => f.render
  | .block b => b.render depth
  | .stmt s => s.render depth
  | .declarator d => d.render depth
  | .member m => m.render depth
  | .expr e => e.render depth
  | .property p => p.render depth
  | .param p => p.render depth
  | .type t => t.render

variable {n m : Node}

theorem texts_of_present (h : n.present? = some m) :
    n.texts = m.ownTexts ++ m.children.flatMap texts := by
  rw [texts, nodes_of_present h, flatMap_cons, flatMap_assoc]
  rfl

theorem renderAt_of_present (h : n.present? = some m) (depth : Nat) :
    n.renderAt depth = m.renderAt depth := by
  unfold present? at h
  split at h <;> cases h <;> rfl

end Node

section Lists

variable (depth : Nat)

theorem Expr.renders_eq_map (es : List Expr) :
    Expr.renders depth es = es.map fun e => e.fit Level.spread (e.render depth) :=
  eq_map_of_cons rfl (fun _ _ => rfl) es

theorem Property.renders_eq_map (ps : List Property) :
    Property.renders depth ps = ps.map (·.render depth) :=
  eq_map_of_cons rfl (fun _ _ => rfl) ps

theorem Param.renders_eq_map (ps : List Param) : Param.renders depth ps = ps.map (·.render depth) :=
  eq_map_of_cons rfl (fun _ _ => rfl) ps

theorem Stmt.renders_eq_map (ss : List Stmt) :
    Stmt.renders depth ss = ss.map fun s => lineText depth (s.render depth) :=
  eq_map_of_cons rfl (fun _ _ => rfl) ss

theorem Declarator.renders_eq_map (ds : List Declarator) :
    Declarator.renders depth ds = ds.map (·.render depth) :=
  eq_map_of_cons rfl (fun _ _ => rfl) ds

theorem Member.renders_eq_map (ms : List Member) :
    Member.renders depth ms = ms.map fun m => lineText depth (m.render depth) :=
  eq_map_of_cons rfl (fun _ _ => rfl) ms

end Lists

@[simp] theorem Node.flatMap_idents_identNodes (id : Option Ident) :
    (identNodes id).flatMap Node.idents = id.toList := by
  cases id <;> rfl

@[simp] theorem Node.flatMap_idents_specifierNodes (specs : List Specifier) :
    (specifierNodes specs).flatMap Node.idents = specs.flatMap Specifier.idents := by
  simp only [specifierNodes, flatMap_assoc, flatMap_append, Node.flatMap_idents_identNodes]
  rfl

/-! ## One case a constructor -/

/-- Each of some nodes shows what its walk visits, at any depth. -/
def AllShow (texts : List String) (ns : List Node) : Prop :=
  ∀ n ∈ ns, ∀ depth, Shows texts n.idents (n.renderAt depth)

section Cases

variable {texts : List String}

theorem allShow_cons {n : Node} {ns : List Node} : AllShow texts (n :: ns) ↔
    (∀ depth, Shows texts n.idents (n.renderAt depth)) ∧ AllShow texts ns :=
  forall_mem_cons

theorem allShow_append {ns ms : List Node} :
    AllShow texts (ns ++ ms) ↔ AllShow texts ns ∧ AllShow texts ms :=
  forall_mem_append

namespace AllShow

theorem arguments {es : List Expr} (h : AllShow texts (es.map .expr)) (depth : Nat) :
    Shows texts ((es.map Node.expr).flatMap Node.idents)
      (commaSeparated (Expr.renders depth es)) := by
  rw [Expr.renders_eq_map, flatMap_map]
  exact .commaSeparated fun e he => (h _ (mem_map_of_mem he) depth).fit _ e

theorem params {ps : List Param} (h : AllShow texts (ps.map .param)) (depth : Nat) :
    Shows texts ((ps.map Node.param).flatMap Node.idents)
      (parenthesized (commaSeparated (Param.renders depth ps))) := by
  rw [Param.renders_eq_map, flatMap_map]
  exact (Shows.commaSeparated fun p hp => h _ (mem_map_of_mem hp) depth).parenthesized

theorem stmts {ss : List Stmt} (h : AllShow texts (ss.map .stmt)) (depth : Nat) :
    ∀ s ∈ ss, Shows texts (Node.stmt s).idents (lineText depth (s.render depth)) :=
  fun _ hs => (h _ (mem_map_of_mem hs) depth).lineText

end AllShow

theorem Expr.shows (e : Expr) (hid : (Node.expr e).ident? = none) (h : AllShow texts e.children)
    (hown : (Node.expr e).ownTexts ⊆ texts) (depth : Nat) :
    Shows texts (e.children.flatMap Node.idents) (e.render depth) := by
  cases e with
  | ident => cases hid
  | number _ t => exact .own (hown mem_cons_self)
  | string _ v => exact .own (hown mem_cons_self)
  | bool _ v =>
    rw [Expr.render]
    exact .choose (.mark (by decide)) (.mark (by decide))
  | missing | this | super =>
    rw [Expr.render]
    exact .mark (by decide)
  | prop _ _ o name optional =>
    have ho := (allShow_cons.1 h).1 depth
    rw [Expr.children, flatMap_cons, Node.flatMap_idents_identNodes, Expr.render]
    refine ((ho.asTarget o).append_text ?_).append (.nameText name)
    exact .choose (.mark (by decide)) (.mark (by decide))
  | elem _ _ o x =>
    obtain ⟨ho, hx, -⟩ := by simpa only [Expr.children, allShow_cons] using h
    rw [Expr.children, flatMap_cons, flatMap_singleton, Expr.render]
    exact ((((ho depth).asTarget o).before (by decide)).append (hx depth)).before (by decide)
  | call _ _ c ts as =>
    obtain ⟨hc, has⟩ := allShow_cons.1 h
    rw [Expr.children, flatMap_cons, Expr.render]
    exact (((hc depth).asTarget c).append_text (.angled hown)).append
      (has.arguments depth).parenthesized
  | new _ c ts as =>
    obtain ⟨hc, has⟩ := allShow_cons.1 h
    rw [Expr.children, flatMap_cons, Expr.render]
    exact ((((hc depth).asTarget c).behind (by decide)).append_text (.angled hown)).append
      (has.arguments depth).parenthesized
  | binary _ _ l op r =>
    obtain ⟨hl, hr, -⟩ := by simpa only [Expr.children, allShow_cons] using h
    have hop : Shows texts [] (if op = "," then ", " else " " ++ op ++ " ") :=
      .choose (.mark (by decide)) (((Shows.own (hown mem_cons_self)).behind (by decide)).before
        (by decide))
    rw [Expr.children, flatMap_cons, flatMap_singleton, Expr.render]
    exact (((hl depth).fit _ l).append_text hop).append ((hr depth).fit _ r)
  | unary _ op e =>
    have he := (allShow_cons.1 h).1 depth
    have hgap : Shows texts [] (unaryGap op e) := by
      unfold unaryGap
      split
      · exact .choose (.mark (by decide)) (.mark (by decide))
      · exact .mark (by decide)
    rw [Expr.children, flatMap_singleton, Expr.render]
    exact ((Shows.own (hown mem_cons_self)).append_text hgap).text_append (he.fit _ e)
  | cond _ c t e =>
    obtain ⟨hc, ht, he, -⟩ := by simpa only [Expr.children, allShow_cons] using h
    rw [Expr.children, flatMap_cons, flatMap_cons, flatMap_singleton, ← append_assoc, Expr.render]
    exact (((((hc depth).fit _ c).before (by decide)).append ((ht depth).fit _ t)).before
      (by decide)).append ((he depth).fit _ e)
  | paren _ e =>
    rw [Expr.children, flatMap_singleton, Expr.render]
    exact ((allShow_cons.1 h).1 depth).parenthesized
  | void _ e | spread _ e =>
    rw [Expr.children, flatMap_singleton, Expr.render]
    exact (((allShow_cons.1 h).1 depth).fit _ e).behind (by decide)
  | array _ es =>
    rw [Expr.children, Expr.render]
    exact ((h.arguments depth).behind (by decide)).before (by decide)
  | object _ ps =>
    rw [Expr.children, flatMap_map, Expr.render, Property.renders_eq_map]
    exact .objectText fun p hp => h _ (mem_map_of_mem hp) depth
  | arrow _ ps b e =>
    obtain ⟨hps, hb, he, -⟩ := by simpa only [Expr.children, allShow_append, allShow_cons] using h
    have hresult : Shows texts ((Node.block b).idents ++ (Node.expr e).idents)
        (if b.isMissing then resultText e (e.render depth) else b.render depth) :=
      .choose (((he depth).resultText e).mono (Subset.refl _) (sublist_append_right _ _).subperm)
        ((hb depth).mono (Subset.refl _) (sublist_append_left _ _).subperm)
    rw [Expr.children, flatMap_append, flatMap_cons, flatMap_singleton, Expr.render]
    exact ((hps.params depth).before (by decide)).append hresult
  | func _ name ps b =>
    obtain ⟨⟨-, hps⟩, hb, -⟩ := by simpa only [Expr.children, allShow_append, allShow_cons] using h
    have hname : Shows texts name.toList (name.elim "" (" " ++ ·.name)) := by
      cases name with
      | none => exact .mark (by decide)
      | some id => exact (Shows.name id).behind (by decide)
    rw [Expr.children, flatMap_append, flatMap_append, flatMap_singleton,
      Node.flatMap_idents_identNodes, Expr.render]
    exact (((hname.behind (by decide)).append (hps.params depth)).before (by decide)).append
      (hb depth)

theorem Stmt.shows (s : Stmt) (h : AllShow texts s.children)
    (hown : (Node.stmt s).ownTexts ⊆ texts) (depth : Nat) :
    Shows texts (s.children.flatMap Node.idents) (s.render depth) := by
  cases s with
  | missing =>
    rw [Stmt.render]
    exact .mark (by decide)
  | block b =>
    rw [Stmt.children, flatMap_singleton, Stmt.render]
    exact (allShow_cons.1 h).1 depth
  | expr _ e =>
    have he := (allShow_cons.1 h).1 depth
    rw [Stmt.children, flatMap_singleton, Stmt.render]
    exact (he.parenthesized.choose he).before (by decide)
  | ret _ e =>
    have he := (allShow_cons.1 h).1 depth
    rw [Stmt.children, flatMap_singleton, Stmt.render]
    exact ((Shows.choose (.mark (by decide)) (he.behind (by decide))).behind (by decide)).before
      (by decide)
  | throw _ e =>
    rw [Stmt.children, flatMap_singleton, Stmt.render]
    exact (((allShow_cons.1 h).1 depth).behind (by decide)).before (by decide)
  | cond _ c y n =>
    obtain ⟨hc, hy, hn, -⟩ := by simpa only [Stmt.children, allShow_cons] using h
    have helse : Shows texts (Node.stmt n).idents
        (if n.isMissing then "" else " else " ++ n.render depth) :=
      .choose (.mark (by decide)) ((hn depth).behind (by decide))
    rw [Stmt.children, flatMap_cons, flatMap_cons, flatMap_singleton, ← append_assoc, Stmt.render]
    exact ((((hc depth).behind (by decide)).before (by decide)).append (hy depth)).append helse
  | varDecl _ exported kind ds =>
    have hkind : Shows texts [] kind.keyword := by
      cases kind <;> exact .mark (by decide)
    have hds : Shows texts ((ds.map Node.declarator).flatMap Node.idents)
        (commaSeparated (Declarator.renders depth ds)) := by
      rw [Declarator.renders_eq_map, flatMap_map]
      exact .commaSeparated fun d hd => h _ (mem_map_of_mem hd) depth
    rw [Stmt.children, Stmt.render]
    exact ((((Shows.exportText exported).append_text hkind).before (by decide)).text_append
      hds).before (by decide)
  | funcDecl _ exported name ps result b =>
    obtain ⟨⟨-, hps⟩, hb, -⟩ := by simpa only [Stmt.children, allShow_append, allShow_cons] using h
    rw [Stmt.children, flatMap_append, flatMap_append, flatMap_singleton,
      Node.flatMap_idents_identNodes, Stmt.render]
    exact ((((((Shows.exportText exported).before (by decide)).text_append (.nameText name)).append
      (hps.params depth)).append_text (.annotationText _ (hown mem_cons_self))).before
      (by decide)).append (hb depth)
  | classDecl _ exported name base ms =>
    obtain ⟨-, hbase, hms⟩ := by simpa only [Stmt.children, allShow_append, allShow_cons] using h
    have hextends : Shows texts (Node.expr base).idents (if base.isMissing then ""
        else " extends " ++ base.fit Level.call (base.render depth)) :=
      .choose (.mark (by decide)) (((hbase depth).fit _ base).behind (by decide))
    have hbody : Shows texts ((ms.map Node.member).flatMap Node.idents)
        (bracesText depth (Member.renders (depth + 1) ms)) := by
      rw [Member.renders_eq_map, flatMap_map]
      exact .bracesText fun m hm => (h _ (by simp [Stmt.children, hm]) (depth + 1)).lineText
    rw [Stmt.children, flatMap_append, flatMap_cons, ← append_assoc,
      Node.flatMap_idents_identNodes, Stmt.render]
    exact (((((Shows.exportText exported).before (by decide)).text_append (.nameText name)).append
      hextends).before (by decide)).append hbody
  | importDecl _ space default named module =>
    rw [Stmt.children, flatMap_append, flatMap_append, Node.flatMap_idents_identNodes,
      Node.flatMap_idents_identNodes, Node.flatMap_idents_specifierNodes, Stmt.render]
    exact (((Shows.importClause space default named).behind (by decide)).append_text
      (.own (hown mem_cons_self))).before (by decide)
  | exportDecl _ named =>
    rw [Stmt.children, Node.flatMap_idents_specifierNodes, Stmt.render]
    exact ((Shows.specifiersText named).behind (by decide)).before (by decide)

theorem Property.shows (p : Property) (h : AllShow texts (Node.property p).children) (depth : Nat) :
    Shows texts ((Node.property p).children.flatMap Node.idents) (p.render depth) := by
  cases p with
  | assign _ k v =>
    obtain ⟨hk, hv, -⟩ := by simpa only [Node.children, allShow_cons] using h
    rw [Node.children, flatMap_cons, flatMap_singleton, Property.render]
    exact ((hk depth).before (by decide)).append ((hv depth).fit _ v)
  | shorthand _ name =>
    rw [Node.children, Node.flatMap_idents_identNodes]
    exact .nameText name
  | spread _ e =>
    rw [Node.children, flatMap_singleton, Property.render]
    exact (((allShow_cons.1 h).1 depth).fit _ e).behind (by decide)

theorem Param.shows (p : Param) (h : AllShow texts (Node.param p).children)
    (hown : (Node.param p).ownTexts ⊆ texts) (depth : Nat) :
    Shows texts ((Node.param p).children.flatMap Node.idents) (p.render depth) := by
  obtain ⟨_, name, type, optional, rest, e⟩ := p
  obtain ⟨-, he, -⟩ := by simpa only [Node.children, allShow_append, allShow_cons] using h
  have hrest : Shows texts [] (if rest then "..." else "") :=
    .choose (.mark (by decide)) (.mark (by decide))
  have hoptional : Shows texts [] (if optional then "?" else "") :=
    .choose (.mark (by decide)) (.mark (by decide))
  rw [Node.children, flatMap_append, flatMap_singleton, Node.flatMap_idents_identNodes,
    Param.render]
  exact (((hrest.text_append (.nameText name)).append_text hoptional).append_text
    (.annotationText type (hown mem_cons_self))).append ((he depth).initText e)

theorem Declarator.shows (d : Declarator) (h : AllShow texts (Node.declarator d).children)
    (hown : (Node.declarator d).ownTexts ⊆ texts) (depth : Nat) :
    Shows texts ((Node.declarator d).children.flatMap Node.idents) (d.render depth) := by
  obtain ⟨_, name, type, e⟩ := d
  obtain ⟨-, he, -⟩ := by simpa only [Node.children, allShow_append, allShow_cons] using h
  rw [Node.children, flatMap_append, flatMap_singleton, Node.flatMap_idents_identNodes,
    Declarator.render]
  exact ((Shows.nameText name).append_text (.annotationText type (hown mem_cons_self))).append
    ((he depth).initText e)

theorem Member.shows (m : Member) (h : AllShow texts (Node.member m).children)
    (hown : (Node.member m).ownTexts ⊆ texts) (depth : Nat) :
    Shows texts ((Node.member m).children.flatMap Node.idents) (m.render depth) := by
  cases m with
  | ctor _ ps b =>
    obtain ⟨hps, hb, -⟩ := by simpa only [Node.children, allShow_append, allShow_cons] using h
    rw [Node.children, flatMap_append, flatMap_singleton, Member.render]
    exact (((hps.params depth).behind (by decide)).before (by decide)).append (hb depth)
  | method _ static name ps b =>
    obtain ⟨⟨-, hps⟩, hb, -⟩ := by simpa only [Node.children, allShow_append, allShow_cons] using h
    rw [Node.children, flatMap_append, flatMap_append, flatMap_singleton,
      Node.flatMap_idents_identNodes, Member.render]
    exact ((((Shows.staticText static).text_append (.nameText name)).append
      (hps.params depth)).before (by decide)).append (hb depth)
  | field _ static name type e =>
    obtain ⟨-, he, -⟩ := by simpa only [Node.children, allShow_append, allShow_cons] using h
    rw [Node.children, flatMap_append, flatMap_singleton, Node.flatMap_idents_identNodes,
      Member.render]
    exact ((((Shows.staticText static).text_append (.nameText name)).append_text
      (.annotationText type (hown mem_cons_self))).append ((he depth).initText e)).before
        (by decide)

end Cases

namespace Node

variable (n : Node)

/-- A node shows what is visited if its children do. -/
theorem shows_of_children {texts : List String} (h : AllShow texts n.children)
    (hown : n.ownTexts ⊆ texts) (depth : Nat) :
    Shows texts (n.ident?.toList ++ n.children.flatMap idents) (n.renderAt depth) := by
  cases n with
  | file f =>
    rw [renderAt, File.render, Stmt.renders_eq_map]
    refine Shows.mono (.join (h.stmts 0)) (Subset.refl _) ?_
    rw [children, flatMap_map]
    exact .refl _
  | block b =>
    cases b with
    | missing => exact .mark (t := "") (by decide)
    | mk _ _ ss =>
      rw [renderAt, Block.render, Stmt.renders_eq_map]
      refine Shows.mono (.bracesText (h.stmts (depth + 1))) (Subset.refl _) ?_
      rw [children, flatMap_map]
      exact .refl _
  | stmt s => exact s.shows h hown depth
  | declarator d => exact d.shows h hown depth
  | member m => exact m.shows h hown depth
  | expr e =>
    cases e with
    | ident id => exact .name id
    | _ => exact Expr.shows _ rfl h hown depth
  | property p => exact p.shows h depth
  | param p => exact p.shows h hown depth
  | type t => exact .own (hown mem_cons_self)

theorem shows_renderAt (depth : Nat) : Shows n.texts n.idents (n.renderAt depth) := by
  induction n using induction_children generalizing depth with
  | absent n h =>
    unfold present? at h
    split at h
    · exact .mark (t := "") (by decide)
    · exact .mark (t := missingText) (by decide)
    · exact .mark (t := "") (by decide)
    · exact .mark (t := missingText) (by decide)
    · exact .mark (t := "") (by decide)
    all_goals cases h
  | present n m h ih =>
    have htexts := texts_of_present h
    have hchildren : AllShow n.texts m.children := by
      intro c hc depth
      refine (ih c hc depth).mono ?_ (.refl _)
      rw [htexts]
      exact fun t ht => mem_append_right _ (mem_flatMap.2 ⟨c, hc, ht⟩)
    have hown : m.ownTexts ⊆ n.texts := by
      rw [htexts]
      exact subset_append_left _ _
    rw [idents_of_present h, renderAt_of_present h]
    exact m.shows_of_children hchildren hown depth

theorem renderAt_zero : n.renderAt 0 = n.render := by
  cases n <;> rfl

/-- A printed tree shows nothing but marks, and texts and names of the nodes that a walk visits. -/
theorem shows_render : Shows n.texts n.idents n.render :=
  n.renderAt_zero ▸ n.shows_renderAt 0

/-- A walk visits exactly the nodes without a refused node above them, each once and in the order of
the full walk, and a node before what lies below it. The module of an import and types below the
root are not among these nodes. What the printed tree shows comes from nodes that the full walk
visits, and so do all its names. -/
theorem walk_prunes (n : Node) :
    (∃ ps, n.Visits ps ∧ ps.Pairwise fun p q => ¬ q <+: p) ∧
    Shows n.texts n.idents n.render := by
  obtain ⟨ps, hps⟩ := n.exists_visits
  exact ⟨⟨ps, hps, hps.ordered.imp not_isPrefix_of_lt⟩, n.shows_render⟩

/-- A walk visits a type that it starts at. It does not visit the type of the parameter `x: T` or
the module of `import * as L from "m"`. -/
theorem carried_not_visited :
    let t : TypeRef := .named {} "T" []
    let param : Node := .param (.mk {} (some { name := "x" }) t false false .missing)
    let decl : Node := .stmt (.importDecl {} (some { name := "L" }) none [] (some "m"))
    (Node.type t).nodes = [.type t] ∧ .type t ∉ param.nodes ∧
      ∀ i, .expr (.string i "m") ∉ decl.nodes := by
  refine ⟨rfl, ?_, fun i => ?_⟩
  · simp [nodes, walk, Param.walk, Expr.walk, identNodes, visited]
  · simp [nodes, walk, Stmt.walk, identNodes, specifierNodes, visited]

end Node

end ExtensionLowering
