import ExtensionLowering.Tree.Build
import ExtensionLowering.Tree.Map
import ExtensionLowering.Tree.Walk
/-!
# The identifiers of a tree

The list of identifiers that a walk meets, as a function on each sort of tree with one equation a
constructor. Laws about occurrences are stated with these lists, so that no later proof opens the
walk itself.
-/
namespace ExtensionLowering

open List

variable (e : Expr) (t : Token) (n : Ident)

/-- The identifiers among some nodes. -/
def identsOf (ns : List Node) : List Ident :=
  ns.filterMap Node.ident?

@[simp] theorem identsOf_nil : identsOf [] = [] := rfl

@[simp] theorem identsOf_append (ns ms : List Node) :
    identsOf (ns ++ ms) = identsOf ns ++ identsOf ms :=
  filterMap_append

@[simp] theorem identsOf_identNodes (id : Option Ident) : identsOf (identNodes id) = id.toList := by
  cases id <;> rfl

@[simp] theorem identsOf_flatMap {α : Type} (xs : List α) (f : α → List Node) :
    identsOf (xs.flatMap f) = xs.flatMap fun x => identsOf (f x) :=
  filterMap_flatMap

def Specifier.idents (s : Specifier) : List Ident :=
  s.name.toList ++ s.newName.toList

@[simp] theorem identsOf_specifierNodes (specs : List Specifier) :
    identsOf (specifierNodes specs) = specs.flatMap Specifier.idents := by
  rw [specifierNodes, identsOf_flatMap]
  simp only [identsOf_append, identsOf_identNodes]
  rfl

/-- A full walk meets at a node that is no identifier what it meets below the node. -/
theorem identsOf_visited {n : Node} {below : List Node} {ids : List Ident} (h : n.ident? = none)
    (hbelow : identsOf below = ids) : identsOf (visited (fun _ => true) n below) = ids :=
  (filterMap_cons_none h).trans hbelow

def Expr.idents (e : Expr) : List Ident := identsOf (e.walk fun _ => true)
def Property.idents (p : Property) : List Ident := identsOf (p.walk fun _ => true)
def Param.idents (p : Param) : List Ident := identsOf (p.walk fun _ => true)
def Block.idents (b : Block) : List Ident := identsOf (b.walk fun _ => true)
def Stmt.idents (s : Stmt) : List Ident := identsOf (s.walk fun _ => true)
def Declarator.idents (d : Declarator) : List Ident := identsOf (d.walk fun _ => true)
def Member.idents (m : Member) : List Ident := identsOf (m.walk fun _ => true)

section

variable (e : Expr) (p : Property) (q : Param) (b : Block) (s : Stmt) (d : Declarator) (m : Member)

@[simp] theorem identsOf_exprWalk : identsOf (e.walk fun _ => true) = e.idents := rfl
@[simp] theorem identsOf_propertyWalk : identsOf (p.walk fun _ => true) = p.idents := rfl
@[simp] theorem identsOf_paramWalk : identsOf (q.walk fun _ => true) = q.idents := rfl
@[simp] theorem identsOf_blockWalk : identsOf (b.walk fun _ => true) = b.idents := rfl
@[simp] theorem identsOf_stmtWalk : identsOf (s.walk fun _ => true) = s.idents := rfl
@[simp] theorem identsOf_declaratorWalk : identsOf (d.walk fun _ => true) = d.idents := rfl
@[simp] theorem identsOf_memberWalk : identsOf (m.walk fun _ => true) = m.idents := rfl

end

section Lists

/-- A recursion over a list that collects what the elements have. -/
theorem eq_flatMap_of_cons {α β : Type} {w : List α → List β} {g : α → List β} (hnil : w [] = [])
    (hcons : ∀ a as, w (a :: as) = g a ++ w as) (as : List α) : w as = as.flatMap g := by
  induction as with
  | nil => exact hnil
  | cons a as ih => rw [hcons, ih, flatMap_cons]

/-- A recursion over a list that gives one result for each element. -/
theorem eq_map_of_cons {α β : Type} {w : List α → List β} {g : α → β} (hnil : w [] = [])
    (hcons : ∀ a as, w (a :: as) = g a :: w as) (as : List α) : w as = as.map g := by
  induction as with
  | nil => exact hnil
  | cons a as ih => rw [hcons, ih, map_cons]

variable (f : Node → Bool)

@[simp] theorem Expr.walks_eq_flatMap (es : List Expr) : Expr.walks f es = es.flatMap (·.walk f) :=
  eq_flatMap_of_cons rfl (fun _ _ => rfl) es

@[simp] theorem Property.walks_eq_flatMap (ps : List Property) :
    Property.walks f ps = ps.flatMap (·.walk f) :=
  eq_flatMap_of_cons rfl (fun _ _ => rfl) ps

@[simp] theorem Param.walks_eq_flatMap (ps : List Param) :
    Param.walks f ps = ps.flatMap (·.walk f) :=
  eq_flatMap_of_cons rfl (fun _ _ => rfl) ps

@[simp] theorem Stmt.walks_eq_flatMap (ss : List Stmt) : Stmt.walks f ss = ss.flatMap (·.walk f) :=
  eq_flatMap_of_cons rfl (fun _ _ => rfl) ss

@[simp] theorem Declarator.walks_eq_flatMap (ds : List Declarator) :
    Declarator.walks f ds = ds.flatMap (·.walk f) :=
  eq_flatMap_of_cons rfl (fun _ _ => rfl) ds

@[simp] theorem Member.walks_eq_flatMap (ms : List Member) :
    Member.walks f ms = ms.flatMap (·.walk f) :=
  eq_flatMap_of_cons rfl (fun _ _ => rfl) ms

end Lists

/-! ## One equation a constructor -/

namespace Expr

variable (i : Info) (s : SiteFacts)

@[simp] theorem idents_missing : missing.idents = [] := rfl
@[simp] theorem idents_ident (id : Ident) : (ident id).idents = [id] := rfl
@[simp] theorem idents_number (t : String) : (number i t).idents = [] := rfl
@[simp] theorem idents_string (v : String) : (string i v).idents = [] := rfl
@[simp] theorem idents_bool (v : Bool) : (bool i v).idents = [] := rfl
@[simp] theorem idents_this : (this i).idents = [] := rfl
@[simp] theorem idents_super : (super i).idents = [] := rfl

@[simp] theorem idents_prop (o : Expr) (n : Option Ident) (q : Bool) :
    (prop i s o n q).idents = o.idents ++ n.toList :=
  identsOf_visited rfl (by simp)

@[simp] theorem idents_elem (o x : Expr) : (elem i s o x).idents = o.idents ++ x.idents :=
  identsOf_visited rfl (by simp)

@[simp] theorem idents_call (s : CallFacts) (c : Expr) (ts : List TypeRef) (as : List Expr) :
    (call i s c ts as).idents = c.idents ++ as.flatMap idents :=
  identsOf_visited rfl (by simp)

@[simp] theorem idents_new (c : Expr) (ts : List TypeRef) (as : List Expr) :
    (new i c ts as).idents = c.idents ++ as.flatMap idents :=
  identsOf_visited rfl (by simp)

@[simp] theorem idents_binary (l : Expr) (op : String) (r : Expr) :
    (binary i s l op r).idents = l.idents ++ r.idents :=
  identsOf_visited rfl (by simp)

@[simp] theorem idents_unary (op : String) (e : Expr) : (unary i op e).idents = e.idents :=
  identsOf_visited rfl (by simp)

@[simp] theorem idents_cond (c t e : Expr) :
    (cond i c t e).idents = c.idents ++ t.idents ++ e.idents :=
  identsOf_visited rfl (by simp)

@[simp] theorem idents_paren (e : Expr) : (paren i e).idents = e.idents :=
  identsOf_visited rfl (by simp)

@[simp] theorem idents_void (e : Expr) : (void i e).idents = e.idents :=
  identsOf_visited rfl (by simp)

@[simp] theorem idents_spread (e : Expr) : (spread i e).idents = e.idents :=
  identsOf_visited rfl (by simp)

@[simp] theorem idents_array (es : List Expr) : (array i es).idents = es.flatMap idents :=
  identsOf_visited rfl (by simp)

@[simp] theorem idents_object (ps : List Property) :
    (object i ps).idents = ps.flatMap Property.idents :=
  identsOf_visited rfl (by simp)

@[simp] theorem idents_arrow (ps : List Param) (b : Block) (e : Expr) :
    (arrow i ps b e).idents = ps.flatMap Param.idents ++ b.idents ++ e.idents :=
  identsOf_visited rfl (by simp)

@[simp] theorem idents_func (n : Option Ident) (ps : List Param) (b : Block) :
    (func i n ps b).idents = n.toList ++ ps.flatMap Param.idents ++ b.idents :=
  identsOf_visited rfl (by simp)

end Expr

namespace Property

variable (t : Token)

@[simp] theorem idents_assign (k v : Expr) : (assign t k v).idents = k.idents ++ v.idents :=
  identsOf_visited rfl (by simp)

@[simp] theorem idents_shorthand (n : Option Ident) : (shorthand t n).idents = n.toList :=
  identsOf_visited rfl (by simp)

@[simp] theorem idents_spread (e : Expr) : (spread t e).idents = e.idents :=
  identsOf_visited rfl (by simp)

end Property

@[simp] theorem Param.idents_mk (n : Option Ident) (ty : TypeRef) (o r : Bool)
    (e : Expr) : (mk t n ty o r e).idents = n.toList ++ e.idents :=
  identsOf_visited rfl (by simp)

@[simp] theorem Block.idents_missing : missing.idents = [] := rfl

@[simp] theorem Block.idents_mk (u : List DeclId) (ss : List Stmt) :
    (mk t u ss).idents = ss.flatMap Stmt.idents :=
  identsOf_visited rfl (by simp)

@[simp] theorem Declarator.idents_mk (n : Option Ident) (ty : TypeRef) (e : Expr) :
    (mk t n ty e).idents = n.toList ++ e.idents :=
  identsOf_visited rfl (by simp)

namespace Stmt

variable (t : Token)

@[simp] theorem idents_missing : missing.idents = [] := rfl
@[simp] theorem idents_block (b : Block) : (block b).idents = b.idents := rfl

@[simp] theorem idents_expr (e : Expr) : (expr t e).idents = e.idents :=
  identsOf_visited rfl (by simp)

@[simp] theorem idents_ret (e : Expr) : (ret t e).idents = e.idents :=
  identsOf_visited rfl (by simp)

@[simp] theorem idents_throw (e : Expr) : (throw t e).idents = e.idents :=
  identsOf_visited rfl (by simp)

@[simp] theorem idents_cond (c : Expr) (y n : Stmt) :
    (cond t c y n).idents = c.idents ++ y.idents ++ n.idents :=
  identsOf_visited rfl (by simp)

@[simp] theorem idents_varDecl (x : Bool) (k : VarKind) (ds : List Declarator) :
    (varDecl t x k ds).idents = ds.flatMap Declarator.idents :=
  identsOf_visited rfl (by simp)

@[simp] theorem idents_funcDecl (x : Bool) (n : Option Ident) (ps : List Param) (r : TypeRef)
    (b : Block) :
    (funcDecl t x n ps r b).idents = n.toList ++ ps.flatMap Param.idents ++ b.idents :=
  identsOf_visited rfl (by simp)

@[simp] theorem idents_classDecl (x : Bool) (n : Option Ident) (e : Expr) (ms : List Member) :
    (classDecl t x n e ms).idents = n.toList ++ e.idents ++ ms.flatMap Member.idents :=
  identsOf_visited rfl (by simp)

@[simp] theorem idents_importDecl (s d : Option Ident) (ns : List Specifier) (m : Option String) :
    (importDecl t s d ns m).idents = s.toList ++ d.toList ++ ns.flatMap Specifier.idents :=
  identsOf_visited rfl (by simp)

@[simp] theorem idents_exportDecl (ns : List Specifier) :
    (exportDecl t ns).idents = ns.flatMap Specifier.idents :=
  identsOf_visited rfl (by simp)

end Stmt

namespace Member

variable (t : Token)

@[simp] theorem idents_ctor (ps : List Param) (b : Block) :
    (ctor t ps b).idents = ps.flatMap Param.idents ++ b.idents :=
  identsOf_visited rfl (by simp)

@[simp] theorem idents_method (s : Bool) (n : Option Ident) (ps : List Param) (b : Block) :
    (method t s n ps b).idents = n.toList ++ ps.flatMap Param.idents ++ b.idents :=
  identsOf_visited rfl (by simp)

@[simp] theorem idents_field (s : Bool) (n : Option Ident) (ty : TypeRef) (e : Expr) :
    (field t s n ty e).idents = n.toList ++ e.idents :=
  identsOf_visited rfl (by simp)

end Member

@[simp] theorem Node.idents_expr : (Node.expr e).idents = e.idents := rfl

@[simp] theorem Node.idents_stmt (s : Stmt) : (Node.stmt s).idents = s.idents := rfl

@[simp] theorem Node.idents_file (f : File) : (Node.file f).idents = f.stmts.flatMap Stmt.idents :=
  identsOf_visited rfl (by simp)

theorem File.mem_idents {f : File} {s : Stmt} {id : Ident} (hs : s ∈ f.stmts)
    (hid : id ∈ s.idents) : id ∈ (Node.file f).idents := by
  rw [Node.idents_file]
  exact List.mem_flatMap.2 ⟨s, hs, hid⟩

/-- The names that the walk over a file lists. -/
abbrev File.names (f : File) : List String :=
  (Node.file f).idents.map (·.name)

/-! ## Generated nodes -/

namespace Expr

@[simp] theorem idents_ofIdent (id : Ident) : (ofIdent id).idents = [id] := rfl
@[simp] theorem idents_ofName (n : String) : (ofName n).idents = [.synthetic n] := rfl
@[simp] theorem idents_ofString (v : String) : (ofString v).idents = [] := rfl
@[simp] theorem idents_ofFloat (v : Float) : (ofFloat v).idents = [] := rfl
@[simp] theorem idents_ofBool (v : Bool) : (ofBool v).idents = [] := rfl
@[simp] theorem idents_voidZero : voidZero.idents = [] := rfl

@[simp] theorem idents_member (o : Expr) (n : String) :
    (o.member n).idents = o.idents ++ [.synthetic n] := by
  simp [member]

@[simp] theorem idents_applyTyped (c : Expr) (ts : List TypeRef) (as : List Expr) :
    (c.applyTyped ts as).idents = c.idents ++ as.flatMap idents := by
  simp [applyTyped]

@[simp] theorem idents_apply (c : Expr) (as : List Expr) :
    (c.apply as).idents = c.idents ++ as.flatMap idents := by
  simp [apply]

@[simp] theorem idents_lambda (ps : List Ident) (e : Expr) :
    (lambda ps e).idents = ps ++ e.idents := by
  simp [lambda, flatMap_map, Param.ofIdent]

@[simp] theorem idents_lambdaBlock (ps : List Ident) (ss : List Stmt) :
    (lambdaBlock ps ss).idents = ps ++ ss.flatMap Stmt.idents := by
  simp [lambdaBlock, flatMap_map, Param.ofIdent, Block.ofStmts]

@[simp] theorem idents_thunk (e : Expr) : e.thunk.idents = e.idents := by
  simp [thunk]

@[simp] theorem idents_immediate (ss : List Stmt) :
    (immediate ss).idents = ss.flatMap Stmt.idents := by
  simp [immediate]

@[simp] theorem idents_ofProperties (ps : List Property) :
    (ofProperties ps).idents = ps.flatMap Property.idents := by
  simp [ofProperties]

@[simp] theorem idents_ofElems (es : List Expr) : (ofElems es).idents = es.flatMap idents := by
  simp [ofElems]

@[simp] theorem idents_infixOp (l : Expr) (op : String) (r : Expr) :
    (l.infixOp op r).idents = l.idents ++ r.idents := by
  simp [infixOp]

end Expr

@[simp] theorem Property.idents_quoted (k : String) (v : Expr) :
    (quoted k v).idents = v.idents := by
  simp [quoted]

@[simp] theorem Property.idents_spreading : (spreading e).idents = e.idents := by
  simp [spreading]

@[simp] theorem Stmt.idents_returning : (returning e).idents = e.idents := by
  simp [returning]

@[simp] theorem Stmt.idents_ofExpr : (ofExpr e).idents = e.idents := by
  simp [ofExpr]

@[simp] theorem Stmt.idents_constant (e : Expr) (x : Bool) :
    (constant n e x).idents = n :: e.idents := by
  simp [constant]

@[simp] theorem Stmt.idents_namespaceImport (p : String) : (namespaceImport n p).idents = [n] := by
  simp [namespaceImport]

@[simp] theorem Stmt.idents_throwing (m : String) : (throwing m).idents = [.synthetic "Error"] := by
  simp [throwing]

/-! ## Changing identifiers -/

theorem Specifier.idents_mapIdents (f : Ident → Ident) (s : Specifier) :
    (s.mapIdents f).idents = s.idents.map f := by
  obtain ⟨name, newName⟩ := s
  cases name <;> cases newName <;> rfl

theorem Specifier.flatMap_idents_mapIdents (f : Ident → Ident) (specs : List Specifier) :
    (specs.map (·.mapIdents f)).flatMap Specifier.idents =
      (specs.flatMap Specifier.idents).map f := by
  rw [flatMap_map, map_flatMap]
  congr 1
  funext s
  exact s.idents_mapIdents f

section

variable (g : Ident → Ident)

theorem Expr.mapAll_eq_map (es : List Expr) : Expr.mapAll g es = es.map (·.mapIdents g) :=
  eq_map_of_cons rfl (fun _ _ => rfl) es

theorem Property.mapAll_eq_map (ps : List Property) :
    Property.mapAll g ps = ps.map (·.mapIdents g) :=
  eq_map_of_cons rfl (fun _ _ => rfl) ps

theorem Param.mapAll_eq_map (ps : List Param) : Param.mapAll g ps = ps.map (·.mapIdents g) :=
  eq_map_of_cons rfl (fun _ _ => rfl) ps

theorem Stmt.mapAll_eq_map (ss : List Stmt) : Stmt.mapAll g ss = ss.map (·.mapIdents g) :=
  eq_map_of_cons rfl (fun _ _ => rfl) ss

theorem Declarator.mapAll_eq_map (ds : List Declarator) :
    Declarator.mapAll g ds = ds.map (·.mapIdents g) :=
  eq_map_of_cons rfl (fun _ _ => rfl) ds

theorem Member.mapAll_eq_map (ms : List Member) : Member.mapAll g ms = ms.map (·.mapIdents g) :=
  eq_map_of_cons rfl (fun _ _ => rfl) ms

end

end ExtensionLowering
