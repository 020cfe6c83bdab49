import ExtensionLowering.Proofs.Tree.Idents
import Mathlib.Algebra.Order.BigOperators.Group.List
import Mathlib.Algebra.Order.Group.Nat
/-!
# Walks as lists of places

A place of a tree is the list of the positions of the children that lead there. Places are ordered
lexicographically: a place comes before the places below it, and these come before the places
further right. A walk visits the places in this order, without those that lie below a refused node.
Types and the module of an import are no children of a node: they are only carried along.
-/
namespace ExtensionLowering

open List

def Expr.children : Expr → List Node
  | .missing | .ident _ | .number .. | .string .. | .bool .. | .this _ | .super _ => []
  | .prop _ _ o n _ => .expr o :: identNodes n
  | .elem _ _ o x | .binary _ _ o _ x => [.expr o, .expr x]
  | .call _ _ c _ as | .new _ c _ as => .expr c :: as.map .expr
  | .unary _ _ e | .paren _ e | .void _ e | .spread _ e => [.expr e]
  | .cond _ c t e => [.expr c, .expr t, .expr e]
  | .array _ es => es.map .expr
  | .object _ ps => ps.map .property
  | .arrow _ ps b e => ps.map .param ++ [.block b, .expr e]
  | .func _ n ps b => identNodes n ++ ps.map .param ++ [.block b]

def Stmt.children : Stmt → List Node
  | .missing => []
  | .block b => [.block b]
  | .expr _ e | .ret _ e | .throw _ e => [.expr e]
  | .cond _ c y n => [.expr c, .stmt y, .stmt n]
  | .varDecl _ _ _ ds => ds.map .declarator
  | .funcDecl _ _ n ps _ b => identNodes n ++ ps.map .param ++ [.block b]
  | .classDecl _ _ n e ms => identNodes n ++ .expr e :: ms.map .member
  | .importDecl _ s d ns _ => identNodes s ++ identNodes d ++ specifierNodes ns
  | .exportDecl _ ns => specifierNodes ns

namespace Node

/-- What stands directly below a node, from left to right, missing parts included. -/
def children : Node → List Node
  | .file f => f.stmts.map .stmt
  | .block b => b.stmts.map .stmt
  | .stmt s => s.children
  | .declarator (.mk _ n _ e) | .member (.field _ _ n _ e) | .param (.mk _ n _ _ _ e) =>
    identNodes n ++ [.expr e]
  | .member (.ctor _ ps b) => ps.map .param ++ [.block b]
  | .member (.method _ _ n ps b) => identNodes n ++ ps.map .param ++ [.block b]
  | .expr e => e.children
  | .property (.assign _ k v) => [.expr k, .expr v]
  | .property (.shorthand _ n) => identNodes n
  | .property (.spread _ e) => [.expr e]
  | .type _ => []

/-- The node that a part of a tree is, if the part is there. A block that stands as a statement is
the block and no node around it. -/
def present? : Node → Option Node
  | .block .missing | .stmt .missing | .stmt (.block .missing) | .expr .missing
  | .type .missing => none
  | .stmt (.block b) => some (.block b)
  | n => some n

/-- The node at a place. -/
def at? : Node → List Nat → Option Node
  | n, [] => n.present?
  | n, i :: p => n.present?.bind fun m => m.children[i]?.bind (·.at? p)

/-- Does `f` accept all nodes above a place? -/
def accepts (f : Node → Bool) (n : Node) (p : List Nat) : Bool :=
  (List.range p.length).all fun k => (n.at? (p.take k)).all f

/-- The places that walks of a tree visit, one after the other. -/
structure Visits (n : Node) (ps : List (List Nat)) : Prop where
  /-- A place comes before the places below it and further right. -/
  ordered : ps.Pairwise (· < ·)
  mem_iff : ∀ p, p ∈ ps ↔ (n.at? p).isSome
  /-- A walk leaves out the places below refused nodes. -/
  walk_eq : ∀ f, (n.walk f).map some = (ps.filter (n.accepts f)).map n.at?

section

variable (f : Node → Bool)

@[simp] theorem flatMap_walk_identNodes (id : Option Ident) :
    (identNodes id).flatMap (walk f) = identNodes id := by
  cases id <;> simp [identNodes, walk, Expr.walk, visited]

@[simp] theorem flatMap_walk_specifierNodes (specs : List Specifier) :
    (specifierNodes specs).flatMap (walk f) = specifierNodes specs := by
  simp [specifierNodes, flatMap_assoc]

/-- One step of a walk: a node that is there, and what the walk meets in its children. -/
theorem walk_of_present {n m : Node} (h : n.present? = some m) :
    n.walk f = visited f m (m.children.flatMap (walk f)) := by
  have hblock (b : Block) (hb : b.isMissing = false) :
      b.walk f = visited f (.block b) ((Node.block b).children.flatMap (walk f)) := by
    cases b with
    | missing => cases hb
    | mk => simp [Block.walk, children, Block.stmts, walk, flatMap_map]
  cases n with
  | file x =>
    obtain rfl := Option.some.inj h
    simp [walk, children, flatMap_map]
  | block b =>
    cases b with
    | missing => cases h
    | mk =>
      obtain rfl := Option.some.inj h
      exact hblock _ rfl
  | stmt s =>
    cases s with
    | missing => cases h
    | block b =>
      cases b with
      | missing => cases h
      | mk =>
        obtain rfl := Option.some.inj h
        exact hblock _ rfl
    | _ =>
      obtain rfl := Option.some.inj h
      simp [walk, Stmt.walk, children, Stmt.children, flatMap_map]
  | declarator d =>
    obtain rfl := Option.some.inj h
    cases d
    simp [walk, Declarator.walk, children]
  | member m =>
    obtain rfl := Option.some.inj h
    cases m <;> simp [walk, Member.walk, children, flatMap_map]
  | expr e =>
    cases e with
    | missing => cases h
    | _ =>
      obtain rfl := Option.some.inj h
      simp [walk, Expr.walk, children, Expr.children, flatMap_map]
  | property p =>
    obtain rfl := Option.some.inj h
    cases p <;> simp [walk, Property.walk, children]
  | param p =>
    obtain rfl := Option.some.inj h
    cases p
    simp [walk, Param.walk, children]
  | type t =>
    cases t with
    | missing => cases h
    | named =>
      obtain rfl := Option.some.inj h
      simp [walk, children]

theorem present?_of_present {n m : Node} (h : n.present? = some m) : m.present? = some m := by
  unfold present? at h
  split at h <;> cases h <;> simp_all [present?]

theorem walk_of_absent {n : Node} (h : n.present? = none) : n.walk f = [] := by
  unfold present? at h
  split at h <;> first | rfl | cases h

end

theorem nodes_of_present {n m : Node} (h : n.present? = some m) :
    n.nodes = m :: m.children.flatMap nodes :=
  walk_of_present _ h

theorem idents_of_present {n m : Node} (h : n.present? = some m) :
    n.idents = m.ident?.toList ++ m.children.flatMap idents := by
  rw [idents, nodes_of_present h, filterMap_cons, filterMap_flatMap]
  cases m.ident? <;> rfl

theorem length_nodes_lt {n m c : Node} (h : n.present? = some m) (hc : c ∈ m.children) :
    c.nodes.length < n.nodes.length := by
  rw [nodes_of_present h, length_cons, length_flatMap]
  exact Nat.lt_succ_of_le (le_sum_of_mem (mem_map_of_mem hc))

/-- What holds of a node as soon as it holds of its children holds of every node. -/
@[elab_as_elim]
theorem induction_children {motive : Node → Prop} (n : Node)
    (absent : ∀ n, n.present? = none → motive n)
    (present : ∀ n m, n.present? = some m → (∀ c ∈ m.children, motive c) → motive n) :
    motive n := by
  induction hlen : n.nodes.length using Nat.strong_induction_on generalizing n with
  | _ k ih =>
    cases h : n.present? with
    | none => exact absent n h
    | some m => exact present n m h fun c hc => ih _ (hlen ▸ length_nodes_lt h hc) c rfl

/-- A full walk lists with a node everything below it. -/
theorem nodes_subset {n m : Node} (h : m ∈ n.nodes) : m.nodes ⊆ n.nodes := by
  induction n using induction_children with
  | absent n hn =>
    rw [nodes, walk_of_absent _ hn] at h
    cases h
  | present n r hr ih =>
    rw [nodes_of_present hr] at h ⊢
    obtain rfl | h := mem_cons.1 h
    · rw [nodes_of_present (present?_of_present hr)]
      exact Subset.refl _
    · obtain ⟨c, hc, hm⟩ := mem_flatMap.1 h
      exact fun x hx => mem_cons_of_mem _ (mem_flatMap.2 ⟨c, hc, ih c hc hm hx⟩)

/-! ## Changing identifiers -/

section

variable (g : Ident → Ident) (n : Node)

/-- The node with other identifiers. -/
def mapIdents (g : Ident → Ident) : Node → Node
  | .file f => .file { f with stmts := Stmt.mapAll g f.stmts }
  | .block b => .block (b.mapIdents g)
  | .stmt s => .stmt (s.mapIdents g)
  | .declarator d => .declarator (d.mapIdents g)
  | .member m => .member (m.mapIdents g)
  | .expr e => .expr (e.mapIdents g)
  | .property p => .property (p.mapIdents g)
  | .param p => .param (p.mapIdents g)
  | .type t => .type t

theorem present?_mapIdents : (n.mapIdents g).present? = n.present?.map (mapIdents g) := by
  cases n with
  | block b => cases b <;> rfl
  | stmt s =>
    cases s with
    | block b => cases b <;> rfl
    | _ => rfl
  | expr e => cases e <;> rfl
  | type t => cases t <;> rfl
  | _ => rfl

theorem ident?_mapIdents : (n.mapIdents g).ident? = n.ident?.map g := by
  cases n with
  | expr e => cases e <;> rfl
  | _ => rfl

theorem identNodes_map (id : Option Ident) :
    identNodes (id.map g) = (identNodes id).map (mapIdents g) := by
  cases id <;> rfl

theorem specifierNodes_map (specs : List Specifier) :
    specifierNodes (specs.map (·.mapIdents g)) = (specifierNodes specs).map (mapIdents g) := by
  simp [specifierNodes, flatMap_map, map_flatMap, Specifier.mapIdents, identNodes_map]

theorem children_mapIdents : (n.mapIdents g).children = n.children.map (mapIdents g) := by
  cases n with
  | file f => simp [mapIdents, children, Stmt.mapAll_eq_map]
  | block b =>
    cases b <;> simp [mapIdents, children, Block.mapIdents, Block.stmts, Stmt.mapAll_eq_map]
  | stmt s =>
    cases s <;> simp [mapIdents, children, Stmt.children, Stmt.mapIdents, identNodes_map,
      specifierNodes_map, Param.mapAll_eq_map, Declarator.mapAll_eq_map, Member.mapAll_eq_map]
  | declarator d => cases d; simp [mapIdents, children, Declarator.mapIdents, identNodes_map]
  | member m =>
    cases m <;> simp [mapIdents, children, Member.mapIdents, identNodes_map, Param.mapAll_eq_map]
  | expr e =>
    cases e <;> simp [mapIdents, children, Expr.children, Expr.mapIdents, identNodes_map,
      Expr.mapAll_eq_map, Property.mapAll_eq_map, Param.mapAll_eq_map]
  | property p => cases p <;> simp [mapIdents, children, Property.mapIdents, identNodes_map]
  | param p => cases p; simp [mapIdents, children, Param.mapIdents, identNodes_map]
  | type t => rfl

/-- Changing the identifiers of a tree changes those that a walk meets one by one. -/
theorem idents_mapIdents : (n.mapIdents g).idents = n.idents.map g := by
  induction n using induction_children with
  | absent n h =>
    have h' : (n.mapIdents g).present? = none := by rw [present?_mapIdents, h, Option.map_none]
    rw [idents, idents, nodes, nodes, walk_of_absent _ h, walk_of_absent _ h']
    rfl
  | present n m h ih =>
    have h' : (n.mapIdents g).present? = some (m.mapIdents g) := by
      rw [present?_mapIdents, h, Option.map_some]
    rw [idents_of_present h, idents_of_present h', ident?_mapIdents, children_mapIdents,
      flatMap_map, map_append, Option.toList_map, map_flatMap]
    exact congrArg _ (flatMap_congr ih)

end

/-! ## Places -/

section

variable {n m c : Node} {i : Nat} {ps : Node → List (List Nat)} {f : Node → Bool}

/-- The places below a node, when `ps` are those of a child. -/
def through (n : Node) (ps : Node → List (List Nat)) : List (List Nat) :=
  n.children.zipIdx.flatMap fun c => (ps c.1).map (c.2 :: ·)

theorem mem_through {p : List Nat} :
    p ∈ n.through ps ↔ ∃ i q c, p = i :: q ∧ n.children[i]? = some c ∧ q ∈ ps c := by
  simp only [through, mem_flatMap, mem_map, Prod.exists, mem_zipIdx_iff_getElem?]
  constructor
  · rintro ⟨c, i, hc, q, hq, rfl⟩
    exact ⟨i, q, c, rfl, hc, hq⟩
  · rintro ⟨i, q, c, rfl, hc, hq⟩
    exact ⟨c, i, hc, q, hq, rfl⟩

/-- The places below one child come before those below the next. -/
theorem pairwise_through (hps : ∀ c ∈ n.children, (ps c).Pairwise (· < ·)) :
    (n.through ps).Pairwise (· < ·) := by
  have hidx : (n.children.zipIdx.map Prod.snd).Pairwise (· < ·) := by
    rw [zipIdx_map_snd]
    exact pairwise_lt_range'
  refine pairwise_flatMap.2 ⟨fun c hc => ?_, (pairwise_map.1 hidx).imp ?_⟩
  · refine pairwise_map.2 ((hps c.1 (fst_mem_of_mem_zipIdx hc)).imp fun hlt => ?_)
    exact cons_lt_cons_iff.2 (.inr ⟨rfl, hlt⟩)
  · intro c d hlt p hp q hq
    obtain ⟨p, -, rfl⟩ := mem_map.1 hp
    obtain ⟨q, -, rfl⟩ := mem_map.1 hq
    exact cons_lt_cons_iff.2 (.inl hlt)

theorem at?_cons (h : n.present? = some m) (hc : m.children[i]? = some c) (p : List Nat) :
    n.at? (i :: p) = c.at? p := by
  rw [at?, h, Option.bind_some, hc, Option.bind_some]

theorem accepts_cons (h : n.present? = some m) (hc : m.children[i]? = some c) (p : List Nat) :
    n.accepts f (i :: p) = (f m && c.accepts f p) := by
  rw [accepts, length_cons, range_succ_eq_map, all_cons, all_map]
  simp only [take_zero, at?, h, Option.all_some, accepts, Function.comp_def,
    take_succ_cons, hc, Option.bind_some]

/-- What a walk meets through one child, if the node above it is accepted. -/
theorem map_at?_child {ps : List (List Nat)} (h : n.present? = some m)
    (hc : m.children[i]? = some c)
    (hps : (c.walk f).map some = (ps.filter (c.accepts f)).map c.at?) :
    ((ps.map (i :: ·)).filter (n.accepts f)).map n.at? =
      if f m then (c.walk f).map some else [] := by
  have haccepts : n.accepts f ∘ (i :: ·) = fun p => f m && c.accepts f p :=
    funext fun p => accepts_cons h hc p
  have hat : n.at? ∘ (i :: ·) = c.at? := funext fun p => at?_cons h hc p
  rw [filter_map, map_map, haccepts, hat]
  cases f m with
  | true => exact hps.symm
  | false => simp

theorem map_at?_through (h : n.present? = some m)
    (hps : ∀ c ∈ m.children, (c.walk f).map some = ((ps c).filter (c.accepts f)).map c.at?) :
    ((m.through ps).filter (n.accepts f)).map n.at? =
      if f m then (m.children.flatMap (walk f)).map some else [] := by
  have hchild : ∀ c ∈ m.children.zipIdx,
      (((ps c.1).map (c.2 :: ·)).filter (n.accepts f)).map n.at? =
        if f m then (c.1.walk f).map some else [] :=
    fun c hc => map_at?_child h (mem_zipIdx_iff_getElem?.1 hc)
      (hps c.1 (fst_mem_of_mem_zipIdx hc))
  calc ((m.through ps).filter (n.accepts f)).map n.at?
      = m.children.zipIdx.flatMap fun c => if f m then (c.1.walk f).map some else [] := by
        rw [through, filter_flatMap, map_flatMap]
        exact flatMap_congr hchild
    _ = m.children.flatMap fun c => if f m then (c.walk f).map some else [] := by
        conv_rhs => rw [← zipIdx_map_fst 0 m.children, flatMap_map]
    _ = if f m then (m.children.flatMap (walk f)).map some else [] := by
        split
        · exact map_flatMap.symm
        · exact flatMap_eq_nil_iff.2 fun _ _ => rfl

theorem visits_absent (h : n.present? = none) : n.Visits [] where
  ordered := .nil
  mem_iff p := by cases p <;> simp [at?, h]
  walk_eq f := by rw [walk_of_absent f h]; rfl

theorem visits_present (h : n.present? = some m) (hps : ∀ c ∈ m.children, c.Visits (ps c)) :
    n.Visits ([] :: m.through ps) where
  ordered := by
    refine pairwise_cons.2 ⟨fun p hp => ?_, pairwise_through fun c hc => (hps c hc).ordered⟩
    obtain ⟨i, q, -, rfl, -⟩ := mem_through.1 hp
    exact nil_lt_cons i q
  mem_iff p := by
    cases p with
    | nil => simp [at?, h]
    | cons i p =>
      simp only [mem_cons, reduceCtorEq, false_or, mem_through, at?, h, Option.bind_some]
      constructor
      · rintro ⟨_, _, c, ⟨⟩, hc, hp⟩
        rw [hc, Option.bind_some, ← (hps c (mem_of_getElem? hc)).mem_iff]
        exact hp
      · intro hp
        obtain ⟨c, hc⟩ : ∃ c, m.children[i]? = some c := by
          cases hc : m.children[i]? with
          | none => simp [hc] at hp
          | some c => exact ⟨c, rfl⟩
        rw [hc, Option.bind_some, ← (hps c (mem_of_getElem? hc)).mem_iff] at hp
        exact ⟨i, p, c, rfl, hc, hp⟩
  walk_eq f := by
    have hthrough := map_at?_through h fun c hc => (hps c hc).walk_eq f
    rw [walk_of_present f h, visited, map_cons, filter_cons_of_pos rfl, map_cons,
      hthrough, at?, h]
    split <;> rfl

end

theorem exists_visits (n : Node) : ∃ ps, n.Visits ps := by
  induction n using induction_children with
  | absent n h => exact ⟨[], visits_absent h⟩
  | present n m h ih =>
    have hchildren : ∀ c, ∃ ps, c ∈ m.children → c.Visits ps := by
      intro c
      by_cases hc : c ∈ m.children
      · exact (ih c hc).imp fun _ hps _ => hps
      · exact ⟨[], fun hc' => absurd hc' hc⟩
    choose ps hps using hchildren
    exact ⟨_, visits_present h hps⟩

theorem not_isPrefix_of_lt {p q : List Nat} (h : p < q) : ¬ q <+: p := by
  rintro ⟨r, rfl⟩
  induction q with
  | nil => exact not_lt_nil _ h
  | cons i q ih =>
    obtain h | ⟨-, h⟩ := cons_lt_cons_iff.1 h
    · exact Nat.lt_irrefl i h
    · exact ih h

end Node

theorem Expr.idents_mapIdents (g : Ident → Ident) (e : Expr) :
    (e.mapIdents g).idents = e.idents.map g :=
  (Node.expr e).idents_mapIdents g

theorem Stmt.idents_mapIdents (g : Ident → Ident) (s : Stmt) :
    (s.mapIdents g).idents = s.idents.map g :=
  (Node.stmt s).idents_mapIdents g

/-- The identifiers of an expression in a tree are identifiers of the tree. -/
theorem Expr.idents_subset {d e : Expr} (h : .expr d ∈ (Node.expr e).nodes) :
    d.idents ⊆ e.idents := by
  intro id hid
  obtain ⟨n, hn, hid⟩ := mem_filterMap.1 hid
  exact mem_filterMap.2 ⟨n, Node.nodes_subset h hn, hid⟩

end ExtensionLowering
