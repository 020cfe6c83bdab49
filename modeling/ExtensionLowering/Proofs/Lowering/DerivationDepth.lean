import ExtensionLowering.Proofs.Lowering.BackReference
import Mathlib.Data.List.Chain
/-!
# How deep derivations are followed

The derivations of a compilation form a graph with sharing and cycles. Deriving follows a derivation
into its parts, and a back reference is not followed. If every cycle passes through a back reference,
no path into the parts is longer than the graph, so the recursion ends, and it need not be cut off.

## Main definitions

* `Compilation.CyclesPassPrior`: the graphs whose cycles are broken by back references.
* `Lower.Settles`: the recursion ends at a derivation, and what it does.

## Main results

* `Lower.derive_settles`: deriving settles every derivation of such a graph, and every bound above
  the longest path into the parts gives the same.
-/
namespace ExtensionLowering

open List

namespace Compilation

variable {c : Compilation} {a b : DerivId} {path : List DerivId}

/-- A derivation has another one among its parts. -/
def HasPart (c : Compilation) (a b : DerivId) : Prop :=
  ∃ d, c.derivation? a = some d ∧ some b ∈ d.parts

def IsPrior (c : Compilation) (a : DerivId) : Prop :=
  ∃ target, c.derivation? a = some (.prior target)

/-- A derivation refers to another one, as a part or back. -/
def Refers (c : Compilation) (a b : DerivId) : Prop :=
  c.HasPart a b ∨ c.derivation? a = some (.prior (some b))

/-- Whoever follows references and comes back has met a back reference. -/
def CyclesPassPrior (c : Compilation) : Prop :=
  ∀ a path, IsChain c.Refers (a :: path) → path.getLast? = some a → ∃ b ∈ path, c.IsPrior b

theorem HasPart.not_isPrior (h : c.HasPart a b) : ¬ c.IsPrior a := by
  rintro ⟨target, htarget⟩
  obtain ⟨d, hd, hb⟩ := h
  cases hd.symm.trans htarget
  cases hb

theorem HasPart.lt_size (h : c.HasPart a b) : a < c.derivations.size := by
  obtain ⟨d, hd, -⟩ := h
  exact (Array.getElem?_eq_some_iff.1 hd).1

/-- If all references but those back go to later derivations, every cycle has a back reference. -/
theorem cyclesPassPrior_of_lt (h : ∀ a b, c.HasPart a b → a < b) : c.CyclesPassPrior := by
  intro a path hpath hlast
  by_contra hprior
  have hmem : a ∈ path := mem_of_getLast? hlast
  have hforward : IsChain (· < ·) (a :: path) := by
    refine hpath.imp_of_mem_imp fun b d hb _ href => ?_
    have hb : b ∈ path := (mem_cons.1 hb).elim (· ▸ hmem) id
    exact h b d (href.resolve_right fun heq => hprior ⟨b, hb, _, heq⟩)
  exact Nat.lt_irrefl a (hforward.rel_cons hmem)

/-- Everything on a path but its end has a part. -/
theorem exists_hasPart (h : IsChain c.HasPart (a :: path)) (hb : b ∈ (a :: path).dropLast) :
    ∃ d, c.HasPart b d := by
  obtain rfl | hparts := isChain_cons_iff_forall₂.1 h
  · cases hb
  · have hne : path ≠ [] := by
      rintro rfl
      cases hb
    rw [dropLast_cons_of_ne_nil hne] at hb
    obtain ⟨i, hi, rfl⟩ := getElem_of_mem hb
    exact ⟨_, hparts.get hi (hparts.length_eq ▸ hi)⟩

/-- A path into the parts does not come back: it would be a cycle without a back reference. -/
theorem not_mem_of_isChain (hc : c.CyclesPassPrior) (h : IsChain c.HasPart (a :: path)) :
    a ∉ path := by
  intro hmem
  obtain ⟨front, back, rfl⟩ := append_of_mem hmem
  have hcycle : IsChain c.HasPart (a :: (front ++ [a])) :=
    h.prefix ⟨back, by simp⟩
  have hparts (b : DerivId) (hb : b ∈ a :: front) : ∃ d, c.HasPart b d :=
    exists_hasPart hcycle (by rwa [← cons_append, dropLast_concat])
  obtain ⟨b, hb, hprior⟩ := hc a (front ++ [a]) (hcycle.imp fun _ _ => .inl) (by simp)
  obtain ⟨d, hd⟩ := hparts b (by simpa [or_comm] using hb)
  exact hd.not_isPrior hprior

theorem nodup_of_isChain (hc : c.CyclesPassPrior) (h : IsChain c.HasPart path) : path.Nodup := by
  induction path with
  | nil => exact nodup_nil
  | cons a path ih => exact nodup_cons.2 ⟨not_mem_of_isChain hc h, ih h.tail⟩

/-- No path into the parts is longer than the graph. -/
theorem length_le_size (hc : c.CyclesPassPrior) (h : IsChain c.HasPart (a :: path)) :
    path.length ≤ c.derivations.size := by
  have hnodup : (a :: path).dropLast.Nodup :=
    (nodup_of_isChain hc h).sublist (dropLast_sublist _)
  have hsub : (a :: path).dropLast ⊆ range c.derivations.size := fun b hb =>
    have ⟨_, hd⟩ := exists_hasPart h hb
    mem_range.2 hd.lt_size
  simpa using (subperm_of_subset hnodup hsub).length_le

end Compilation

namespace Lower

variable {env : Env} {token : Token} {id : DerivId} {n m : Nat}

theorem mapM_congr {α β : Type} {xs : List α} {f g : α → Lower β} (h : ∀ x ∈ xs, f x = g x) :
    xs.mapM f = xs.mapM g := by
  induction xs with
  | nil => rfl
  | cons x xs ih =>
    obtain ⟨hx, hxs⟩ := forall_mem_cons.1 h
    rw [mapM_cons, mapM_cons, hx, ih hxs]

/-- Only the parts of a derivation are derived for it. -/
theorem deriveNode_congr {part part' : Option DerivId → Lower Expr} {d : Derivation}
    (h : ∀ p ∈ d.parts, part p = part' p) :
    deriveNode env token part id d = deriveNode env token part' id d := by
  have hparts := mapM_congr h
  cases d with
  | intersection fields =>
    simp only [deriveNode, mapM_map]
    rw [show fields.mapM part = fields.mapM part' from hparts]
  | object fields =>
    simp only [deriveNode, mapM_zipWith]
    rw [show (fields.map (·.2)).mapM part = (fields.map (·.2)).mapM part' from hparts]
  | tuple fields =>
    simp only [deriveNode]
    rw [show fields.mapM part = fields.mapM part' from hparts]
  | rule rule args users lazyRule =>
    simp only [deriveNode]
    rw [show args.mapM part = args.mapM part' from hparts]
  | _ => rfl

/-- The recursion into the parts of a derivation ends, and then deriving it is `x`. -/
inductive Settles (env : Env) (token : Token) : Option DerivId → Lower Expr → Prop where
  | missing {d} (h : d.bind env.compilation.derivation? = none) :
      Settles env token d (pure notImplemented)
  | node {id d} (part : Option DerivId → Lower Expr) (h : env.compilation.derivation? id = some d)
      (hparts : ∀ p ∈ d.parts, Settles env token p (part p)) :
      Settles env token (some id) (deriveNode env token part id d)

/-- The recursion can end in one way only. -/
theorem Settles.unique {d : Option DerivId} {x y : Lower Expr} (hx : Settles env token d x)
    (hy : Settles env token d y) : x = y := by
  induction hx generalizing y with
  | missing h =>
    cases hy with
    | missing => rfl
    | node part hd => cases hd.symm.trans h
  | node part h hparts ih =>
    cases hy with
    | missing h' => cases h.symm.trans h'
    | node part' h' hparts' =>
      cases h.symm.trans h'
      exact deriveNode_congr fun p hp => ih p hp (hparts' p hp)

theorem deriveWithin_none (n : Nat) : deriveWithin env token n none = pure notImplemented := by
  cases n <;> rfl

/-- A bound above all paths into the parts is never met. -/
theorem deriveWithin_settles
    (h : ∀ path, IsChain env.compilation.HasPart (id :: path) → path.length < n) :
    Settles env token (some id) (deriveWithin env token n (some id)) := by
  induction n generalizing id with
  | zero => exact absurd (h [] (isChain_singleton id)) (Nat.lt_irrefl 0)
  | succ n ih =>
    cases hd : env.compilation.derivation? id with
    | none =>
      rw [deriveWithin, hd]
      exact .missing hd
    | some d =>
      rw [deriveWithin, hd]
      refine .node _ hd fun p hp => ?_
      cases p with
      | none =>
        rw [deriveWithin_none]
        exact .missing rfl
      | some b =>
        refine ih fun path hpath => ?_
        have hlonger := h (b :: path) (.cons_cons ⟨d, hd, hp⟩ hpath)
        exact Nat.lt_of_succ_lt_succ hlonger

/-- Where back references break all cycles, deriving a derivation comes to an end in every state: it
is what the recursion into the parts gives. Paths into the parts are no longer than the graph, and
deriving within any bound above them is deriving. -/
theorem derive_settles (env : Env) (token : Token) (hcycles : env.compilation.CyclesPassPrior)
    (id : DerivId) :
    Settles env token (some id) (derive env (some id) token) ∧
    (∀ x, Settles env token (some id) x → x = derive env (some id) token) ∧
    (∀ path, IsChain env.compilation.HasPart (id :: path) →
      path.length ≤ env.compilation.derivations.size) ∧
    ∀ n, (∀ path, IsChain env.compilation.HasPart (id :: path) → path.length < n) →
      deriveWithin env token n (some id) = derive env (some id) token := by
  have hpaths (path : List DerivId) (h : IsChain env.compilation.HasPart (id :: path)) :=
    Compilation.length_le_size hcycles h
  have hderive : Settles env token (some id) (derive env (some id) token) :=
    deriveWithin_settles fun path h => Nat.lt_succ_of_le (hpaths path h)
  exact ⟨hderive, fun x hx => hx.unique hderive, hpaths,
    fun n hn => (deriveWithin_settles hn).unique hderive⟩

theorem forestRules_hasPart {a b : DerivId} :
    forestRules.HasPart a b ↔ a = 0 ∧ b = 1 ∨ a = 1 ∧ (b = 2 ∨ b = 3) := by
  unfold Compilation.HasPart Compilation.derivation?
  match a with
  | 0 | 1 | 2 | 3 => simp [forestRules, Derivation.parts]
  | a + 4 => simp [forestRules]

/-- The rules `forest` and `tree` refer to themselves, and paths have at most two steps. -/
theorem derive_settles_forest :
    IsChain forestRules.Refers [0, 1, 2, 0] ∧ forestRules.CyclesPassPrior ∧
    Settles { compilation := forestRules } {} (some 0)
      (derive { compilation := forestRules } (some 0) {}) ∧
    deriveWithin { compilation := forestRules } {} 3 (some 0) =
      derive { compilation := forestRules } (some 0) {} := by
  have hcycles : forestRules.CyclesPassPrior :=
    Compilation.cyclesPassPrior_of_lt fun a b h => by grind [forestRules_hasPart]
  have hpaths (path : List DerivId) (h : IsChain forestRules.HasPart (0 :: path)) :
      path.length < 3 := by
    match path with
    | [] | [_] | [_, _] => simp
    | _ :: _ :: _ :: _ =>
      simp only [isChain_cons_cons, forestRules_hasPart] at h
      grind
  obtain ⟨hsettles, -, -, hwithin⟩ :=
    derive_settles { compilation := forestRules } {} hcycles 0
  have hback : forestRules.derivation? 2 = some (.prior (some 0)) := rfl
  have hrefers : IsChain forestRules.Refers [0, 1, 2, 0] := by
    simp [Compilation.Refers, forestRules_hasPart, hback]
  exact ⟨hrefers, hcycles, hsettles, hwithin 3 hpaths⟩

end Lower

end ExtensionLowering
