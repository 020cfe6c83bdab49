import ExtensionLowering.Proofs.Import.Balance
import Mathlib.Data.ENat.Basic
import Mathlib.Data.List.Induction
import Mathlib.Data.List.Infix
/-!
# The ledger as a counter of references

Seen from outside, a ledger keeps a balance for every path: `get` adds one, `remove` takes one back
but never below zero, and `add` makes it infinite for good. What a run of such operations leaves in
a ledger is said here from the operations alone: which paths are written and in which order, and
which alias a path has.

## Main definitions

* `LedgerStep`, `Ledger.run`: operations on a ledger, and a run of them from an empty one.
* `balanceOf`, `lastZero`, `firstAdded`: the balance of a path, the moment at which it was last
  zero and the import of the file itself that counts for the path.
* `Ledger.aliasAfter`: the alias that `get` gives for a path after a run.
-/
namespace ExtensionLowering

open List

/-- An operation on a ledger. -/
inductive LedgerStep where
  | get (path : String)
  | add (ident : Ident) (path : String)
  | remove (path : String)
  deriving Repr, DecidableEq

namespace LedgerStep

def path : LedgerStep → String
  | .get p => p
  | .add _ p => p
  | .remove p => p

def apply : LedgerStep → Ledger × NameSupply → Ledger × NameSupply
  | .get p, (l, supply) => (l.get supply p).2
  | .add ident p, (l, supply) => (l.add ident p, supply)
  | .remove p, (l, supply) => (l.remove p, supply)

/-- What an operation makes of the balance of its path. -/
def settle : LedgerStep → ℕ∞ → ℕ∞
  | .get _, b => b + 1
  | .add .., _ => ⊤
  | .remove _, b => b - 1

def added? : LedgerStep → Option Ident
  | .add ident _ => some ident
  | _ => none

end LedgerStep

section Reference

variable {p : String} {ops : List LedgerStep}

/-- The balance of a path after some operations. -/
def balanceOf (p : String) (ops : List LedgerStep) : ℕ∞ :=
  (ops.filter (·.path = p)).foldl (fun b op => op.settle b) 0

/-- How many operations it had taken when the balance of a path was zero for the last time. -/
def lastZero (p : String) (ops : List LedgerStep) : Nat :=
  Nat.findGreatest (fun i => balanceOf p (ops.take i) = 0) ops.length

/-- The first import of a path that the file has itself. -/
def firstAdded (p : String) (ops : List LedgerStep) : Option Ident :=
  (ops.filter (·.path = p)).findSome? (·.added?)

@[simp] theorem balanceOf_nil (p : String) : balanceOf p [] = 0 := rfl

theorem balanceOf_snoc (p : String) (ops : List LedgerStep) (op : LedgerStep) :
    balanceOf p (ops ++ [op]) =
      if op.path = p then op.settle (balanceOf p ops) else balanceOf p ops := by
  by_cases h : op.path = p <;> simp [balanceOf, h]

theorem firstAdded_snoc (p : String) (ops : List LedgerStep) (op : LedgerStep) :
    firstAdded p (ops ++ [op]) =
      (firstAdded p ops).or (if op.path = p then op.added? else none) := by
  by_cases h : op.path = p <;> simp [firstAdded, h, findSome?_append]

/-- A balance is infinite from the first import of the file itself on. -/
theorem balanceOf_eq_top : balanceOf p ops = ⊤ ↔ (firstAdded p ops).isSome := by
  induction ops using reverseRecOn with
  | nil => simp [firstAdded]
  | append_singleton ops op ih =>
    rw [balanceOf_snoc, firstAdded_snoc]
    by_cases h : op.path = p
    · cases op <;> simp [h, LedgerStep.settle, LedgerStep.added?, ih]
    · simp [h, ih]

theorem balanceOf_top_append (h : balanceOf p ops = ⊤) (more : List LedgerStep) :
    balanceOf p (ops ++ more) = ⊤ := by
  rw [balanceOf_eq_top] at h ⊢
  simp only [firstAdded, filter_append, findSome?_append] at h ⊢
  simp [h]

theorem lastZero_snoc (op : LedgerStep) (h : balanceOf p (ops ++ [op]) ≠ 0) :
    lastZero p (ops ++ [op]) = lastZero p ops := by
  obtain ⟨hle, hzero, hlive⟩ := Nat.findGreatest_eq_iff.1 (rfl : _ = lastZero p ops)
  have htake : ∀ i ≤ ops.length, (ops ++ [op]).take i = ops.take i := fun i hi =>
    take_append_of_le_length hi
  refine Nat.findGreatest_eq_iff.2 ⟨by simp; omega, fun hne => ?_, fun i hi hlen => ?_⟩
  · rw [htake _ hle]
    exact hzero hne
  · rw [length_append, length_singleton] at hlen
    by_cases hi' : i ≤ ops.length
    · rw [htake i hi']
      exact hlive hi hi'
    · rwa [take_of_length_le (by simp; omega)]

theorem lastZero_of_zero (h : balanceOf p ops = 0) : lastZero p ops = ops.length :=
  Nat.findGreatest_eq (by simpa using h)

theorem lastZero_lt (h : balanceOf p ops ≠ 0) : lastZero p ops < ops.length := by
  have hzero : balanceOf p (ops.take (lastZero p ops)) = 0 :=
    Nat.findGreatest_spec (P := fun i => balanceOf p (ops.take i) = 0) (Nat.zero_le _) rfl
  refine lt_of_le_of_ne (Nat.findGreatest_le _) fun heq => h ?_
  rwa [heq, take_length] at hzero

end Reference

/-! ## One operation -/

/-- A balance as a number that may be infinite. -/
def Balance.worth : Balance → ℕ∞
  | .counted n => n
  | .permanent => ⊤

/-- The balance that an entry or its absence stands for. -/
def ImportEntry.worth (e : Option ImportEntry) : ℕ∞ :=
  e.elim 0 (·.balance.worth)

namespace Ledger

variable {l : Ledger} {supply : NameSupply} {p q : String} {f : ImportEntry → ImportEntry}

attribute [local simp] LedgerStep.settle Balance.worth ImportEntry.worth

/-- The paths of the live imports. -/
def keys (l : Ledger) : List String :=
  l.entries.map (·.path)

theorem mem_keys : p ∈ l.keys ↔ (l.at? p).isSome := by
  simp [keys, at?, find?_isSome]

theorem at?_push {e : ImportEntry} (h : l.at? e.path = none) :
    at? { l with entries := l.entries ++ [e] } = Function.update l.at? e.path (some e) := by
  funext q
  by_cases hq : q = e.path
  · subst hq
    rw [Function.update_self, at?, find?_append]
    rw [at?] at h
    simp [h]
  · simp [at?, find?_append, Ne.symm hq, hq]

theorem at?_replace (hf : ∀ e, e.path = p → (f e).path = p) :
    at? { l with entries := l.entries.map fun e => if e.path == p then f e else e } =
      Function.update l.at? p ((l.at? p).map f) := by
  funext q
  rw [Function.update_apply]
  simp only [at?]
  induction l.entries with
  | nil => simp
  | cons e es ih => grind

theorem keys_replace (hf : ∀ e, e.path = p → (f e).path = p) :
    keys { l with entries := l.entries.map fun e => if e.path == p then f e else e } = l.keys := by
  simp only [keys, map_map]
  refine map_congr_left fun e _ => ?_
  by_cases he : e.path = p <;> simp [he, hf]

theorem at?_drop (e : ImportEntry) : at? (l.drop e) = Function.update l.at? e.path none := by
  funext q
  rw [Function.update_apply]
  simp only [at?, drop, find?_filter]
  by_cases hq : q = e.path
  · subst hq
    simp
  · grind

theorem keys_drop (e : ImportEntry) : (l.drop e).keys.Sublist l.keys :=
  filter_sublist.map _

/-- The ways in which an operation changes the entry of its path and the supply. -/
inductive Turn (s : NameSupply) :
    LedgerStep → Option ImportEntry → Option ImportEntry → NameSupply → Prop
  | opened {p : String} {id : Ident} {s' : NameSupply} (issues : s.Issues id s') :
      Turn s (.get p) none (some ⟨p, id, .counted 1⟩) s'
  | kept {op : LedgerStep} {e : ImportEntry} {b : Balance}
      (permanent : b = .permanent ↔ e.balance = .permanent)
      (settled : b.worth = op.settle e.balance.worth) (live : b.worth ≠ 0) :
      Turn s op (some e) (some { e with balance := b }) s
  | registered {p : String} {id : Ident} {o : Option ImportEntry}
      (counted : ∀ e, o = some e → e.balance ≠ .permanent) :
      Turn s (.add id p) o (some ⟨p, id, .permanent⟩) s
  | closed {op : LedgerStep} {e : ImportEntry} (settled : op.settle e.balance.worth = 0) :
      Turn s op (some e) none s
  | idle {op : LedgerStep} (settled : op.settle 0 = 0) : Turn s op none none s

/-- What an operation does to a ledger and a supply. A path that becomes live comes last. -/
structure Step (l : Ledger) (s : NameSupply) (op : LedgerStep) (l' : Ledger) (s' : NameSupply) :
    Prop where
  turn : Turn s op (l.at? op.path) (l'.at? op.path) s'
  frame : ∀ q ≠ op.path, l'.at? q = l.at? q
  keys : l'.keys.Sublist l.keys ∨ l.at? op.path = none ∧ l'.keys = l.keys ++ [op.path]

section Step

variable {e : ImportEntry}
variable {s s' : NameSupply} {l' : Ledger} {op : LedgerStep} {o : Option ImportEntry}

theorem Step.of_update (hentries : l'.at? = Function.update l.at? op.path o)
    (hturn : Turn s op (l.at? op.path) o s')
    (hkeys : l'.keys.Sublist l.keys ∨ l.at? op.path = none ∧ l'.keys = l.keys ++ [op.path]) :
    Step l s op l' s' := by
  have hown : l'.at? op.path = o := by rw [hentries, Function.update_self]
  refine ⟨hown ▸ hturn, fun q hq => ?_, hkeys⟩
  rw [hentries, Function.update_of_ne hq]

theorem step_push (he : l.at? e.path = none) (hpath : op.path = e.path)
    (hturn : Turn s op none (some e) s') :
    Step l s op { l with entries := l.entries ++ [e] } s' := by
  refine .of_update (o := some e) ?_ ?_ (.inr ⟨?_, ?_⟩)
  · rw [hpath, at?_push he]
  · rwa [hpath, he]
  · rw [hpath, he]
  · simp [Ledger.keys, hpath]

theorem step_replace (op : LedgerStep) {f : ImportEntry → ImportEntry}
    (hf : ∀ e, e.path = op.path → (f e).path = op.path) (he : l.at? op.path = some e)
    (hturn : Turn s op (some e) (some (f e)) s) :
    Step l s op
      { l with entries := l.entries.map fun e => if e.path == op.path then f e else e } s := by
  refine .of_update (o := some (f e)) ?_ (he ▸ hturn) (.inl ?_)
  · rw [at?_replace hf, he, Option.map_some]
  · rw [keys_replace hf]

theorem step_same (op : LedgerStep)
    (hturn : Turn s op (l.at? op.path) (l.at? op.path) s) : Step l s op l s :=
  ⟨hturn, fun _ _ => rfl, .inl (.refl _)⟩

theorem step_permanent (op : LedgerStep) (he : l.at? op.path = some e)
    (hperm : e.balance = .permanent) : Step l s op l s := by
  refine step_same op (he ▸ .kept (b := e.balance) .rfl ?_ (by simp [hperm]))
  cases op <;> simp [hperm]

theorem step_drop (op : LedgerStep) (he : l.at? op.path = some e)
    (hsettled : op.settle e.balance.worth = 0) : Step l s op (l.drop e) s := by
  refine .of_update (o := none) ?_ (he ▸ .closed hsettled) (.inl (keys_drop e))
  rw [at?_drop, at?_path he]

end Step

theorem get_step (l : Ledger) (s : NameSupply) (p : String) :
    Step l s (.get p) (l.get s p).2.1 (l.get s p).2.2 := by
  obtain ⟨e, n, he, hn, hget⟩ | ⟨e, he, hperm, hget⟩ | ⟨he, id, s', hid, hget⟩ := l.get_cases s p
  · rw [hget]
    refine step_replace (.get p) (fun _ h => h) he (.kept (by simp [hn]) ?_ ?_)
    · simp [hn]
    · simp
  · rw [hget]
    exact step_permanent (.get p) he hperm
  · rw [hget]
    exact step_push he rfl (.opened hid)

theorem add_step (l : Ledger) (s : NameSupply) (id : Ident) (p : String) :
    Step l s (.add id p) (l.add id p) s := by
  cases he : l.at? p with
  | none =>
    simp only [add, he]
    exact step_push he rfl (.registered (by simp))
  | some e =>
    by_cases hperm : e.balance = .permanent
    · have hadd : l.add id p = l := by simp [add, he, ImportEntry.isCounted, hperm]
      rw [hadd]
      exact step_permanent (.add id p) he hperm
    · simp only [add, he, ImportEntry.isCounted, bne_iff_ne, ne_eq, hperm, not_false_iff, if_true]
      refine step_replace (.add id p) (f := fun _ => ⟨p, id, .permanent⟩) (fun _ _ => rfl) he
        (.registered ?_)
      rintro _ ⟨⟩
      exact hperm

theorem remove_step (l : Ledger) (s : NameSupply) (p : String) :
    Step l s (.remove p) (l.remove p) s := by
  cases he : l.at? p with
  | none =>
    simp only [remove, he]
    exact step_same (.remove p) (he ▸ .idle rfl)
  | some e =>
    cases hb : e.balance with
    | permanent =>
      simp only [remove, he, hb]
      exact step_permanent (.remove p) he hb
    | counted n =>
      simp only [remove, he, hb]
      by_cases hn : n ≤ 1
      · rw [if_pos hn]
        refine step_drop (.remove p) he ?_
        rw [hb, LedgerStep.settle, Balance.worth]
        exact tsub_eq_zero_of_le (by exact_mod_cast hn)
      · rw [if_neg hn]
        refine step_replace (.remove p) (fun _ h => h) he (.kept (by simp [hb]) ?_ ?_)
        · simp [hb]
        · simp only [Balance.worth, ne_eq, Nat.cast_eq_zero]
          omega

theorem apply_step (op : LedgerStep) (l : Ledger) (s : NameSupply) :
    Step l s op (op.apply (l, s)).1 (op.apply (l, s)).2 := by
  cases op with
  | get p => exact l.get_step s p
  | add id p => exact l.add_step s id p
  | remove p => exact l.remove_step s p

section Turn

variable {e : ImportEntry}
variable {s s' : NameSupply} {op : LedgerStep} {o o' : Option ImportEntry}

section

variable (h : Turn s op o o' s')
include h

/-- An operation settles the balance of its path. -/
theorem Turn.worth : ImportEntry.worth o' = op.settle (ImportEntry.worth o) := by
  cases h <;> simp_all

theorem Turn.live (he : o' = some e) : e.balance.worth ≠ 0 := by
  subst he
  cases h with
  | kept permanent settled live => exact live
  | opened | registered => simp

theorem Turn.taken : s.taken ⊆ s'.taken := by
  cases h with
  | opened issues =>
    rw [issues.taken]
    exact subset_cons_self _ _
  | _ => exact List.Subset.refl _

/-- A counted entry is the one from before with its alias, or its alias has just been made. -/
theorem Turn.counted (he : o' = some e) (hcounted : e.balance ≠ .permanent) :
    (∃ d, o = some d ∧ d.ident = e.ident ∧ d.balance ≠ .permanent) ∨
      o = none ∧ s.Issues e.ident s' := by
  subst he
  cases h with
  | opened issues => exact .inr ⟨rfl, issues⟩
  | kept permanent settled live =>
    exact .inl ⟨_, rfl, rfl, fun hd => hcounted (permanent.2 hd)⟩
  | registered counted => exact absurd rfl hcounted

/-- An infinite entry is the one from before, or it has just been registered. -/
theorem Turn.permanent (he : o' = some e) (hperm : e.balance = .permanent) :
    (∃ d, o = some d ∧ d.balance = .permanent ∧ d.ident = e.ident) ∨
      op.added? = some e.ident ∧ ImportEntry.worth o ≠ ⊤ := by
  subst he
  cases h with
  | opened issues => cases hperm
  | kept permanent settled live => exact .inl ⟨_, rfl, permanent.1 hperm, rfl⟩
  | @registered p id o counted =>
    refine .inr ⟨rfl, ?_⟩
    cases o with
    | none => simp
    | some d =>
      cases hb : d.balance with
      | counted n => simp [hb]
      | permanent => exact absurd hb (counted d rfl)

end

end Turn

/-! ## A run of operations -/

/-- The ledger and the supply after some operations. -/
def run (supply : NameSupply) (ops : List LedgerStep) : Ledger × NameSupply :=
  ops.foldl (fun state op => op.apply state) ({}, supply)

/-- The alias that `get` gives for a path after some operations. -/
def aliasAfter (supply : NameSupply) (ops : List LedgerStep) (p : String) : Ident :=
  ((run supply ops).1.get (run supply ops).2 p).1

theorem run_step (supply : NameSupply) (ops : List LedgerStep) (op : LedgerStep) :
    Step (run supply ops).1 (run supply ops).2 op (run supply (ops ++ [op])).1
      (run supply (ops ++ [op])).2 := by
  have hrun : run supply (ops ++ [op]) = op.apply (run supply ops) := by simp [run]
  rw [hrun]
  exact apply_step op _ _

/-- What the ledger and the supply are after the operations `ops`, seen from the operations. -/
structure Follows (supply : NameSupply) (ops : List LedgerStep) (l : Ledger) (s : NameSupply) :
    Prop where
  worth : ∀ p, ImportEntry.worth (l.at? p) = balanceOf p ops
  live : ∀ p e, l.at? p = some e → e.balance.worth ≠ 0
  order : l.keys.Pairwise fun p q => lastZero p ops < lastZero q ops
  registered : ∀ p e, l.at? p = some e → e.balance = .permanent →
    firstAdded p ops = some e.ident
  taken : supply.taken ⊆ s.taken
  given : ∀ p e, l.at? p = some e → e.balance ≠ .permanent →
    e.ident.name ∈ s.taken ∧ e.ident.name ∉ supply.taken
  apart : ∀ p q e f, p ≠ q → l.at? p = some e → l.at? q = some f →
    e.balance ≠ .permanent → f.balance ≠ .permanent → e.ident.name ≠ f.ident.name

section Follows

variable {s s' : NameSupply} {l' : Ledger} {op : LedgerStep} {ops : List LedgerStep}
  {e f : ImportEntry}

theorem mem_keys_iff_balance (hworth : ImportEntry.worth (l.at? p) = balanceOf p ops)
    (hlive : ∀ e, l.at? p = some e → e.balance.worth ≠ 0) : p ∈ l.keys ↔ balanceOf p ops ≠ 0 := by
  rw [mem_keys, ← hworth]
  cases he : l.at? p with
  | none => simp
  | some e => simpa using hlive e he

namespace Follows

theorem start (supply : NameSupply) : Follows supply [] {} supply := by
  refine ⟨fun p => rfl, ?_, .nil, ?_, List.Subset.refl _, ?_, ?_⟩ <;> simp [at?]

theorem mem_keys (h : Follows supply ops l s) : p ∈ l.keys ↔ balanceOf p ops ≠ 0 :=
  mem_keys_iff_balance (h.worth p) (h.live p)

theorem worth_step (h : Follows supply ops l s) (hs : Step l s op l' s') (p : String) :
    ImportEntry.worth (l'.at? p) = balanceOf p (ops ++ [op]) := by
  rw [balanceOf_snoc]
  by_cases hp : op.path = p
  · subst hp
    rw [if_pos rfl, hs.turn.worth, h.worth]
  · rw [if_neg hp, hs.frame p (Ne.symm hp), h.worth]

theorem live_step (h : Follows supply ops l s) (hs : Step l s op l' s')
    (he : l'.at? p = some e) : e.balance.worth ≠ 0 := by
  by_cases hp : p = op.path
  · subst hp
    exact hs.turn.live he
  · exact h.live p e (hs.frame p hp ▸ he)

theorem order_step (h : Follows supply ops l s) (hs : Step l s op l' s') :
    l'.keys.Pairwise fun p q => lastZero p (ops ++ [op]) < lastZero q (ops ++ [op]) := by
  have hbefore : l'.keys.Pairwise fun p q => lastZero p ops < lastZero q ops := by
    obtain hkeys | ⟨hnone, hkeys⟩ := hs.keys
    · exact h.order.sublist hkeys
    · -- The path that becomes live has had balance zero up to now, every other one has not.
      have hzero : balanceOf op.path ops = 0 := by
        rw [← h.worth, hnone]
        rfl
      rw [hkeys, pairwise_append]
      refine ⟨h.order, pairwise_singleton _ _, fun p hp q hq => ?_⟩
      obtain rfl := mem_singleton.1 hq
      rw [lastZero_of_zero hzero]
      exact lastZero_lt (h.mem_keys.1 hp)
  have hlive : ∀ r ∈ l'.keys, lastZero r (ops ++ [op]) = lastZero r ops := by
    intro r hr
    refine lastZero_snoc op ((mem_keys_iff_balance (h.worth_step hs r) fun e he => ?_).1 hr)
    exact h.live_step hs he
  refine hbefore.imp_of_mem fun {p q} hp hq hlt => ?_
  rwa [hlive p hp, hlive q hq]

theorem registered_step (h : Follows supply ops l s) (hs : Step l s op l' s')
    (he : l'.at? p = some e) (hperm : e.balance = .permanent) :
    firstAdded p (ops ++ [op]) = some e.ident := by
  rw [firstAdded_snoc]
  by_cases hp : p = op.path
  · subst hp
    obtain ⟨d, hd, hdperm, hident⟩ | ⟨hadded, hcounted⟩ := hs.turn.permanent he hperm
    · simp [h.registered _ d hd hdperm, hident]
    · have hnone : firstAdded op.path ops = none := by
        rw [← Option.not_isSome_iff_eq_none, ← balanceOf_eq_top, ← h.worth]
        exact hcounted
      simp [hnone, hadded]
  · simp [h.registered p e (hs.frame p hp ▸ he) hperm]

/-- A counted entry was there before with its alias, or its alias has just been made. -/
theorem counted_step (hs : Step l s op l' s') (he : l'.at? p = some e)
    (hcounted : e.balance ≠ .permanent) :
    (∃ d, l.at? p = some d ∧ d.ident = e.ident ∧ d.balance ≠ .permanent) ∨
      p = op.path ∧ l.at? p = none ∧ s.Issues e.ident s' := by
  by_cases hp : p = op.path
  · subst hp
    exact (hs.turn.counted he hcounted).imp_right fun hnew => ⟨rfl, hnew⟩
  · exact .inl ⟨e, hs.frame p hp ▸ he, rfl, hcounted⟩

theorem given_step (h : Follows supply ops l s) (hs : Step l s op l' s')
    (he : l'.at? p = some e) (hcounted : e.balance ≠ .permanent) :
    e.ident.name ∈ s'.taken ∧ e.ident.name ∉ supply.taken := by
  obtain ⟨d, hd, hident, hdcounted⟩ | ⟨-, -, hissues⟩ := counted_step hs he hcounted
  · obtain ⟨htaken, hnew⟩ := h.given p d hd hdcounted
    exact hident ▸ ⟨hs.turn.taken htaken, hnew⟩
  · refine ⟨?_, fun hmem => hissues.fresh (h.taken hmem)⟩
    simp [hissues.taken]

theorem apart_step (h : Follows supply ops l s) (hs : Step l s op l' s') (hpq : p ≠ q)
    (he : l'.at? p = some e) (hf : l'.at? q = some f) (hecounted : e.balance ≠ .permanent)
    (hfcounted : f.balance ≠ .permanent) : e.ident.name ≠ f.ident.name := by
  obtain ⟨d, hd, hdi, hdc⟩ | ⟨hp, -, hpi⟩ := counted_step hs he hecounted
  · obtain ⟨g, hg, hgi, hgc⟩ | ⟨-, -, hqi⟩ := counted_step hs hf hfcounted
    · rw [← hdi, ← hgi]
      exact h.apart p q d g hpq hd hg hdc hgc
    · rw [← hdi]
      exact ne_of_mem_of_not_mem (h.given p d hd hdc).1 hqi.fresh
  · obtain ⟨g, hg, hgi, hgc⟩ | ⟨hq, -⟩ := counted_step hs hf hfcounted
    · rw [← hgi]
      exact (ne_of_mem_of_not_mem (h.given q g hg hgc).1 hpi.fresh).symm
    · exact absurd (hp.trans hq.symm) hpq

theorem step (h : Follows supply ops l s) (hs : Step l s op l' s') :
    Follows supply (ops ++ [op]) l' s' :=
  ⟨h.worth_step hs, fun _ _ => h.live_step hs, h.order_step hs, fun _ _ => h.registered_step hs,
    List.Subset.trans h.taken hs.turn.taken, fun _ _ => h.given_step hs,
    fun _ _ _ _ => h.apart_step hs⟩

end Follows

end Follows

theorem run_follows (supply : NameSupply) (ops : List LedgerStep) :
    Follows supply ops (run supply ops).1 (run supply ops).2 := by
  induction ops using reverseRecOn with
  | nil => exact .start supply
  | append_singleton ops op ih => exact ih.step (run_step supply ops op)

section Run

variable {ops : List LedgerStep} {e : ImportEntry}

theorem get_alias (he : l.at? p = some e) (s : NameSupply) : (l.get s p).1 = e.ident := by
  cases hb : e.balance <;> simp [get, he, hb]

theorem run_refCount (supply : NameSupply) (ops : List LedgerStep) (p : String) :
    (run supply ops).1.refCount p =
      if balanceOf p ops = ⊤ then 2147483647 else (balanceOf p ops).toNat := by
  rw [← (run_follows supply ops).worth p, refCount, ImportEntry.worth]
  cases at? (run supply ops).1 p with
  | none => simp
  | some e => cases hb : e.balance <;> simp [hb, Balance.toNat, Balance.unlimited]

theorem paths_sublist (l : Ledger) : l.paths.Sublist l.keys :=
  filter_sublist.map _

theorem run_order (supply : NameSupply) (ops : List LedgerStep) :
    (run supply ops).1.paths.Pairwise fun p q => lastZero p ops < lastZero q ops :=
  (run_follows supply ops).order.sublist (paths_sublist _)

theorem run_keys_nodup (supply : NameSupply) (ops : List LedgerStep) :
    (run supply ops).1.keys.Nodup :=
  (run_follows supply ops).order.imp fun {p q} hlt heq => by
    rw [heq] at hlt
    exact lt_irrefl _ hlt

theorem mem_run_paths (supply : NameSupply) (ops : List LedgerStep) (p : String) :
    p ∈ (run supply ops).1.paths ↔ 0 < balanceOf p ops ∧ balanceOf p ops ≠ ⊤ := by
  have h := run_follows supply ops
  have hmem : p ∈ (run supply ops).1.paths ↔
      ∃ e, at? (run supply ops).1 p = some e ∧ e.balance ≠ .permanent := by
    constructor
    · intro hp
      obtain ⟨e, he, rfl⟩ := mem_map.1 hp
      obtain ⟨he, hcounted⟩ := mem_filter.1 he
      refine ⟨e, at?_of_mem (run_keys_nodup supply ops) he, ?_⟩
      simpa [ImportEntry.isCounted] using hcounted
    · rintro ⟨e, he, hcounted⟩
      refine mem_map.2 ⟨e, mem_filter.2 ⟨at?_mem he, ?_⟩, at?_path he⟩
      simpa [ImportEntry.isCounted] using hcounted
  rw [hmem, pos_iff_ne_zero, ← h.worth p, ImportEntry.worth]
  cases he : at? (run supply ops).1 p with
  | none => simp
  | some e =>
    have hlive := h.live p e he
    cases hb : e.balance <;> simp_all

theorem run_statements (supply : NameSupply) (ops : List LedgerStep) :
    (run supply ops).1.statements =
      (run supply ops).1.paths.map fun p => .namespaceImport (aliasAfter supply ops p) p := by
  rw [statements, paths, map_map]
  refine map_congr_left fun e he => ?_
  have hentry := at?_of_mem (run_keys_nodup supply ops) (mem_of_mem_filter he)
  rw [Function.comp_apply, aliasAfter, get_alias hentry]

theorem exists_entry (supply : NameSupply) (h : 0 < balanceOf p ops) :
    ∃ e, at? (run supply ops).1 p = some e ∧ e.ident = aliasAfter supply ops p ∧
      (e.balance = .permanent ↔ balanceOf p ops = ⊤) := by
  have hf := run_follows supply ops
  obtain ⟨e, he⟩ := Option.isSome_iff_exists.1 (mem_keys.1 (hf.mem_keys.2 h.ne'))
  refine ⟨e, he, (get_alias he _).symm, ?_⟩
  rw [← hf.worth p, he]
  cases hb : e.balance <;> simp [hb]

/-- From the first import of the file itself on, its identifier is the alias. -/
theorem alias_permanent (supply : NameSupply) (h : balanceOf p ops = ⊤) :
    firstAdded p ops = some (aliasAfter supply ops p) := by
  have hpos : 0 < balanceOf p ops := by simp [h]
  obtain ⟨e, he, halias, hperm⟩ := exists_entry supply hpos
  rw [← halias]
  exact (run_follows supply ops).registered p e he (hperm.2 h)

theorem at?_get (l : Ledger) (s : NameSupply) (p : String) :
    ∃ e, at? (l.get s p).2.1 p = some e ∧ e.ident = (l.get s p).1 := by
  obtain ⟨e, n, he, -, hget⟩ | ⟨e, he, -, hget⟩ | ⟨he, id, s', -, hget⟩ := l.get_cases s p
  · have hset : at? (l.setBalance p (.counted (n + 1))) = _ := at?_replace fun _ h => h
    rw [hget, hset, he, Function.update_self]
    exact ⟨_, rfl, rfl⟩
  · exact ⟨e, by rw [hget]; exact he, by rw [hget]⟩
  · have hpush := at?_push (l := l) (e := ⟨p, id, .counted 1⟩) he
    rw [hget, hpush, Function.update_self]
    exact ⟨_, rfl, rfl⟩

theorem alias_get (supply : NameSupply) (ops : List LedgerStep) (p : String) :
    aliasAfter supply (ops ++ [.get p]) p = aliasAfter supply ops p := by
  have hrun : run supply (ops ++ [.get p]) = ((run supply ops).1.get (run supply ops).2 p).2 := by
    simp [run, LedgerStep.apply]
  obtain ⟨e, he, hident⟩ := (run supply ops).1.at?_get (run supply ops).2 p
  rw [aliasAfter, hrun, get_alias he, hident]
  rfl

theorem alias_snoc {op : LedgerStep} (hpos : 0 < balanceOf p ops)
    (hpos' : 0 < balanceOf p (ops ++ [op])) (hfinite : balanceOf p (ops ++ [op]) ≠ ⊤) :
    aliasAfter supply (ops ++ [op]) p = aliasAfter supply ops p := by
  obtain ⟨e, he, halias, -⟩ := exists_entry supply hpos
  obtain ⟨e', he', halias', hperm'⟩ := exists_entry supply hpos'
  obtain ⟨d, hd, hident, -⟩ | ⟨-, hnone, -⟩ :=
    Follows.counted_step (run_step supply ops op) he' (mt hperm'.1 hfinite)
  · obtain rfl : d = e := Option.some.inj (hd.symm.trans he)
    rw [← halias, ← halias', hident]
  · rw [he] at hnone
    cases hnone

/-- The alias stays the same as long as the balance stays positive and does not become infinite. -/
theorem alias_stays (supply : NameSupply) {more : List LedgerStep}
    (hpos : ∀ m ∈ more.inits, 0 < balanceOf p (ops ++ .get p :: m))
    (hfinite : balanceOf p (ops ++ .get p :: more) ≠ ⊤) :
    aliasAfter supply (ops ++ .get p :: more) p = aliasAfter supply ops p := by
  induction more using reverseRecOn with
  | nil => exact alias_get supply ops p
  | append_singleton more op ih =>
    have hsnoc : ops ++ .get p :: (more ++ [op]) = (ops ++ .get p :: more) ++ [op] := by simp
    have hinits : ∀ m, m <+: more ++ [op] → 0 < balanceOf p (ops ++ .get p :: m) := fun m hm =>
      hpos m ((mem_inits _ _).2 hm)
    have hfinite' : balanceOf p (ops ++ .get p :: more) ≠ ⊤ := fun htop =>
      hfinite (hsnoc ▸ balanceOf_top_append htop [op])
    have hstays := ih (fun m hm =>
      hinits m (((mem_inits _ _).1 hm).trans (prefix_append _ _))) hfinite'
    rw [← hstays, hsnoc]
    refine alias_snoc (hinits more (prefix_append _ _)) ?_ (hsnoc ▸ hfinite)
    exact hsnoc ▸ hinits (more ++ [op]) prefix_rfl

theorem run_taken_append (supply : NameSupply) (ops more : List LedgerStep) :
    (run supply ops).2.taken ⊆ (run supply (ops ++ more)).2.taken := by
  induction more using reverseRecOn with
  | nil => simp
  | append_singleton more op ih =>
    rw [← append_assoc]
    exact List.Subset.trans ih (run_step supply (ops ++ more) op).turn.taken

/-- An alias that the ledger makes itself is taken from then on. -/
theorem alias_taken (supply : NameSupply) (h : balanceOf p ops ≠ ⊤) (rest : List LedgerStep) :
    (aliasAfter supply ops p).name ∈ (run supply (ops ++ .get p :: rest)).2.taken := by
  have hbalance : balanceOf p (ops ++ [.get p]) = balanceOf p ops + 1 := by
    simp [balanceOf_snoc, LedgerStep.path]
  have hpos : 0 < balanceOf p (ops ++ [.get p]) := by simp [hbalance]
  obtain ⟨e, he, halias, hperm⟩ := exists_entry supply hpos
  have hcounted : e.balance ≠ .permanent := mt hperm.1 (by simpa [hbalance] using h)
  have hgiven := ((run_follows supply _).given p e he hcounted).1
  rw [halias, alias_get] at hgiven
  have happend : ops ++ .get p :: rest = (ops ++ [.get p]) ++ rest := by simp
  rw [happend]
  exact run_taken_append supply (ops ++ [.get p]) rest hgiven

/-- At balance zero the next alias is a new one. -/
theorem alias_fresh (supply : NameSupply) (h : balanceOf p ops = 0) :
    (aliasAfter supply ops p).name ∉ (run supply ops).2.taken := by
  have hnone : at? (run supply ops).1 p = none := by
    by_contra hne
    have hmem := mem_keys.2 (Option.isSome_iff_ne_none.2 hne)
    exact (run_follows supply ops).mem_keys.1 hmem h
  have hissues := (run supply ops).2.next_issues "tsplus_module"
  simpa [aliasAfter, get, hnone] using hissues.fresh

theorem alias_apart (supply : NameSupply) (hpq : p ≠ q) (hp : 0 < balanceOf p ops)
    (hq : 0 < balanceOf q ops)
    (hreserved : ∀ r a, r = p ∨ r = q → firstAdded r ops = some a → a.name ∈ supply.taken)
    (hadded : ∀ a b, firstAdded p ops = some a → firstAdded q ops = some b → a.name ≠ b.name) :
    (aliasAfter supply ops p).name ≠ (aliasAfter supply ops q).name := by
  have hf := run_follows supply ops
  obtain ⟨e, he, hea, -⟩ := exists_entry supply hp
  obtain ⟨f, hf', hfa, -⟩ := exists_entry supply hq
  rw [← hea, ← hfa]
  by_cases hep : e.balance = .permanent
  · have hefirst := hf.registered p e he hep
    by_cases hfp : f.balance = .permanent
    · exact hadded _ _ hefirst (hf.registered q f hf' hfp)
    · exact ne_of_mem_of_not_mem (hreserved p _ (.inl rfl) hefirst) (hf.given q f hf' hfp).2
  · by_cases hfp : f.balance = .permanent
    · have hffirst := hf.registered q f hf' hfp
      exact (ne_of_mem_of_not_mem (hreserved q _ (.inr rfl) hffirst) (hf.given p e he hep).2).symm
    · exact hf.apart p q e f hpq he hf' hep hfp

end Run

/-- A ledger after any run of operations counts as the operations say. A path is written as long as
its balance is positive and finite, in the order in which the balances became positive. The alias
of a path is the same as long as its balance stays positive and does not become infinite, and is
the identifier first added from then on. Names read apart as long as the names added are reserved
ones and differ. -/
theorem run_counts (supply : NameSupply) (ops : List LedgerStep) :
    (∀ p, (run supply ops).1.refCount p =
      if balanceOf p ops = ⊤ then 2147483647 else (balanceOf p ops).toNat) ∧
    (∀ p, p ∈ (run supply ops).1.paths ↔ 0 < balanceOf p ops ∧ balanceOf p ops ≠ ⊤) ∧
    (run supply ops).1.paths.Nodup ∧
    (run supply ops).1.paths.Pairwise (fun p q => lastZero p ops < lastZero q ops) ∧
    (run supply ops).1.statements =
      (run supply ops).1.paths.map (fun p => .namespaceImport (aliasAfter supply ops p) p) ∧
    (∀ p more, (∀ m ∈ more.inits, 0 < balanceOf p (ops ++ .get p :: m)) →
      balanceOf p (ops ++ .get p :: more) ≠ ⊤ →
      aliasAfter supply (ops ++ .get p :: more) p = aliasAfter supply ops p) ∧
    (∀ p, balanceOf p ops = ⊤ → firstAdded p ops = some (aliasAfter supply ops p)) ∧
    (∀ p, balanceOf p ops = 0 → (aliasAfter supply ops p).name ∉ supply.taken ∧
      ∀ before q rest, ops = before ++ .get q :: rest → balanceOf q before ≠ ⊤ →
        (aliasAfter supply ops p).name ≠ (aliasAfter supply before q).name) ∧
    (∀ p q, p ≠ q → 0 < balanceOf p ops → 0 < balanceOf q ops →
      (∀ r a, r = p ∨ r = q → firstAdded r ops = some a → a.name ∈ supply.taken) →
      (∀ a b, firstAdded p ops = some a → firstAdded q ops = some b → a.name ≠ b.name) →
      (aliasAfter supply ops p).name ≠ (aliasAfter supply ops q).name) := by
  refine ⟨run_refCount supply ops, mem_run_paths supply ops,
    (run_keys_nodup supply ops).sublist (paths_sublist _), run_order supply ops,
    run_statements supply ops, fun p more => alias_stays supply, fun p => alias_permanent supply,
    fun p hzero => ⟨fun hmem => ?_, ?_⟩, fun p q => alias_apart supply⟩
  · exact alias_fresh supply hzero ((run_follows supply ops).taken hmem)
  · rintro before q rest rfl hfinite heq
    exact alias_fresh supply hzero (heq ▸ alias_taken supply hfinite rest)

/-- The import of `a` is given up, that of `c` stands in the file itself. -/
def droppedRun : List LedgerStep :=
  [.get "a", .get "b", .add { name := "O" } "c", .remove "a"]

theorem run_counts_reopened :
    let supply : NameSupply := { taken := ["O"] }
    let given := aliasAfter supply droppedRun
    (balanceOf "a" droppedRun = 0 ∧ (given "a").name ≠ "O" ∧
      (given "a").name ≠ (aliasAfter supply [] "a").name) ∧
    (aliasAfter supply (droppedRun ++ [.get "a", .get "b", .get "a", .remove "a"]) "a" =
      given "a") ∧
    (balanceOf "c" droppedRun = ⊤ ∧ given "c" = { name := "O" }) ∧
    (balanceOf "b" droppedRun = 1 ∧ (given "b").name ≠ (given "c").name) := by
  intro supply given
  obtain ⟨-, -, -, -, -, hstays, htop, hzero, hapart⟩ := run_counts supply droppedRun
  have hb : firstAdded "b" droppedRun = none := rfl
  have hc : firstAdded "c" droppedRun = some { name := "O" } := rfl
  obtain ⟨hreserved, hnew⟩ := hzero "a" (by decide)
  refine ⟨⟨by decide, fun h => hreserved ?_, hnew [] "a" _ rfl (by decide)⟩,
    hstays "a" [.get "b", .get "a", .remove "a"] (by decide) (by decide),
    ⟨by decide, ?_⟩, by decide, hapart "b" "c" (by decide) (by decide) (by decide) ?_ ?_⟩
  · rw [h]
    exact mem_singleton_self _
  · exact Option.some.inj ((htop "c" (by decide)).symm.trans hc)
  · rintro r a (rfl | rfl) ha
    · rw [hb] at ha
      cases ha
    · obtain rfl := Option.some.inj (hc.symm.trans ha)
      exact mem_singleton_self _
  · intro a b ha
    rw [hb] at ha
    cases ha

/-- An import that the file has itself takes the place of an alias in use, and nothing keeps the
ledger from making the same name for another path. -/
theorem alias_replaced_by_added :
    let ops : List LedgerStep := [.get "p", .add { name := "tsplus_module_2" } "p"]
    (∀ m ∈ ops.inits.tail, 0 < balanceOf "p" m) ∧
    (aliasAfter {} ops "p").name ≠ (aliasAfter {} [] "p").name ∧
    (0 < balanceOf "p" (ops ++ [.get "q"]) ∧ 0 < balanceOf "q" (ops ++ [.get "q"])) ∧
    (aliasAfter {} (ops ++ [.get "q"]) "p").name =
      (aliasAfter {} (ops ++ [.get "q"]) "q").name := by
  decide +kernel

end Ledger

end ExtensionLowering
