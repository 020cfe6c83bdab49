import ExtensionLowering.Proofs.Name.Freshness
import Mathlib.Data.List.Induction
/-!
# The least unused number

Trees are reserved in a supply and names are asked from it, in any order. What a request is answered
follows from the calls before it: the candidates `base_N` are tried one after the other, from the
number last handed out for the base on, and the first one that no call has made unavailable is the
answer. The search itself knows no bound; it ends because only finitely many names are unavailable.

## Main definitions

* `NameSupply.Call`, `NameSupply.after`, `NameSupply.handed`: the calls on a supply, the supply they
  leave and the identifiers they hand out.
* `NameSupply.Unavailable`, `NameSupply.IsLast`: what the calls say about names and numbers.

## Main results

* `NameSupply.least_unused_number`: every search ends, with the least unused number of the base, and
  all names handed out are different.
-/
namespace ExtensionLowering.NameSupply

/-- A call on a supply. -/
inductive Call where
  | reserve (tree : Node)
  | next (base : String)

namespace Call

/-- The supply that a call leaves. -/
def perform (s : NameSupply) : Call → NameSupply
  | .reserve tree => s.reserve tree
  | .next base => (s.next base).2

/-- The base that a call asks a name for, and the identifier it is given. -/
def given? (s : NameSupply) : Call → Option (String × Ident)
  | .reserve _ => none
  | .next base => some (base, (s.next base).1)

end Call

/-- The supply after some calls. -/
def after (calls : List Call) : NameSupply :=
  calls.foldl Call.perform {}

/-- The identifiers that calls hand out, each with the base it is made from. -/
def handed (s : NameSupply) : List Call → List (String × Ident)
  | [] => []
  | c :: calls => (c.given? s).toList ++ handed (c.perform s) calls

/-- A name that is reserved or that has been handed out, for any base. -/
def Unavailable (calls : List Call) (x : String) : Prop :=
  (∃ tree, .reserve tree ∈ calls ∧ ∃ id ∈ tree.idents, id.name = x) ∨
    ∃ p ∈ handed {} calls, p.2.name = x

/-- The number last handed out for a base is `k`, which is zero if there is none. -/
def IsLast (calls : List Call) (base : String) (k : Nat) : Prop :=
  match (handed {} calls).reverse.lookup base with
  | none => k = 0
  | some id => id.name = numbered base k

/-! ## One call more -/

section

variable {calls : List Call} {c : Call} {tree : Node} {base : String}
variable {k : Nat}

theorem after_snoc (calls : List Call) (c : Call) :
    after (calls ++ [c]) = c.perform (after calls) := by
  simp [after]

theorem handed_append (s : NameSupply) (calls : List Call) (c : Call) :
    handed s (calls ++ [c]) = handed s calls ++ (c.given? (calls.foldl Call.perform s)).toList := by
  induction calls generalizing s with
  | nil => simp [handed]
  | cons _ calls ih => simp [handed, ih]

theorem handed_reserve (calls : List Call) (tree : Node) :
    handed {} (calls ++ [.reserve tree]) = handed {} calls := by
  simp [handed_append, Call.given?]

theorem handed_next (calls : List Call) (base : String) :
    handed {} (calls ++ [.next base]) =
      handed {} calls ++ [(base, ((after calls).next base).1)] := by
  simp [handed_append, Call.given?, after]

theorem unavailable_reserve (x : String) :
    Unavailable (calls ++ [.reserve tree]) x ↔
      (∃ id ∈ tree.idents, id.name = x) ∨ Unavailable calls x := by
  simp only [Unavailable, handed_reserve, List.mem_append, List.mem_singleton]
  grind

theorem unavailable_next (x : String) :
    Unavailable (calls ++ [.next base]) x ↔
      x = ((after calls).next base).1.name ∨ Unavailable calls x := by
  simp only [Unavailable, handed_next, List.mem_append, List.mem_singleton]
  grind

theorem isLast_reserve : IsLast (calls ++ [.reserve tree]) base k ↔ IsLast calls base k := by
  rw [IsLast, IsLast, handed_reserve]

theorem isLast_next_self :
    IsLast (calls ++ [.next base]) base k ↔
      ((after calls).next base).1.name = numbered base k := by
  simp [IsLast, handed_next]

theorem isLast_next_of_ne {other : String} (h : other ≠ base) :
    IsLast (calls ++ [.next base]) other k ↔ IsLast calls other k := by
  have hne : (other == base) = false := by simpa using h
  simp [IsLast, handed_next, List.lookup_cons, hne]

end

/-! ## All calls -/

/-- What a supply knows after some calls is what the calls say. -/
structure Knows (calls : List Call) (s : NameSupply) : Prop where
  taken : ∀ x, x ∈ s.taken ↔ Unavailable calls x
  last : ∀ base, IsLast calls base (s.last base)
  distinct : ((handed {} calls).map (·.2.name)).Nodup

namespace Knows

variable {calls : List Call}

theorem reserve (h : Knows calls (after calls)) (tree : Node) :
    Knows (calls ++ [.reserve tree]) ((after calls).reserve tree) where
  taken x := by
    rw [unavailable_reserve, ← h.taken]
    simp [NameSupply.reserve]
  last base := isLast_reserve.2 (h.last base)
  distinct := by
    rw [handed_reserve]
    exact h.distinct

theorem next (h : Knows calls (after calls)) (base : String) :
    Knows (calls ++ [.next base]) ((after calls).next base).2 where
  taken x := by
    rw [unavailable_next, ← h.taken, (next_issues (after calls) base).taken, List.mem_cons]
  last other := by
    by_cases hother : other = base
    · subst hother
      refine isLast_next_self.2 ?_
      simp [NameSupply.next, tag, NameSupply.last, Ident.synthetic]
    · have hne : (other == base) = false := by simpa using hother
      refine (isLast_next_of_ne hother).2 ?_
      simpa [NameSupply.next, tag, NameSupply.last, List.lookup_cons, hne] using h.last other
  distinct := by
    rw [handed_next, List.map_append, List.nodup_append_comm]
    refine List.nodup_cons.2 ⟨fun hmem => ?_, h.distinct⟩
    obtain ⟨p, hp, hname⟩ := List.mem_map.1 hmem
    exact (next_issues (after calls) base).fresh ((h.taken _).2 (.inr ⟨p, hp, hname⟩))

theorem after (calls : List Call) : Knows calls (after calls) := by
  induction calls using List.reverseRecOn with
  | nil => exact ⟨by simp [NameSupply.after, Unavailable, handed], fun _ => rfl, List.nodup_nil⟩
  | append_singleton calls c ih =>
    rw [after_snoc]
    cases c with
    | reserve tree => exact ih.reserve tree
    | next base => exact ih.next base

end Knows

/-- However trees have been reserved and names been asked for, the search for a name of `base` ends.
The answer is `base_N` with the least `N` above the number last handed out for `base` such that the
name is neither reserved nor has been handed out for any base. All names handed out are different. -/
theorem least_unused_number (calls : List Call) :
    (∀ base, ∃ k N, IsLast calls base k ∧ Searches (Unavailable calls) base k N ∧
      ((after calls).next base).1.name = numbered base N ∧
      IsLeast {m | k < m ∧ ¬ Unavailable calls (numbered base m)} N) ∧
    ((handed {} calls).map (·.2.name)).Nodup := by
  have hknows := Knows.after calls
  refine ⟨fun base => ?_, hknows.distinct⟩
  have hsearch : Searches (Unavailable calls) base ((after calls).last base)
      ((after calls).nextIndex base) := by
    simpa only [hknows.taken] using nextIndex_searches (after calls) base
  exact ⟨_, _, hknows.last base, hsearch, rfl, hsearch.isLeast⟩

end ExtensionLowering.NameSupply
