import ExtensionLowering.Name.Table
import Mathlib.Data.List.Nodup
import Mathlib.Data.List.Perm.Subperm
import Mathlib.Order.Bounds.Defs
/-!
# Fresh names are fresh

The search for a free number ends at a name that is not taken, because it looks at one candidate
more than there are taken names. Every operation that hands out a name takes it, and gives its
identifier a mark that was not issued before.
-/
namespace ExtensionLowering

open List

theorem mem_of_lookup {α β : Type} [BEq α] [LawfulBEq α] {l : List (α × β)} {a : α} {b : β}
    (h : l.lookup a = some b) : (a, b) ∈ l := by
  obtain ⟨l₁, l₂, rfl, -⟩ := lookup_eq_some_iff.1 h
  simp

theorem lookup_of_mem_nodup {α β : Type} [BEq α] [LawfulBEq α] {l : List (α × β)}
    (hnodup : (l.map (·.1)).Nodup) {x : α} {v : β} (h : (x, v) ∈ l) : l.lookup x = some v := by
  cases hl : l.lookup x with
  | none => simpa using lookup_eq_none_iff.1 hl _ h
  | some v' =>
    have := inj_on_of_nodup_map hnodup (mem_of_lookup hl) h rfl
    exact congrArg some (congrArg Prod.snd this)

theorem numbered_injective (base : String) : Function.Injective (numbered base) := by
  intro m n h
  have hrepr : m.repr = n.repr := (String.append_right_inj (base ++ "_")).1 h
  have hdigits : Nat.toDigits 10 m = Nat.toDigits 10 n := by
    simpa only [Nat.toList_repr] using congrArg String.toList hrepr
  simpa only [Nat.ofDigitChars_ten_toDigits] using congrArg (Nat.ofDigitChars 10 · 0) hdigits

namespace NameSupply

variable (s : NameSupply)

/-- Of `taken.length + 1` candidates in a row one is free. -/
theorem exists_free (taken : List String) (base : String) (n : Nat) :
    ∃ k ≤ taken.length, numbered base (n + k) ∉ taken := by
  by_contra hall
  have hnodup : ((range (taken.length + 1)).map fun k => numbered base (n + k)).Nodup := by
    refine List.Nodup.map (fun a b h => ?_) nodup_range
    have := numbered_injective base h
    omega
  have hsub : ((range (taken.length + 1)).map fun k => numbered base (n + k)) ⊆ taken := by
    intro name hname
    obtain ⟨k, hk, rfl⟩ := mem_map.1 hname
    by_contra hfree
    exact hall ⟨k, Nat.le_of_lt_succ (mem_range.1 hk), hfree⟩
  have hle := (subperm_of_subset hnodup hsub).length_le
  simp only [length_map, length_range] at hle
  omega

/-- The search for a name of `base` begins with the counter at the first number and ends with the
counter at the second: each round advances the counter, and ends the search if that name is free. -/
inductive Searches (taken : String → Prop) (base : String) : Nat → Nat → Prop where
  | found {n : Nat} (h : ¬ taken (numbered base (n + 1))) : Searches taken base n (n + 1)
  | passed {n m : Nat} (h : taken (numbered base (n + 1)))
      (hm : Searches taken base (n + 1) m) : Searches taken base n m

variable {taken : String → Prop} {base : String} {n m : Nat}

/-- A search that ends has passed over all smaller candidates. -/
theorem Searches.isLeast (h : Searches taken base n m) :
    IsLeast {k | n < k ∧ ¬ taken (numbered base k)} m := by
  induction h with
  | found h => exact ⟨⟨by omega, h⟩, fun k hk => hk.1⟩
  | @passed n m h _ ih =>
    refine ⟨⟨by have := ih.1.1; omega, ih.1.2⟩, fun k ⟨hnk, hk⟩ => ih.2 ⟨?_, hk⟩⟩
    have hne : k ≠ n + 1 := by
      rintro rfl
      exact hk h
    omega

theorem firstFree_searches {taken : List String} {fuel k : Nat} (hk : k ≤ fuel)
    (hfree : numbered base (n + 1 + k) ∉ taken) :
    Searches (· ∈ taken) base n (firstFree taken base fuel (n + 1)) := by
  induction fuel generalizing n k with
  | zero =>
    obtain rfl : k = 0 := by omega
    exact .found hfree
  | succ fuel ih =>
    rw [firstFree]
    split
    · rename_i htaken
      have htaken := contains_iff_mem.1 htaken
      have hk0 : k ≠ 0 := by
        rintro rfl
        exact hfree htaken
      refine .passed htaken (ih (by omega : k - 1 ≤ fuel) ?_)
      rwa [show n + 1 + 1 + (k - 1) = n + 1 + k by omega]
    · rename_i htaken
      exact .found fun hmem => htaken (contains_iff_mem.2 hmem)

theorem nextIndex_searches (base : String) :
    Searches (· ∈ s.taken) base (s.last base) (s.nextIndex base) := by
  obtain ⟨k, hk, hfree⟩ := exists_free s.taken base (s.last base + 1)
  exact firstFree_searches hk hfree

theorem nextIndex_free (base : String) : numbered base (s.nextIndex base) ∉ s.taken :=
  (s.nextIndex_searches base).isLeast.1.2

/-- What handing out an identifier does to a supply. -/
structure Issues (s : NameSupply) (id : Ident) (s' : NameSupply) : Prop where
  fresh : id.name ∉ s.taken
  taken : s'.taken = id.name :: s.taken
  mark : id.mark = some s.issued
  issued : s'.issued = s.issued + 1

theorem next_issues (base : String) : Issues s (s.next base).1 (s.next base).2 :=
  ⟨s.nextIndex_free base, rfl, rfl, rfl⟩

end NameSupply

end ExtensionLowering
