import ExtensionLowering.Pattern.Template
import ExtensionLowering.Proofs.Pattern.Search
/-!
# Which matches are replaced

`replaceAll` walks over a text with two places, the end of the last match and the place from which
the next one is looked for. What it writes is the text with its successive matches replaced: each is
the first one behind the one before, and a match of nothing right behind another one is passed over.

## Main definitions

* `Program.matchAfter?`: the match that follows one which ends at a place.
* `Program.Successive`: all matches from a first one on.
* `splice`: a text with some of its matches replaced.
-/
namespace ExtensionLowering.Pattern

/-- A text from the place `done` on, with something else in place of each match. -/
def splice (text : Array Char) (f : Match → List Char) : Nat → List Match → List Char
  | done, [] => Template.slice text done text.size
  | done, m :: ms => Template.slice text done m.first ++ f m ++ splice text f m.last ms

namespace Program

/-- The match that follows one which ends at `e`: the first from there on, unless it is empty and
stands right there. -/
def matchAfter? (p : Program) (text : Array Char) (e : Nat) : Option Match :=
  match p.find? text e with
  | some m => if m.last ≤ e then p.find? text (e + 1) else some m
  | none => none

/-- A first match, if there is one, and those that follow it up to the last one. -/
inductive Successive (p : Program) (text : Array Char) : Option Match → List Match → Prop
  | stop : Successive p text none []
  | next {m : Match} {ms : List Match} (h : Successive p text (p.matchAfter? text m.last) ms) :
    Successive p text (some m) (m :: ms)

variable {r : Regex} {groups e place : Nat} {text : Array Char} {m : Match} {ms : List Match}
variable {p : Program}

theorem find?_of_size_lt (h : text.size < place) : p.find? text place = none := by
  rw [find?, if_neg (by omega)]

theorem matchAfter?_cases (h : p.matchAfter? text e = some m) :
    (p.find? text e = some m ∧ e < m.last) ∨ p.find? text (e + 1) = some m := by
  rw [matchAfter?] at h
  split at h
  · rename_i m' hfind
    split at h
    · exact .inr h
    · obtain rfl := Option.some.inj h
      exact .inl ⟨hfind, by omega⟩
  · cases h

theorem matchAfter?_bounds (h : (ofRegex r groups).matchAfter? text e = some m) :
    e ≤ m.first ∧ m.first ≤ m.last := by
  obtain ⟨hfind, -⟩ | hfind := matchAfter?_cases h
  · exact ⟨(find?_bounds hfind).1, (find?_bounds hfind).2.1⟩
  · exact ⟨Nat.le_of_succ_le (find?_bounds hfind).1, (find?_bounds hfind).2.1⟩

theorem Successive.found {o : Option Match} (h : Successive p text o ms)
    (hfound : ∀ m, o = some m → ∃ place, p.find? text place = some m) :
    ∀ m ∈ ms, ∃ place, p.find? text place = some m := by
  induction h with
  | stop => simp
  | @next m ms _ ih =>
    have hlater := ih fun m' hm' =>
      (matchAfter?_cases hm').elim (fun h => ⟨_, h.1⟩) (fun h => ⟨_, h⟩)
    exact List.forall_mem_cons.2 ⟨hfound m rfl, hlater⟩

/-- Successive matches do not overlap. -/
theorem Successive.pairwise {o : Option Match} (h : Successive (ofRegex r groups) text o ms)
    (hfirst : ∀ m, o = some m → e ≤ m.first ∧ m.first ≤ m.last) :
    (∀ m ∈ ms, e ≤ m.first) ∧ ms.Pairwise fun a b => a.last ≤ b.first := by
  induction h generalizing e with
  | stop => exact ⟨by simp, .nil⟩
  | @next m ms _ ih =>
    obtain ⟨hbegin, hends⟩ := hfirst m rfl
    obtain ⟨hlater, hpairwise⟩ := ih fun m' hm' => matchAfter?_bounds hm'
    refine ⟨List.forall_mem_cons.2 ⟨hbegin, fun b hb => ?_⟩, .cons hlater hpairwise⟩
    have := hlater b hb
    omega

/-! ## The walk over the text -/

/-- Behind a match that ends at `e`, the next one is looked for from `place` on: right there, or one
place further if there is a match of nothing. -/
def Resumes (p : Program) (text : Array Char) (e place : Nat) : Prop :=
  (place = e ∧ 0 < e) ∨ (place = e + 1 ∧ ∃ m, p.find? text e = some m ∧ m.last ≤ e)

theorem resumes_of_find? (h : (ofRegex r groups).find? text place = some m) :
    (ofRegex r groups).Resumes text m.last (if m.last ≤ place then place + 1 else m.last) := by
  obtain ⟨hbegin, hends, -⟩ := find?_bounds h
  split
  · obtain rfl : place = m.last := by omega
    exact .inr ⟨rfl, m, h, Nat.le_refl _⟩
  · exact .inl ⟨rfl, by omega⟩

theorem Resumes.matchAfter?_none (h : p.Resumes text e place) (hfind : p.find? text place = none) :
    p.matchAfter? text e = none := by
  obtain ⟨rfl, -⟩ | ⟨rfl, m, hm, hlast⟩ := h
  · simp [matchAfter?, hfind]
  · simp [matchAfter?, hm, hlast, hfind]

theorem Resumes.matchAfter?_some (h : p.Resumes text e place) (hfind : p.find? text place = some m)
    (hlast : e < m.last) : p.matchAfter? text e = some m := by
  obtain ⟨rfl, -⟩ | ⟨rfl, m', hm', hlast'⟩ := h
  · simp only [matchAfter?, hfind, if_neg (Nat.not_le.2 hlast)]
  · simp [matchAfter?, hm', hlast', hfind]

end Program

variable {r : Regex} {groups e place : Nat} {text : Array Char} {m : Match}

/-- The walk from a place where it resumes. In each round the place moves on, and fuel is left for
one round at each place. -/
theorem replaceFrom_eq_splice {fuel : Nat} (t : Template)
    (h : (Program.ofRegex r groups).Resumes text e place) (hfuel : text.size < place + fuel) :
    ∃ ms, (Program.ofRegex r groups).Successive text
        ((Program.ofRegex r groups).matchAfter? text e) ms ∧
      replaceFrom (.ofRegex r groups) t text fuel e place =
        splice text (t.expand (.ofRegex r groups) text) e ms := by
  induction fuel generalizing e place with
  | zero =>
    rw [h.matchAfter?_none (Program.find?_of_size_lt (by omega))]
    exact ⟨[], .stop, rfl⟩
  | succ fuel ih =>
    cases hfind : (Program.ofRegex r groups).find? text place with
    | none =>
      rw [h.matchAfter?_none hfind]
      exact ⟨[], .stop, by simp only [replaceFrom, hfind, splice]⟩
    | some m =>
      obtain ⟨hbegin, hends, -⟩ := Program.find?_bounds hfind
      by_cases hlast : e < m.last
      · -- The match is replaced.
        obtain ⟨ms, hms, heq⟩ := ih (Program.resumes_of_find? hfind) (by split <;> omega)
        rw [h.matchAfter?_some hfind hlast]
        exact ⟨m :: ms, .next hms, by simp [replaceFrom, hfind, hlast, splice, heq]⟩
      · -- A match of nothing right behind the last one is passed over.
        have hplace : e ≤ place := by obtain ⟨rfl, -⟩ | ⟨rfl, -⟩ := h <;> omega
        have hpos : 0 < e := by obtain ⟨-, hpos⟩ | ⟨rfl, -⟩ := h <;> omega
        obtain ⟨rfl, hfirst, hend⟩ : place = e ∧ m.first = e ∧ m.last = e := by omega
        obtain ⟨ms, hms, heq⟩ := ih (.inr ⟨rfl, m, hfind, by omega⟩) (by omega)
        refine ⟨ms, hms, ?_⟩
        simp [replaceFrom, hfind, hfirst, hend, heq, Template.slice, Nat.ne_of_gt hpos]

/-- `replaceAll` replaces the successive matches of a text. -/
theorem replaceAll_eq_splice (t : Template) (s : String) :
    ∃ ms, (Program.ofRegex r groups).Successive s.toList.toArray
        ((Program.ofRegex r groups).find? s.toList.toArray 0) ms ∧
      replaceAll (.ofRegex r groups) t s = String.ofList
        (splice s.toList.toArray (t.expand (.ofRegex r groups) s.toList.toArray) 0 ms) := by
  rw [replaceAll]
  cases hfind : (Program.ofRegex r groups).find? s.toList.toArray 0 with
  | none => exact ⟨[], .stop, by simp only [replaceFrom, hfind, splice]⟩
  | some m =>
    obtain ⟨-, hends, -⟩ := Program.find?_bounds hfind
    obtain ⟨ms, hms, heq⟩ := replaceFrom_eq_splice t (Program.resumes_of_find? hfind)
      (by split <;> omega : s.toList.toArray.size < _ + s.toList.toArray.size)
    have hreplaced : 0 < m.last ∨ m.first = 0 := by omega
    refine ⟨m :: ms, .next hms, ?_⟩
    simp only [replaceFrom, hfind, heq, splice, Bool.or_eq_true, decide_eq_true_eq, if_pos hreplaced]

end ExtensionLowering.Pattern
