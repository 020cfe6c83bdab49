import ExtensionLowering.Pattern.Program
/-!
# Where matches lie

A match that is found lies in the text, behind the place from which it was looked for, and does not
end before it begins. The reason is the frame around the program of an expression: its only last step
is reached through the step that notes the end of the match, and places only grow on the way there.

## Main definitions

* `Code.Framed`: the frame around a program.
* `Program.follow`: the tasks that a task leads to.
* `Task.Within`: what holds of every task of a search.
-/
namespace ExtensionLowering.Pattern

/-! ## The frame of a program -/

/-- The steps that a step may lead to. -/
def Inst.targets : Inst → List Nat
  | .fork first second => [first, second]
  | .note _ next | .check _ next | .read _ next => [next]
  | .accept => []

/-- A step inside a program neither accepts nor goes to the step that does. -/
def Inst.IsInner (i : Inst) : Prop :=
  i ≠ .accept ∧ 0 ∉ i.targets

section Inner

variable {next : Nat}

theorem Inst.isInner_fork {first second : Nat} (hfirst : first ≠ 0) (hsecond : second ≠ 0) :
    (Inst.fork first second).IsInner := by
  simp [IsInner, targets, hfirst.symm, hsecond.symm]

theorem Inst.isInner_note (h : next ≠ 0) (slot : Nat) : (Inst.note slot next).IsInner := by
  simp [IsInner, targets, h.symm]

theorem Inst.isInner_check (h : next ≠ 0) (a : Anchor) : (Inst.check a next).IsInner := by
  simp [IsInner, targets, h.symm]

theorem Inst.isInner_read (h : next ≠ 0) (set : CharSet) : (Inst.read set next).IsInner := by
  simp [IsInner, targets, h.symm]

end Inner

namespace Code

/-- The first step accepts, and only the second one, which notes the end of the match, leads to
it. -/
structure Framed (code : Code) : Prop where
  size : 2 ≤ code.size
  accepts : code[0]? = some .accept
  closes : code[1]? = some (.note 1 0)
  inner : ∀ k i, 2 ≤ k → code[k]? = some i → i.IsInner

variable {code : Code} {next : Nat}

theorem Framed.push (h : code.Framed) {i : Inst} (hi : i.IsInner) : Framed (code.push i) := by
  have hsize := h.size
  refine ⟨?_, ?_, ?_, fun k j hk hj => ?_⟩
  · rw [Array.size_push]
    omega
  · rw [Array.getElem?_push_lt (by omega), ← h.accepts, Array.getElem?_eq_getElem]
  · rw [Array.getElem?_push_lt (by omega), ← h.closes, Array.getElem?_eq_getElem]
  · rw [Array.getElem?_push] at hj
    split at hj
    · obtain rfl := Option.some.inj hj
      exact hi
    · exact h.inner k j hk hj

theorem Framed.set (h : code.Framed) {i : Inst} (hi : i.IsInner) {at_ : Nat} (hat : 2 ≤ at_) :
    Framed (code.setIfInBounds at_ i) := by
  refine ⟨by simpa using h.size, ?_, ?_, fun k j hk hj => ?_⟩
  · rw [Array.getElem?_setIfInBounds_ne (by omega), h.accepts]
  · rw [Array.getElem?_setIfInBounds_ne (by omega), h.closes]
  · rw [Array.getElem?_setIfInBounds] at hj
    split at hj
    · split at hj
      · obtain rfl := Option.some.inj hj
        exact hi
      · cases hj
    · exact h.inner k j hk hj

end Code

/-- A piece of a program that keeps the frame, whatever inner step it is put in front of. -/
def Emit.Safe (e : Emit) : Prop :=
  ∀ next code, next ≠ 0 → Code.Framed code → (e next code).1 ≠ 0 ∧ Code.Framed (e next code).2

namespace Code

variable {code : Code} {next : Nat}
variable {body : Emit}

theorem emit_safe (h : code.Framed) {i : Inst} (hi : i.IsInner) :
    (code.emit i).1 ≠ 0 ∧ (code.emit i).2.Framed :=
  ⟨by have := h.size; simp only [emit]; omega, h.push hi⟩

theorem fork_safe (h : code.Framed) (greedy : Bool) {body : Nat} (hbody : body ≠ 0)
    (hnext : next ≠ 0) :
    (code.fork greedy body next).1 ≠ 0 ∧ (code.fork greedy body next).2.Framed := by
  refine emit_safe h ?_
  cases greedy
  · exact Inst.isInner_fork hnext hbody
  · exact Inst.isInner_fork hbody hnext

theorem loop_safe (greedy once : Bool) (hbody : body.Safe) :
    Emit.Safe fun next code => code.loop greedy once body next := by
  intro next code hnext h
  have hsize := h.size
  have hat : code.size ≠ 0 := by omega
  obtain ⟨hentry, hcode⟩ := hbody code.size (code.push (.fork next next)) hat
    (h.push (Inst.isInner_fork hnext hnext))
  refine ⟨?_, hcode.set ?_ hsize⟩
  · cases once
    · exact hat
    · exact hentry
  · cases greedy
    · exact Inst.isInner_fork hnext hentry
    · exact Inst.isInner_fork hentry hnext

theorem many_safe (greedy nullable : Bool) (hbody : body.Safe) :
    Emit.Safe (many greedy nullable body) := by
  intro next code hnext h
  cases nullable with
  | true =>
    obtain ⟨hentry, hcode⟩ := loop_safe greedy true hbody next code hnext h
    exact fork_safe hcode greedy hentry hnext
  | false => exact loop_safe greedy false hbody next code hnext h

theorem sequence_safe (sets : List CharSet) : Emit.Safe (sequence sets) := by
  induction sets with
  | nil => exact fun next code hnext h => ⟨hnext, h⟩
  | cons set sets ih =>
    intro next code hnext h
    obtain ⟨hrest, hcode⟩ := ih next code hnext h
    exact emit_safe hcode (Inst.isInner_read hrest set)

theorem copies_safe (hbody : body.Safe) (n : Nat) : Emit.Safe (copies body n) := by
  induction n with
  | zero => exact fun next code hnext h => ⟨hnext, h⟩
  | succ n ih =>
    intro next code hnext h
    obtain ⟨hentry, hcode⟩ := ih next code hnext h
    exact hbody _ _ hentry hcode

theorem optional_safe (greedy : Bool) (hbody : body.Safe) (n : Nat) :
    Emit.Safe (optional greedy body n) := by
  induction n with
  | zero => exact fun next code hnext h => ⟨hnext, h⟩
  | succ n ih =>
    intro next code hnext h
    obtain ⟨hinner, hcode⟩ := ih next code hnext h
    obtain ⟨hentry, hcode'⟩ := hbody _ _ hinner hcode
    exact fork_safe hcode' greedy hentry hnext

end Code

namespace Regex

theorem single_safe {i : Nat → Inst} (hi : ∀ next, next ≠ 0 → (i next).IsInner) :
    Emit.Safe fun next code => code.emit (i next) := fun next _ hnext h =>
  Code.emit_safe h (hi next hnext)

mutual

/-- The program of an expression keeps the frame. -/
theorem emit_safe : ∀ r : Regex, r.emit.Safe
  | .empty => fun next code hnext h => ⟨hnext, h⟩
  | .literal o codes => Code.sequence_safe _
  | .chars set => single_safe fun next hnext => Inst.isInner_read hnext set
  | .any newline => single_safe fun next hnext => Inst.isInner_read hnext _
  | .anchor a => single_safe fun next hnext => Inst.isInner_check hnext a
  | .concat ps => emitAll_safe ps
  | .alternate ps => emitAny_safe ps
  | .star greedy r => Code.many_safe greedy r.nullable (emit_safe r)
  | .plus greedy r => Code.loop_safe greedy true (emit_safe r)
  | .quest greedy r => Code.optional_safe greedy (emit_safe r) 1
  | .counted min none greedy r => fun next code hnext h => by
    rw [emit]
    split
    · exact Code.many_safe greedy r.nullable (emit_safe r) next code hnext h
    · obtain ⟨hlast, hcode⟩ := Code.loop_safe greedy true (emit_safe r) next code hnext h
      exact Code.copies_safe (emit_safe r) (min - 1) _ _ hlast hcode
  | .counted min (some max) greedy r => fun next code hnext h => by
    obtain ⟨hrest, hcode⟩ := Code.optional_safe greedy (emit_safe r) (max - min) next code hnext h
    exact Code.copies_safe (emit_safe r) min _ _ hrest hcode
  | .capture index name r => fun next code hnext h => by
    obtain ⟨hclose, hcode⟩ := Code.emit_safe h (Inst.isInner_note hnext (2 * index + 1))
    obtain ⟨hentry, hcode'⟩ := emit_safe r _ _ hclose hcode
    exact Code.emit_safe hcode' (Inst.isInner_note hentry (2 * index))

theorem emitAll_safe : ∀ rs : List Regex, (emitAll rs).Safe
  | [] => fun next code hnext h => ⟨hnext, h⟩
  | r :: rs => fun next code hnext h => by
    obtain ⟨hentry, hcode⟩ := emitAll_safe rs next code hnext h
    exact emit_safe r _ _ hentry hcode

theorem emitAny_safe : ∀ rs : List Regex, (emitAny rs).Safe
  | [] => fun next code hnext h => ⟨hnext, h⟩
  | [r] => emit_safe r
  | r :: s :: rs => fun next code hnext h => by
    obtain ⟨hsecond, hcode⟩ := emitAny_safe (s :: rs) next code hnext h
    obtain ⟨hfirst, hcode'⟩ := emit_safe r next _ hnext hcode
    exact Code.emit_safe hcode' (Inst.isInner_fork hfirst hsecond)

end

end Regex

/-- The program of an expression is framed, and starts inside. -/
theorem Program.ofRegex_framed (r : Regex) (groups : Nat) :
    (ofRegex r groups).code.Framed ∧ (ofRegex r groups).start ≠ 0 := by
  have hbase : Code.Framed #[.accept, .note 1 0] := by
    refine ⟨by decide, rfl, rfl, fun k i hk hi => ?_⟩
    rw [Array.getElem?_eq_none (by simpa using hk)] at hi
    cases hi
  obtain ⟨hentry, hcode⟩ := Regex.emit_safe r 1 #[.accept, .note 1 0] (by decide) hbase
  obtain ⟨hstart, hframed⟩ := Code.emit_safe hcode (Inst.isInner_note hentry 0)
  exact ⟨hframed, hstart⟩

/-! ## The tasks of a search -/

/-- The tasks that a task leads to, the preferred one first. -/
def Program.follow (p : Program) (text : Array Char) (t : Task) : List Task :=
  match p.code[t.step]? with
  | some (.fork first second) => [{ t with step := first }, { t with step := second }]
  | some (.note slot next) =>
    [{ t with step := next, slots := t.slots.setIfInBounds slot (some t.place) }]
  | some (.check a next) => if a.holds text t.place then [{ t with step := next }] else []
  | some (.read set next) =>
    if (text[t.place]?).any fun c => set.contains c.toNat then
      [{ t with step := next, place := t.place + 1 }]
    else []
  | some .accept | none => []

namespace Program

variable {p : Program} {text : Array Char} {start : Nat} {t : Task}

/-- The number under which a task is marked as tried. -/
def key (text : Array Char) (t : Task) : Nat :=
  t.step * (text.size + 1) + t.place

section Round

variable {fuel : Nat} {tried : Array Bool} {rest : List Task}

theorem run_tried (h : tried[key text t]? ≠ some false) :
    p.run text (fuel + 1) tried (t :: rest) = p.run text fuel tried rest := by
  rw [key] at h
  rw [run, if_neg h]

theorem run_accept (h : tried[key text t]? = some false) (hcode : p.code[t.step]? = some .accept) :
    (p.run text (fuel + 1) tried (t :: rest)).1 = some t.slots := by
  rw [key] at h
  simp only [run, if_pos h, hcode]

/-- A task that does not accept gives way to those it leads to. -/
theorem run_follow (h : tried[key text t]? = some false) (hcode : p.code[t.step]? ≠ some .accept) :
    p.run text (fuel + 1) tried (t :: rest) =
      p.run text fuel (tried.setIfInBounds (key text t) true) (p.follow text t ++ rest) := by
  rw [key] at h ⊢
  rw [run, if_pos h, follow]
  cases hi : p.code[t.step]? with
  | none => rfl
  | some i =>
    cases i with
    | accept => exact absurd hi hcode
    | fork first second => rfl
    | note slot next => rfl
    | check a next => by_cases ha : a.holds text t.place <;> simp [ha]
    | read set next =>
      cases hread : (text[t.place]?).any fun c => set.contains c.toNat <;> simp [hread]

end Round

/-- A search that ends with slots has come from one of its tasks, step by step, to a task that
accepts with them. -/
theorem run_accepts {inv : Task → Prop} (hfollow : ∀ t, inv t → ∀ u ∈ p.follow text t, inv u)
    {fuel : Nat} {tried : Array Bool} {tasks : List Task} (hinv : ∀ t ∈ tasks, inv t)
    {slots : Slots} (hrun : (p.run text fuel tried tasks).1 = some slots) :
    ∃ t, inv t ∧ p.code[t.step]? = some .accept ∧ t.slots = slots := by
  induction fuel generalizing tried tasks with
  | zero => cases hrun
  | succ fuel ih =>
    cases tasks with
    | nil => cases hrun
    | cons t rest =>
      have ht : inv t := hinv t List.mem_cons_self
      have hrest : ∀ u ∈ rest, inv u := fun u hu => hinv u (List.mem_cons_of_mem _ hu)
      by_cases htried : tried[key text t]? = some false
      · by_cases hcode : p.code[t.step]? = some .accept
        · rw [run_accept htried hcode] at hrun
          exact ⟨t, ht, hcode, Option.some.inj hrun⟩
        · rw [run_follow htried hcode] at hrun
          exact ih (fun u hu => (List.mem_append.1 hu).elim (hfollow t ht u) (hrest u)) hrun
      · rw [run_tried htried] at hrun
        exact ih hrest hrun

end Program

/-! ## Bounds of a match -/

/-- Only the closing step leads to the accepting one. -/
theorem Code.Framed.eq_close {code : Code} (h : code.Framed) {k : Nat} {i : Inst}
    (hi : code[k]? = some i) (hzero : 0 ∈ i.targets) : i = .note 1 0 := by
  match k with
  | 0 =>
    obtain rfl := Option.some.inj (h.accepts.symm.trans hi)
    simp [Inst.targets] at hzero
  | 1 => exact Option.some.inj (hi.symm.trans h.closes)
  | k + 2 => exact absurd hzero (h.inner (k + 2) i (by omega) hi).2

theorem Code.Framed.eq_zero {code : Code} (h : code.Framed) {k : Nat}
    (hk : code[k]? = some .accept) : k = 0 := by
  match k with
  | 0 => rfl
  | 1 => exact nomatch h.closes.symm.trans hk
  | k + 2 => exact absurd rfl (h.inner (k + 2) .accept (by omega) hk).1

/-- A task of a search that began at `start` stands in the text and has noted places between; at the
accepting step it has noted where it stands as the end. -/
structure Task.Within (text : Array Char) (start : Nat) (t : Task) : Prop where
  begun : start ≤ t.place
  inText : t.place ≤ text.size
  room : 2 ≤ t.slots.size
  noted : ∀ k v : Nat, t.slots[k]? = some (some v) → start ≤ v ∧ v ≤ t.place
  closed : t.step = 0 → t.slots[1]? = some (some t.place)

namespace Program

variable {p : Program} {text : Array Char} {start : Nat} {t : Task}
variable {tried : Array Bool} {m : Match} {place : Nat}

theorem follow_within (hp : p.code.Framed) (h : t.Within text start) :
    ∀ u ∈ p.follow text t, u.Within text start := by
  intro u hu
  rw [follow] at hu
  cases hi : p.code[t.step]? with
  | none => simp [hi] at hu
  | some i =>
    have hclose := hp.eq_close hi
    cases i with
    | accept => simp [hi] at hu
    | fork first second =>
      have hinner : ¬ (first = 0 ∨ second = 0) := fun hor => by
        have := hclose (by simpa [Inst.targets, eq_comm] using hor)
        cases this
      simp only [hi, List.mem_cons, List.not_mem_nil, or_false] at hu
      obtain rfl | rfl := hu
      · exact ⟨h.begun, h.inText, h.room, h.noted, fun hzero => absurd (.inl hzero) hinner⟩
      · exact ⟨h.begun, h.inText, h.room, h.noted, fun hzero => absurd (.inr hzero) hinner⟩
    | note slot next =>
      simp only [hi, List.mem_singleton] at hu
      subst hu
      refine ⟨h.begun, h.inText, by simpa using h.room, fun k v hv => ?_, fun hzero => ?_⟩
      · rw [Array.getElem?_setIfInBounds] at hv
        split at hv
        · split at hv
          · obtain rfl := Option.some.inj (Option.some.inj hv)
            exact ⟨h.begun, Nat.le_refl _⟩
          · cases hv
        · exact h.noted k v hv
      · obtain ⟨rfl, -⟩ := Inst.note.inj (hclose (by simpa [Inst.targets, eq_comm] using hzero))
        have hroom : 1 < t.slots.size := h.room
        simp [hroom]
    | check a next =>
      have hinner : next ≠ 0 := fun hzero => by
        have := hclose (by simp [Inst.targets, hzero])
        cases this
      cases ha : a.holds text t.place with
      | false => simp [hi, ha] at hu
      | true =>
        simp only [hi, ha, if_true, List.mem_singleton] at hu
        subst hu
        exact ⟨h.begun, h.inText, h.room, h.noted, fun hzero => absurd hzero hinner⟩
    | read set next =>
      have hinner : next ≠ 0 := fun hzero => by
        have := hclose (by simp [Inst.targets, hzero])
        cases this
      cases hread : (text[t.place]?).any fun c => set.contains c.toNat with
      | false => simp [hi, hread] at hu
      | true =>
        simp only [hi, hread, if_true, List.mem_singleton] at hu
        subst hu
        have hlt : t.place < text.size := Nat.lt_of_not_le fun hge => by
          simp [Array.getElem?_eq_none hge] at hread
        refine ⟨Nat.le_succ_of_le h.begun, hlt, h.room, fun k v hv => ?_,
          fun hzero => absurd hzero hinner⟩
        exact ⟨(h.noted k v hv).1, Nat.le_succ_of_le (h.noted k v hv).2⟩

/-- The ends in the slots with which a search from `start` ends. -/
theorem bounds_of_run (hp : p.code.Framed) (hstart : p.start ≠ 0) (htext : start ≤ text.size)
    {fuel : Nat} {slots : Slots} {first last : Nat}
    (hrun : (p.run text fuel tried
      [⟨p.start, start, Array.replicate (2 * (p.groups + 1)) none⟩]).1 = some slots)
    (hfirst : slots[0]? = some (some first)) (hlast : slots[1]? = some (some last)) :
    start ≤ first ∧ first ≤ last ∧ last ≤ text.size := by
  have hbegin : Task.Within text start
      ⟨p.start, start, Array.replicate (2 * (p.groups + 1)) none⟩ := by
    refine ⟨Nat.le_refl _, htext, by rw [Array.size_replicate]; omega, fun k v hv => ?_,
      fun hzero => absurd hzero hstart⟩
    rw [Array.getElem?_replicate] at hv
    split at hv <;> cases hv
  obtain ⟨t, ht, hcode, rfl⟩ := run_accepts (fun t ht => follow_within hp ht)
    (by simpa using hbegin) hrun
  have hclosed := ht.closed (hp.eq_zero hcode)
  obtain rfl : t.place = last := Option.some.inj (Option.some.inj (hclosed.symm.trans hlast))
  exact ⟨(ht.noted 0 first hfirst).1, (ht.noted 0 first hfirst).2, ht.inText⟩

/-- The ends that a search notes are those of the match. -/
theorem findFrom_cases {count : Nat} (h : p.findFrom text count place tried = some m) :
    ((p.run text (p.fuelFor text) tried
        [⟨p.start, place, Array.replicate (2 * (p.groups + 1)) none⟩]).1 = some m.slots ∧
      m.slots[0]? = some (some m.first) ∧ m.slots[1]? = some (some m.last)) ∨
    ∃ n tried', count = n + 1 ∧ p.findFrom text n (place + 1) tried' = some m := by
  cases hrun : p.run text (p.fuelFor text) tried
      [⟨p.start, place, Array.replicate (2 * (p.groups + 1)) none⟩] with
  | mk result tried' =>
    cases result with
    | some slots =>
      have hends : ∃ first last, (slots[0]?).join = some first ∧ (slots[1]?).join = some last ∧
          m = ⟨first, last, slots⟩ := by
        cases count
        all_goals
          rw [findFrom] at h
          simp only [hrun] at h
          split at h
          · exact ⟨_, _, by assumption, by assumption, (Option.some.inj h).symm⟩
          · cases h
      obtain ⟨first, last, hfirst, hlast, rfl⟩ := hends
      exact .inl ⟨rfl, Option.join_eq_some_iff.1 hfirst, Option.join_eq_some_iff.1 hlast⟩
    | none =>
      cases count with
      | zero =>
        rw [findFrom] at h
        simp only [hrun] at h
        cases h
      | succ n =>
        rw [findFrom] at h
        simp only [hrun] at h
        exact .inr ⟨n, tried', rfl, h⟩

/-- A match comes from a search that began at one of the places in question. -/
theorem findFrom_run {count : Nat} (h : p.findFrom text count place tried = some m) :
    ∃ start tried', place ≤ start ∧ start ≤ place + count ∧
      (p.run text (p.fuelFor text) tried'
        [⟨p.start, start, Array.replicate (2 * (p.groups + 1)) none⟩]).1 = some m.slots ∧
      m.slots[0]? = some (some m.first) ∧ m.slots[1]? = some (some m.last) := by
  induction count generalizing place tried with
  | zero =>
    obtain hrun | ⟨n, tried', hcount, -⟩ := findFrom_cases h
    · exact ⟨place, tried, Nat.le_refl _, Nat.le_refl _, hrun⟩
    · cases hcount
  | succ count ih =>
    obtain hrun | ⟨n, tried', hcount, hnext⟩ := findFrom_cases h
    · exact ⟨place, tried, Nat.le_refl _, Nat.le_add_right _ _, hrun⟩
    · obtain rfl : count = n := by omega
      obtain ⟨start, tried'', hbegin, hend, hrun⟩ := ih hnext
      exact ⟨start, tried'', by omega, by omega, hrun⟩

theorem find?_run (h : p.find? text place = some m) :
    ∃ start tried, place ≤ start ∧ start ≤ text.size ∧
      (p.run text (p.fuelFor text) tried
        [⟨p.start, start, Array.replicate (2 * (p.groups + 1)) none⟩]).1 = some m.slots ∧
      m.slots[0]? = some (some m.first) ∧ m.slots[1]? = some (some m.last) := by
  rw [find?] at h
  split at h
  · obtain ⟨start, tried, hbegin, hend, hrun⟩ := findFrom_run h
    exact ⟨start, tried, hbegin, by omega, hrun⟩
  · cases h

/-- A match lies in the text, from the place on from which it was looked for. -/
theorem find?_bounds {r : Regex} {groups : Nat} (h : (ofRegex r groups).find? text place = some m) :
    place ≤ m.first ∧ m.first ≤ m.last ∧ m.last ≤ text.size := by
  obtain ⟨hframed, hstart⟩ := ofRegex_framed r groups
  obtain ⟨start, tried, hbegin, hend, hrun, hfirst, hlast⟩ := find?_run h
  have hbounds := bounds_of_run hframed hstart hend hrun hfirst hlast
  exact ⟨Nat.le_trans hbegin hbounds.1, hbounds.2⟩

/-! ## Groups of a match -/

theorem follow_slots_size {u : Task} (h : u ∈ p.follow text t) : u.slots.size = t.slots.size := by
  rw [follow] at h
  split at h
  · simp only [List.mem_cons, List.not_mem_nil, or_false] at h
    obtain rfl | rfl := h <;> rfl
  · obtain rfl := List.mem_singleton.1 h
    simp
  · split at h
    · obtain rfl := List.mem_singleton.1 h
      rfl
    · cases h
  · split at h
    · obtain rfl := List.mem_singleton.1 h
      rfl
    · cases h
  · cases h
  · cases h

/-- A match has the groups of its program and no more. -/
theorem group?_of_groups_lt {n : Nat} (h : p.find? text place = some m) (hn : p.groups < n) :
    m.group? n = none := by
  obtain ⟨start, tried, -, -, hrun, -⟩ := find?_run h
  have hkeep : ∀ t : Task, t.slots.size = 2 * (p.groups + 1) →
      ∀ u ∈ p.follow text t, u.slots.size = 2 * (p.groups + 1) :=
    fun t ht u hu => (follow_slots_size hu).trans ht
  obtain ⟨t, ht, -, hslots⟩ := run_accepts hkeep (by simp) hrun
  have hsize : m.slots.size ≤ 2 * n := by
    rw [← hslots, ht]
    omega
  simp [Match.group?, Array.getElem?_eq_none hsize]

end Program

end ExtensionLowering.Pattern
