import ExtensionLowering.Proofs.Import.Balance
import Mathlib.Data.Nat.Find
/-!
# Taking back the references of a dropped tree

Imports are dropped and aliases retired while the occurrences of a dropped tree are taken back one
after the other, so what an occurrence means depends on those before it. Here the outcome is said
from the ledger before and the occurrences alone: what is left of every balance, which paths are
still written, and which occurrence is reported as the first one too many.

## Main definitions

* `Ledger.Reachable`: the ledgers that a run of operations leaves.
* `Ledger.uses`: how often the alias of a path occurs.
* `Ledger.Exceeds`: an occurrence that is one too many.

## Main statements

* `Ledger.retract_exact`: what taking back a tree does to a reachable ledger, and what it reports.
-/
namespace ExtensionLowering

open List

/-- How often a shared identifier occurs among some identifiers. Names that read alike do not
count. -/
def Ident.uses (a : Ident) (ids : List Ident) : Nat :=
  a.mark.elim 0 fun m => occurrences m ids

namespace Ident

@[simp] theorem uses_nil (a : Ident) : a.uses [] = 0 := by
  cases h : a.mark <;> simp [uses, h]

theorem uses_cons (a id : Ident) (ids : List Ident) :
    a.uses (id :: ids) = a.uses [id] + a.uses ids := by
  cases h : a.mark <;> simp [uses, h, Nat.add_comm]

theorem uses_self {a id : Ident} (ha : a.mark.isSome) (h : a.mark = id.mark) : a.uses [id] = 1 := by
  obtain ⟨m, hm⟩ := Option.isSome_iff_exists.1 ha
  simp [uses, hm, ← h]

theorem uses_other {a id : Ident} (h : a.mark ≠ id.mark) : a.uses [id] = 0 := by
  cases hm : a.mark with
  | none => simp [uses, hm]
  | some m =>
    rw [hm] at h
    simp [uses, hm, Ne.symm h]

end Ident

namespace ImportEntry

variable {ids : List Ident}
variable {e : ImportEntry}

/-- What is left of an import when some identifiers are taken back. -/
def left (ids : List Ident) (e : ImportEntry) : Option ImportEntry :=
  match e.balance with
  | .permanent => some e
  | .counted n =>
    if e.ident.uses ids < n then some { e with balance := .counted (n - e.ident.uses ids) }
    else none

theorem left_unused
    (h : ∀ n, e.balance = .counted n → 0 < n ∧ e.ident.uses ids = 0) : e.left ids = some e := by
  obtain ⟨path, ident, balance⟩ := e
  cases balance with
  | permanent => rfl
  | counted n =>
    obtain ⟨hpos, huses⟩ := h n rfl
    simp_all [left]

theorem filterMap_left_unused {es : List ImportEntry}
    (h : ∀ e ∈ es, ∀ n, e.balance = .counted n → 0 < n ∧ e.ident.uses ids = 0) :
    es.filterMap (left ids) = es := by
  induction es with
  | nil => rfl
  | cons e es ih =>
    rw [filterMap_cons_some (left_unused (h e mem_cons_self)),
      ih fun x hx => h x (mem_cons_of_mem _ hx)]

theorem left_path {e' : ImportEntry} (h : e.left ids = some e') : e'.path = e.path := by
  unfold left at h
  split at h
  · cases h
    rfl
  · split at h <;> cases h
    rfl

/-- Taking back one identifier and then the others. -/
theorem left_cons (id : Ident) (ids : List Ident) (e : ImportEntry) :
    (e.left [id]).bind (left ids) = e.left (id :: ids) := by
  obtain ⟨path, ident, balance⟩ := e
  cases balance with
  | permanent => rfl
  | counted n =>
    simp only [left, ident.uses_cons id ids]
    by_cases hone : ident.uses [id] < n
    · have hall : ident.uses ids < n - ident.uses [id] ↔
          ident.uses [id] + ident.uses ids < n := by omega
      simp [hone, left, hall, Nat.sub_sub]
    · rw [if_neg hone, if_neg (by omega)]
      rfl

end ImportEntry

namespace Ledger

variable {ids : List Ident}
variable {base : Nat} {l : Ledger} {s : NameSupply}
variable {id : Ident}

/-- How often the alias of a path occurs among some identifiers. -/
def uses (l : Ledger) (path : String) (ids : List Ident) : Nat :=
  (l.at? path).elim 0 (·.ident.uses ids)

/-- The occurrence of an identifier behind some others is one too many: it is an alias that was
retired before, or that of a live import of which the others have taken back all references. -/
def Exceeds (l : Ledger) (before : List Ident) (id : Ident) (path : String) : Prop :=
  (∃ a, (a, path) ∈ l.retired ∧ a.mark = id.mark) ∨
    ∃ e n, l.at? path = some e ∧ e.ident.mark = id.mark ∧ e.balance = .counted n ∧
      n ≤ e.ident.uses before

/-- The ledgers that operations leave, with the supply they share with others. The identifiers that
the file imports itself have marks below `base`, those handed out later have not. No count gets as
far as the number that stands for a permanent balance. -/
inductive Reachable (base : Nat) : Ledger → NameSupply → Prop
  | start {s : NameSupply} (hs : base ≤ s.issued) : Reachable base {} s
  | issue {l : Ledger} {s s' : NameSupply} (h : Reachable base l s) (hs : s.issued ≤ s'.issued) :
      Reachable base l s'
  | get {l : Ledger} {s : NameSupply} (h : Reachable base l s) (path : String)
      (hlimit : l.refCount path + 1 ≠ Balance.unlimited) :
      Reachable base (l.get s path).2.1 (l.get s path).2.2
  | add {l : Ledger} {s : NameSupply} (h : Reachable base l s) (ident : Ident) (path : String)
      (hident : ∀ m, ident.mark = some m → m < base) : Reachable base (l.add ident path) s
  | remove {l : Ledger} {s : NameSupply} (h : Reachable base l s) (path : String) :
      Reachable base (l.remove path) s
  | retract {l : Ledger} {s : NameSupply} (h : Reachable base l s) (dead : Node) :
      Reachable base (l.retractReporting dead).1 s

/-! ## One occurrence -/

/-- A sound ledger whose aliases have different marks. -/
structure Apart (base : Nat) (l : Ledger) : Prop where
  sound : l.Sound base
  marks : (l.aliases.map (·.mark)).Nodup

namespace Apart

variable {e : ImportEntry} {n : Nat} {as bs : List ImportEntry}
variable {id : Ident}

section

variable (h : l.Apart base)
include h

theorem keeps {l' : Ledger} (hk : Keeps base l l') : l'.Apart base :=
  ⟨hk.sound, (hk.aliases.map _).nodup_iff.2 h.marks⟩

/-- An alias in use has not been retired. -/
theorem live_ne_retired (he : e ∈ l.entries) (hn : e.balance = .counted n)
    {r : Ident × String} (hr : r ∈ l.retired) : r.1.mark ≠ e.ident.mark := by
  have hmarks := h.marks
  rw [aliases, map_append] at hmarks
  have hcounted : e ∈ l.counted := mem_filter.2 ⟨he, by simp [ImportEntry.isCounted, hn]⟩
  have hdisjoint := (nodup_append'.1 hmarks).2.2
  exact fun heq => hdisjoint (mem_map_of_mem (mem_map_of_mem hcounted))
    (heq ▸ mem_map_of_mem (mem_map_of_mem hr))

/-- An import of the file itself has the mark of no alias. -/
theorem permanent_ne_alias (he : e ∈ l.entries) (hp : e.balance = .permanent)
    {a : Ident} (ha : a ∈ l.aliases) : e.ident.mark ≠ a.mark := by
  obtain ⟨m, hm, hbase⟩ := h.sound.marked a ha
  intro heq
  have := h.sound.permanent e he hp m (heq.trans hm)
  omega

/-- An alias in use belongs to one import. -/
theorem other_ne_live (hsplit : l.entries = as ++ e :: bs)
    (hn : e.balance = .counted n) {x : ImportEntry}
    (hx : x ∈ as ++ bs) : x.ident.mark ≠ e.ident.mark := by
  have hmem : ∀ y ∈ as ++ bs, y ∈ l.entries := fun y hy => by
    rw [hsplit]
    grind
  have he : e ∈ l.entries := by simp [hsplit]
  cases hb : x.balance with
  | permanent => exact h.permanent_ne_alias (hmem x hx) hb (mem_aliases_of_counted he hn)
  | counted k =>
    have hmarks : (l.counted.map (·.ident.mark)).Nodup := by
      have hsub := (sublist_append_left (l.counted.map (·.ident)) (l.retired.map (·.1))).map
        (·.mark)
      simpa [Function.comp_def] using h.marks.sublist hsub
    have hcounted : l.counted =
        as.filter (·.isCounted) ++ e :: bs.filter (·.isCounted) := by
      simp [counted, hsplit, ImportEntry.isCounted, hn]
    rw [hcounted, map_append, map_cons, nodup_middle, ← map_append,
      ← filter_append] at hmarks
    have hxc : x ∈ (as ++ bs).filter (·.isCounted) :=
      mem_filter.2 ⟨hx, by simp [ImportEntry.isCounted, hb]⟩
    exact fun heq => (nodup_cons.1 hmarks).1 (heq ▸ mem_map_of_mem hxc)

/-- The mark of an alias in use tells its import. -/
theorem eq_of_mark (hsplit : l.entries = as ++ e :: bs)
    (hn : e.balance = .counted n) {x : ImportEntry} (hx : x ∈ l.entries)
    (hmark : x.ident.mark = e.ident.mark) : x = e := by
  by_contra hne
  have hother : x ∈ as ++ bs := by
    rw [hsplit] at hx
    grind
  exact h.other_ne_live hsplit hn hother hmark

/-- An occurrence of an alias in use leaves the other imports alone. -/
theorem others_left (hsplit : l.entries = as ++ e :: bs)
    (hn : e.balance = .counted n) (hid : e.ident.mark = id.mark) :
    as.filterMap (·.left [id]) = as ∧ bs.filterMap (·.left [id]) = bs := by
  have hunused : ∀ x ∈ as ++ bs, ∀ k, x.balance = .counted k → 0 < k ∧ x.ident.uses [id] = 0 :=
    fun x hx k hk => ⟨h.sound.positive x (by rw [hsplit]; grind) k hk,
      Ident.uses_other (hid ▸ h.other_ne_live hsplit hn hx)⟩
  exact ⟨ImportEntry.filterMap_left_unused fun x hx => hunused x (mem_append_left _ hx),
    ImportEntry.filterMap_left_unused fun x hx => hunused x (mem_append_right _ hx)⟩

theorem uses_live (he : e ∈ l.entries) (hn : e.balance = .counted n)
    (hid : e.ident.mark = id.mark) : e.ident.uses [id] = 1 := by
  obtain ⟨m, hm, -⟩ := h.sound.marked e.ident (mem_aliases_of_counted he hn)
  exact Ident.uses_self (by simp [hm]) hid

/-- One occurrence uses up an import that is referred to once. -/
theorem le_uses_iff (he : e ∈ l.entries) (hn : e.balance = .counted n) :
    n ≤ e.ident.uses [id] ↔ n = 1 ∧ e.ident.mark = id.mark := by
  have hpos := h.sound.positive e he n hn
  by_cases hid : e.ident.mark = id.mark
  · rw [h.uses_live he hn hid]
    simp [hid]
    omega
  · rw [Ident.uses_other hid]
    simp [hid]
    omega

/-- A retired alias belonged to one path. -/
theorem retired_unique {r r' : Ident × String} (hr : r ∈ l.retired)
    (hr' : r' ∈ l.retired) (hmark : r.1.mark = r'.1.mark) : r = r' := by
  have hmarks := h.marks
  rw [aliases, map_append, map_map] at hmarks
  have hretired := (nodup_append'.1 hmarks).2.1
  rw [map_map] at hretired
  exact inj_on_of_nodup_map hretired hr hr' hmark

end

end Apart

/-- The ways in which an occurrence of an identifier is taken back. -/
inductive Taken (l : Ledger) (id : Ident) : Ledger → Option String → Prop
  | foreign (hid : ∀ a ∈ l.aliases, a.mark ≠ id.mark) : Taken l id l none
  | retired {a : Ident} {path : String} (ha : (a, path) ∈ l.retired) (hid : a.mark = id.mark) :
      Taken l id l (some path)
  | lowered {as bs : List ImportEntry} {e : ImportEntry} {n : Nat}
      (hsplit : l.entries = as ++ e :: bs) (hn : e.balance = .counted (n + 2))
      (hid : e.ident.mark = id.mark) :
      Taken l id ⟨as ++ { e with balance := .counted (n + 1) } :: bs, l.retired⟩ none
  | dropped {as bs : List ImportEntry} {e : ImportEntry} (hsplit : l.entries = as ++ e :: bs)
      (hn : e.balance = .counted 1) (hid : e.ident.mark = id.mark) :
      Taken l id ⟨as ++ bs, (e.ident, e.path) :: l.retired⟩ none

/-- An occurrence of the alias of a counted import takes one off its count. -/
theorem remove_taken (h : l.Apart base) {e : ImportEntry} {n : Nat} (he : e ∈ l.entries)
    (hb : e.balance = .counted n) (hid : e.ident.mark = id.mark) :
    Taken l id (l.remove e.path) none := by
  have hentry := at?_of_mem h.sound.paths he
  obtain ⟨as, bs, hsplit, hset, hdrop, -⟩ := exists_split h.sound.paths hentry
  have hpos := h.sound.positive e he n hb
  obtain rfl | ⟨k, rfl⟩ : n = 1 ∨ ∃ k, n = k + 2 :=
    (Nat.lt_or_ge 1 n).symm.imp (by omega) fun hn => ⟨n - 2, by omega⟩
  · have hremove : l.remove e.path = ⟨as ++ bs, (e.ident, e.path) :: l.retired⟩ := by
      simp [remove, hentry, hb, ← hdrop, drop]
    rw [hremove]
    exact .dropped hsplit hb hid
  · have hremove : l.remove e.path =
        ⟨as ++ { e with balance := .counted (k + 1) } :: bs, l.retired⟩ := by
      simp [remove, hentry, hb, ← hset, setBalance]
    rw [hremove]
    exact .lowered hsplit hb hid

theorem retractOne_taken (h : l.Apart base) (id : Ident) :
    Taken l id (l.retractOne id).1 (l.retractOne id).2 := by
  by_cases hforeign : ∀ a ∈ l.aliases, a.mark ≠ id.mark
  · rw [retractOne_foreign h.sound hforeign]
    exact .foreign hforeign
  obtain ⟨a, ha, hmark⟩ : ∃ a ∈ l.aliases, a.mark = id.mark := by simpa using hforeign
  obtain ⟨m, hm, -⟩ := h.sound.marked a ha
  have hid : id.mark = some m := hmark.symm.trans hm
  cases hfind : l.entries.find? (·.ident.mark == some m) with
  | some e =>
    have he := mem_of_find?_eq_some hfind
    have hem : e.ident.mark = id.mark := by simpa [hid] using find?_some hfind
    have hone : l.retractOne id = (l.remove e.path, none) := by
      simp [retractOne, livePath?, hid, hfind]
    rw [hone]
    cases hb : e.balance with
    | permanent => exact absurd (hem.trans hmark.symm) (h.permanent_ne_alias he hb ha)
    | counted n => exact remove_taken h he hb hem
  | none =>
    have hretired : a ∈ l.retired.map (·.1) := by
      refine (mem_append.1 ha).resolve_left fun hlive => ?_
      obtain ⟨e, he, rfl⟩ := mem_map.1 hlive
      simpa [hm] using find?_eq_none.1 hfind e (mem_of_mem_filter he)
    obtain ⟨r, hr, rfl⟩ := mem_map.1 hretired
    cases hback : l.retired.find? (·.1.mark == some m) with
    | none => simpa [hm] using find?_eq_none.1 hback r hr
    | some r' =>
      have hr' : r'.1.mark = id.mark := by simpa [hid] using find?_some hback
      have hone : l.retractOne id = (l, some r'.2) := by
        simp [retractOne, livePath?, retiredPath?, hid, hfind, hback]
      rw [hone]
      exact .retired (mem_of_find?_eq_some hback) hr'

namespace Taken

variable {id : Ident} {l' : Ledger} {report : Option String}

/-- An occurrence is taken off the balance of its own import only. -/
theorem entries_eq (ht : Taken l id l' report) (h : l.Apart base) :
    l'.entries = l.entries.filterMap (·.left [id]) := by
  cases ht with
  | foreign hid =>
    refine (ImportEntry.filterMap_left_unused fun e he n hn =>
      ⟨h.sound.positive e he n hn, ?_⟩).symm
    exact Ident.uses_other (hid _ (mem_aliases_of_counted he hn))
  | retired ha hid =>
    refine (ImportEntry.filterMap_left_unused fun e he n hn =>
      ⟨h.sound.positive e he n hn, ?_⟩).symm
    exact Ident.uses_other (hid ▸ (h.live_ne_retired he hn ha).symm)
  | @lowered as bs e n hsplit hn hid =>
    have hleft : e.left [id] = some { e with balance := .counted (n + 1) } := by
      simp [ImportEntry.left, hn, h.uses_live (by simp [hsplit]) hn hid]
    obtain ⟨has, hbs⟩ := h.others_left hsplit hn hid
    simp [hsplit, hleft, has, hbs]
  | @dropped as bs e hsplit hn hid =>
    have hleft : e.left [id] = none := by
      simp [ImportEntry.left, hn, h.uses_live (by simp [hsplit]) hn hid]
    obtain ⟨has, hbs⟩ := h.others_left hsplit hn hid
    simp [hsplit, hleft, has, hbs]

/-- The last reference to an import retires its alias. -/
theorem mem_retired (ht : Taken l id l' report) (h : l.Apart base) {a : Ident} {path : String} :
    (a, path) ∈ l'.retired ↔ (a, path) ∈ l.retired ∨
      ∃ e n, l.at? path = some e ∧ e.ident = a ∧ e.balance = .counted n ∧
        n ≤ e.ident.uses [id] := by
  cases ht with
  | foreign hid =>
    refine (or_iff_left ?_).symm
    rintro ⟨e, n, he, -, hn, hle⟩
    have hmem := at?_mem he
    exact hid _ (mem_aliases_of_counted hmem hn) ((h.le_uses_iff hmem hn).1 hle).2
  | retired ha hid =>
    refine (or_iff_left ?_).symm
    rintro ⟨e, n, he, -, hn, hle⟩
    have hmem := at?_mem he
    exact h.live_ne_retired hmem hn ha (hid.trans ((h.le_uses_iff hmem hn).1 hle).2.symm)
  | @lowered as bs e n hsplit hn hid =>
    refine (or_iff_left ?_).symm
    rintro ⟨x, k, hx, -, hk, hle⟩
    obtain ⟨rfl, hmark⟩ := (h.le_uses_iff (at?_mem hx) hk).1 hle
    obtain rfl := h.eq_of_mark hsplit hn (at?_mem hx) (hmark.trans hid.symm)
    cases hn.symm.trans hk
  | @dropped as bs e hsplit hn hid =>
    have hmem : e ∈ l.entries := by simp [hsplit]
    rw [mem_cons, or_comm]
    refine or_congr_right ⟨fun heq => ?_, ?_⟩
    · cases heq
      exact ⟨e, 1, at?_of_mem h.sound.paths hmem, rfl, hn, (h.le_uses_iff hmem hn).2 ⟨rfl, hid⟩⟩
    · rintro ⟨x, k, hx, rfl, hk, hle⟩
      have hmark := ((h.le_uses_iff (at?_mem hx) hk).1 hle).2
      obtain rfl := h.eq_of_mark hsplit hn (at?_mem hx) (hmark.trans hid.symm)
      rw [at?_path hx]

/-- An occurrence is reported if it is one too many on its own. -/
theorem report_iff (ht : Taken l id l' report) (h : l.Apart base) (path : String) :
    report = some path ↔ l.Exceeds [] id path := by
  -- A live import has a reference left to be taken back.
  have hlive : ¬ ∃ e n, l.at? path = some e ∧ e.ident.mark = id.mark ∧ e.balance = .counted n ∧
      n ≤ e.ident.uses [] := by
    rintro ⟨e, n, he, -, hn, hle⟩
    have := h.sound.positive e (at?_mem he) n hn
    rw [Ident.uses_nil] at hle
    omega
  rw [Exceeds, or_iff_left hlive]
  cases ht with
  | foreign hid =>
    refine iff_of_false (by simp) ?_
    rintro ⟨a, ha, hmark⟩
    exact hid a (mem_append_right _ (mem_map_of_mem ha)) hmark
  | retired ha hid =>
    refine ⟨fun heq => ?_, ?_⟩
    · cases heq
      exact ⟨_, ha, hid⟩
    · rintro ⟨a', ha', hmark⟩
      exact congrArg some (congrArg Prod.snd (h.retired_unique ha ha' (hid.trans hmark.symm)))
  | lowered hsplit hn hid | dropped hsplit hn hid =>
    refine iff_of_false (by simp) ?_
    rintro ⟨a, ha, hmark⟩
    exact h.live_ne_retired (by simp [hsplit]) hn ha (hmark.trans hid.symm)

end Taken

/-! ## All occurrences -/

/-- What is left of the import of a path. -/
theorem at?_left (hpaths : (l.entries.map (·.path)).Nodup) {l' : Ledger}
    (hentries : l'.entries = l.entries.filterMap (·.left ids)) (path : String) :
    l'.at? path = (l.at? path).bind (·.left ids) := by
  rw [at?, at?, hentries]
  generalize l.entries = es at hpaths
  induction es with
  | nil => rfl
  | cons e es ih =>
    rw [map_cons, nodup_cons] at hpaths
    by_cases he : e.path = path
    · -- No other import has the path, also when nothing is left of this one.
      have hothers : (es.filterMap (·.left ids)).find? (·.path == path) = none := by
        simp only [find?_eq_none, mem_filterMap, beq_iff_eq]
        rintro x ⟨y, hy, hleft⟩ hx
        exact hpaths.1 (mem_map.2 ⟨y, hy, by rw [← ImportEntry.left_path hleft, hx, he]⟩)
      rw [find?_cons_of_pos (by simpa using he), Option.bind_some]
      cases hleft : e.left ids with
      | none => rw [filterMap_cons_none hleft, hothers]
      | some e' =>
        rw [filterMap_cons_some hleft, find?_cons_of_pos]
        simpa [ImportEntry.left_path hleft] using he
    · rw [find?_cons_of_neg (by simpa using he), ← ih hpaths.2]
      cases hleft : e.left ids with
      | none => rw [filterMap_cons_none hleft]
      | some e' =>
        rw [filterMap_cons_some hleft, find?_cons_of_neg]
        simpa [ImportEntry.left_path hleft] using he

theorem remove_keeps_sound (hl : l.Sound base) (path : String) : Keeps base l (l.remove path) := by
  cases he : l.at? path with
  | none =>
    rw [remove, he]
    exact .refl hl
  | some e =>
    cases hb : e.balance with
    | counted n => exact remove_keeps hl he hb
    | permanent =>
      simp only [remove, he, hb]
      exact .refl hl

theorem retractOne_keeps (hl : l.Sound base) (id : Ident) : Keeps base l (l.retractOne id).1 := by
  rw [retractOne]
  split
  · exact remove_keeps_sound hl _
  · exact .refl hl

/-- What is left of the imports depends on how often each alias occurs. -/
theorem retractAll_left (h : l.Apart base) (ids : List Ident) :
    (l.retractAll ids).1.entries = l.entries.filterMap (·.left ids) := by
  induction ids generalizing l with
  | nil =>
    refine (ImportEntry.filterMap_left_unused fun e he n hn => ⟨?_, Ident.uses_nil _⟩).symm
    exact h.sound.positive e he n hn
  | cons id ids ih =>
    have hone := (retractOne_taken h id).entries_eq h
    calc ((l.retractOne id).1.retractAll ids).1.entries
        = (l.retractOne id).1.entries.filterMap (·.left ids) :=
          ih (h.keeps (retractOne_keeps h.sound id))
      _ = l.entries.filterMap fun e => (e.left [id]).bind (·.left ids) := by
          rw [hone, filterMap_filterMap]
      _ = l.entries.filterMap (·.left (id :: ids)) := by
          simp only [ImportEntry.left_cons]

/-- An occurrence is one too many after another has been taken back if it was so behind it. -/
theorem retractOne_exceeds (h : l.Apart base) (id : Ident) (before : List Ident) (x : Ident)
    (path : String) :
    (l.retractOne id).1.Exceeds before x path ↔ l.Exceeds (id :: before) x path := by
  have ht := retractOne_taken h id
  have hentry := at?_left h.sound.paths (ht.entries_eq h) path
  simp only [Exceeds, ht.mem_retired h, hentry]
  cases he : l.at? path with
  | none => simp
  | some e =>
    cases hb : e.balance with
    | permanent => simp [ImportEntry.left, hb]
    | counted n =>
      have huses := e.ident.uses_cons id before
      by_cases hlt : e.ident.uses [id] < n
      · have hle : n ≤ e.ident.uses [id] + e.ident.uses before ↔
            n - e.ident.uses [id] ≤ e.ident.uses before := by omega
        simp [ImportEntry.left, hb, hlt, huses, hle, Nat.not_le.2 hlt]
      · have hle : n ≤ e.ident.uses [id] + e.ident.uses before := by omega
        simp [ImportEntry.left, hb, hlt, huses, hle, Nat.not_lt.1 hlt, or_and_right, exists_or]

/-- The first occurrence of a list that is one too many is one of the alias of the path. -/
def FirstExcess (l : Ledger) (ids : List Ident) (path : String) : Prop :=
  ∃ i id, ids[i]? = some id ∧ l.Exceeds (ids.take i) id path ∧
    ∀ j x other, j < i → ids[j]? = some x → ¬ l.Exceeds (ids.take j) x other

/-- The first occurrence too many is the one at the front, or else it is the first of the others
once the one at the front is taken back. -/
theorem firstExcess_cons (h : l.Apart base) (id : Ident) (ids : List Ident) (path : String) :
    l.FirstExcess (id :: ids) path ↔ l.Exceeds [] id path ∨
      (∀ other, ¬ l.Exceeds [] id other) ∧ (l.retractOne id).1.FirstExcess ids path := by
  constructor
  · rintro ⟨i, x, hx, hexceeds, hfirst⟩
    cases i with
    | zero =>
      cases hx
      exact .inl hexceeds
    | succ i =>
      refine .inr ⟨fun other => hfirst 0 id other (by omega) rfl, i, x, hx, ?_, ?_⟩
      · exact (retractOne_exceeds h _ _ _ _).2 hexceeds
      · intro j y other hj hy hback
        exact hfirst (j + 1) y other (by omega) hy ((retractOne_exceeds h _ _ _ _).1 hback)
  · rintro (hexceeds | ⟨hfront, i, x, hx, hexceeds, hfirst⟩)
    · exact ⟨0, id, rfl, hexceeds, fun j _ _ hj => absurd hj (Nat.not_lt_zero j)⟩
    · refine ⟨i + 1, x, hx, (retractOne_exceeds h _ _ _ _).1 hexceeds, ?_⟩
      intro j y other hj hy hback
      cases j with
      | zero =>
        cases hy
        exact hfront other hback
      | succ j =>
        exact hfirst j y other (by omega) hy ((retractOne_exceeds h _ _ _ _).2 hback)

/-- The path reported is that of the first occurrence too many. -/
theorem retractAll_report (h : l.Apart base) (ids : List Ident) (path : String) :
    (l.retractAll ids).2 = some path ↔ l.FirstExcess ids path := by
  induction ids generalizing l with
  | nil => simp [retractAll, FirstExcess]
  | cons id ids ih =>
    have hreport := (retractOne_taken h id).report_iff h
    rw [firstExcess_cons h, ← ih (h.keeps (retractOne_keeps h.sound id)), ← hreport]
    simp only [← hreport]
    cases hone : (l.retractOne id).2 <;> simp [retractAll, hone]

/-- An identifier that occurs more than `n` times has an occurrence behind `n` others. -/
theorem exists_excess {a : Ident} (ha : a.mark.isSome) {n : Nat} (h : n < a.uses ids) :
    ∃ i id, ids[i]? = some id ∧ a.mark = id.mark ∧ n ≤ a.uses (ids.take i) := by
  induction ids generalizing n with
  | nil => simp at h
  | cons id ids ih =>
    rw [Ident.uses_cons] at h
    by_cases hid : a.mark = id.mark
    · cases n with
      | zero => exact ⟨0, id, rfl, hid, Nat.zero_le _⟩
      | succ n =>
        have hone := Ident.uses_self ha hid
        obtain ⟨i, x, hx, hmark, hle⟩ := ih (n := n) (by omega)
        refine ⟨i + 1, x, hx, hmark, ?_⟩
        rw [take_succ_cons, Ident.uses_cons]
        omega
    · rw [Ident.uses_other hid, Nat.zero_add] at h
      obtain ⟨i, x, hx, hmark, hle⟩ := ih h
      refine ⟨i + 1, x, hx, hmark, ?_⟩
      rw [take_succ_cons, Ident.uses_cons]
      omega

theorem uses_take_lt {a : Ident} (ha : a.mark.isSome) {i : Nat} (hid : ids[i]? = some id)
    (hmark : a.mark = id.mark) : a.uses (ids.take i) < a.uses ids := by
  induction ids generalizing i with
  | nil => simp at hid
  | cons x ids ih =>
    rw [Ident.uses_cons]
    cases i with
    | zero =>
      cases hid
      have hone := Ident.uses_self ha hmark
      rw [take_zero, Ident.uses_nil]
      omega
    | succ i =>
      have := ih hid
      rw [take_succ_cons, Ident.uses_cons]
      omega

theorem exists_firstExcess {i : Nat} {path : String} (hid : ids[i]? = some id)
    (h : l.Exceeds (ids.take i) id path) : ∃ other, l.FirstExcess ids other := by
  classical
  have hex : ∃ i id path, ids[i]? = some id ∧ l.Exceeds (ids.take i) id path :=
    ⟨i, id, path, hid, h⟩
  obtain ⟨x, other, hx, hother⟩ := Nat.find_spec hex
  exact ⟨other, Nat.find hex, x, hx, hother,
    fun j y p hj hy hback => Nat.find_min hex hj ⟨y, p, hy, hback⟩⟩

/-- Something is one too many if an alias retired before occurs, or one in use occurs more often
than it is counted. -/
theorem exists_firstExcess_iff (h : l.Apart base) (ids : List Ident) :
    (∃ path, l.FirstExcess ids path) ↔ (∃ r ∈ l.retired, ∃ id ∈ ids, r.1.mark = id.mark) ∨
      ∃ path e n, l.at? path = some e ∧ e.balance = .counted n ∧ n < e.ident.uses ids := by
  have hmarked : ∀ e ∈ l.entries, ∀ n, e.balance = .counted n → e.ident.mark.isSome := by
    intro e he n hn
    obtain ⟨m, hm, -⟩ := h.sound.marked e.ident (mem_aliases_of_counted he hn)
    simp [hm]
  constructor
  · rintro ⟨path, i, id, hid, ⟨a, ha, hmark⟩ | ⟨e, n, he, hmark, hn, hle⟩, -⟩
    · exact .inl ⟨(a, path), ha, id, mem_of_getElem? hid, hmark⟩
    · have hlt := uses_take_lt (hmarked e (at?_mem he) n hn) hid hmark
      exact .inr ⟨path, e, n, he, hn, by omega⟩
  · rintro (⟨⟨a, path⟩, hr, id, hid, hmark⟩ | ⟨path, e, n, he, hn, hlt⟩)
    · obtain ⟨i, hi⟩ := mem_iff_getElem?.1 hid
      exact exists_firstExcess hi (.inl ⟨a, hr, hmark⟩)
    · obtain ⟨i, id, hi, hmark, hle⟩ := exists_excess (hmarked e (at?_mem he) n hn) hlt
      exact exists_firstExcess hi (.inr ⟨e, n, he, hmark, hn, hle⟩)

theorem retractAll_foreign (hl : l.Sound base)
    (hids : ∀ a ∈ l.aliases, ∀ id ∈ ids, a.mark ≠ id.mark) : l.retractAll ids = (l, none) := by
  induction ids with
  | nil => rfl
  | cons id ids ih =>
    have hone := retractOne_foreign hl fun a ha => hids a ha id mem_cons_self
    have hrest := ih fun a ha x hx => hids a ha x (mem_cons_of_mem _ hx)
    simp [retractAll, hone, hrest]

/-! ## Reachable ledgers -/

/-- What holds along a run: the aliases are apart, the supply has issued their marks, and no count
stands for a permanent balance. -/
structure Regular (base : Nat) (l : Ledger) (s : NameSupply) : Prop where
  apart : l.Apart base
  supply : base ≤ s.issued
  issued : ∀ a ∈ l.aliases, ∀ m, a.mark = some m → m < s.issued
  limit : ∀ e ∈ l.entries, ∀ n, e.balance = .counted n → n < Balance.unlimited

namespace Regular

variable {path : String}

theorem keeps {l' : Ledger} (h : l.Regular base s) (hk : Keeps base l l')
    (hlimit : ∀ e ∈ l'.entries, ∀ n, e.balance = .counted n → n < Balance.unlimited) :
    l'.Regular base s :=
  ⟨h.apart.keeps hk, h.supply, fun a ha => h.issued a (hk.aliases.subset ha), hlimit⟩

theorem start (hs : base ≤ s.issued) : Regular base {} s where
  apart := ⟨⟨by simp, by simp, by simp, by simp [aliases, counted]⟩, by simp [aliases, counted]⟩
  supply := hs
  issued := by simp [aliases, counted]
  limit := by simp

section

variable (h : l.Regular base s)
include h

theorem issue {s' : NameSupply} (hs : s.issued ≤ s'.issued) : l.Regular base s' :=
  ⟨h.apart, Nat.le_trans h.supply hs, fun a ha m hm => Nat.lt_of_lt_of_le (h.issued a ha m hm) hs,
    h.limit⟩

theorem setBalance {e : ImportEntry} {n k : Nat}
    (he : l.at? path = some e) (hn : e.balance = .counted n) (hpos : 0 < k)
    (hlimit : k < Balance.unlimited) : (l.setBalance path (.counted k)).Regular base s := by
  refine h.keeps (setBalance_keeps h.apart.sound he hn hpos) ?_
  intro x hx m hm
  obtain ⟨y, hy, rfl⟩ := mem_map.1 hx
  split at hm
  · cases hm
    exact hlimit
  · exact h.limit y hy m hm

theorem append (hpath : l.at? path = none) {id : Ident} {s' : NameSupply} (hid : s.Issues id s') :
    Regular base { l with entries := l.entries ++ [⟨path, id, .counted 1⟩] } s' := by
  have haliases := append_aliases l path id
  refine ⟨⟨append_sound h.apart.sound hpath hid.mark h.supply, ?_⟩, ?_, fun a ha m hm => ?_, ?_⟩
  · rw [(haliases.map _).nodup_iff, map_cons, nodup_cons]
    refine ⟨fun hmem => ?_, h.apart.marks⟩
    obtain ⟨a, ha, hmark⟩ := mem_map.1 hmem
    exact Nat.lt_irrefl _ (h.issued a ha _ (hmark.trans hid.mark))
  · rw [hid.issued]
    exact Nat.le_succ_of_le h.supply
  · rw [hid.issued]
    obtain rfl | ha := mem_cons.1 (haliases.subset ha)
    · cases hid.mark.symm.trans hm
      exact Nat.lt_succ_self _
    · exact Nat.lt_succ_of_lt (h.issued a ha m hm)
  · intro e he n hn
    obtain he | he := mem_append.1 he
    · exact h.limit e he n hn
    · obtain rfl := mem_singleton.1 he
      cases hn
      decide

theorem get (path : String) (hlimit : l.refCount path + 1 ≠ Balance.unlimited) :
    (l.get s path).2.1.Regular base (l.get s path).2.2 := by
  obtain ⟨e, n, he, hn, hget⟩ | ⟨e, -, -, hget⟩ | ⟨hnone, id, s', hid, hget⟩ := l.get_cases s path
  · rw [hget]
    have hcount : l.refCount path = n := by simp [refCount, he, hn, Balance.toNat]
    have := h.limit e (at?_mem he) n hn
    exact h.setBalance he hn (Nat.succ_pos n) (by omega)
  · rw [hget]
    exact h
  · rw [hget]
    exact h.append hnone hid

/-- An import of the file itself stands in the place of those whose aliases are then forgotten. -/
theorem replace {as bs : List ImportEntry} (os : List ImportEntry)
    {ident : Ident} (hsplit : l.entries = as ++ (os ++ bs)) (hpath : ∀ x ∈ as ++ bs, x.path ≠ path)
    (hident : ∀ m, ident.mark = some m → m < base) :
    Regular base { l with entries := as ++ ⟨path, ident, .permanent⟩ :: bs } s := by
  have hsub : (as ++ bs).Sublist l.entries :=
    hsplit ▸ (sublist_append_right os bs).append_left as
  have haliases : (aliases { l with entries := as ++ ⟨path, ident, .permanent⟩ :: bs }).Sublist
      l.aliases := by
    have hcounted := ((hsub.filter (·.isCounted)).map (·.ident)).append_right (l.retired.map (·.1))
    simpa [aliases, counted, ImportEntry.isCounted] using hcounted
  have hold : ∀ x ∈ as ++ ⟨path, ident, .permanent⟩ :: bs,
      x = ⟨path, ident, .permanent⟩ ∨ x ∈ l.entries := by
    intro x hx
    have := hsub.subset (a := x)
    grind
  refine ⟨⟨⟨?_, fun x hx n hn => ?_, fun x hx hp => ?_, ?_⟩, ?_⟩, h.supply, ?_, fun x hx n hn => ?_⟩
  · rw [map_append, map_cons, nodup_middle, ← map_append, nodup_cons]
    refine ⟨fun hmem => ?_, h.apart.sound.paths.sublist (hsub.map _)⟩
    obtain ⟨x, hx, heq⟩ := mem_map.1 hmem
    exact hpath x hx heq
  · obtain rfl | hx := hold x hx
    · cases hn
    · exact h.apart.sound.positive x hx n hn
  · obtain rfl | hx := hold x hx
    · exact hident
    · exact h.apart.sound.permanent x hx hp
  · exact fun a ha => h.apart.sound.marked a (haliases.subset ha)
  · exact h.apart.marks.sublist (haliases.map _)
  · exact fun a ha => h.issued a (haliases.subset ha)
  · obtain rfl | hx := hold x hx
    · cases hn
    · exact h.limit x hx n hn

theorem add (ident : Ident) (path : String)
    (hident : ∀ m, ident.mark = some m → m < base) : (l.add ident path).Regular base s := by
  cases he : l.at? path with
  | none =>
    have hnew : ∀ x ∈ l.entries ++ [], x.path ≠ path := fun x hx => by
      simpa using find?_eq_none.1 he x (by simpa using hx)
    simpa [Ledger.add, he] using h.replace [] (by simp) hnew hident
  | some e =>
    cases hb : e.balance with
    | permanent => simpa [Ledger.add, he, hb, ImportEntry.isCounted] using h
    | counted n =>
      obtain ⟨as, bs, hsplit, -, -, hothers⟩ := exists_split h.apart.sound.paths he
      have hkept : ∀ xs : List ImportEntry, (∀ x ∈ xs, x.path ≠ path) →
          xs.map (fun x => if x.path = path then ⟨path, ident, .permanent⟩ else x) = xs :=
        fun xs hxs => (map_congr_left fun x hx => by simp [hxs x hx]).trans (map_id _)
      have hadd : l.add ident path =
          { l with entries := as ++ ⟨path, ident, .permanent⟩ :: bs } := by
        have has := hkept as fun x hx => hothers x (mem_append_left _ hx)
        have hbs := hkept bs fun x hx => hothers x (mem_append_right _ hx)
        simp [Ledger.add, he, hb, ImportEntry.isCounted, hsplit, has, hbs, at?_path he]
      rw [hadd]
      exact h.replace [e] hsplit hothers hident

theorem remove (path : String) : (l.remove path).Regular base s := by
  cases he : l.at? path with
  | none => simpa [Ledger.remove, he] using h
  | some e =>
    cases hb : e.balance with
    | permanent => simpa [Ledger.remove, he, hb] using h
    | counted n =>
      have := h.limit e (at?_mem he) n hb
      simp only [Ledger.remove, he, hb]
      split
      · exact h.keeps (drop_keeps h.apart.sound he hb) fun x hx =>
          h.limit x (mem_of_mem_filter hx)
      · exact h.setBalance he hb (by omega) (by omega)

theorem retractAll (ids : List Ident) : (l.retractAll ids).1.Regular base s := by
  induction ids generalizing l with
  | nil => exact h
  | cons id ids ih =>
    refine ih (l := (l.retractOne id).1) ?_
    rw [retractOne]
    split
    · exact h.remove _
    · exact h

end

end Regular

theorem Reachable.regular (h : Reachable base l s) : l.Regular base s := by
  induction h with
  | start hs => exact .start hs
  | issue _ hs ih => exact ih.issue hs
  | get _ path hlimit ih => exact ih.get path hlimit
  | add _ ident path hident ih => exact ih.add ident path hident
  | remove _ path ih => exact ih.remove path
  | retract _ dead ih => exact ih.retractAll dead.idents

/-! ## A dropped tree -/

section Dropped

variable {ids : List Ident}

attribute [local simp] ImportEntry.isCounted ImportEntry.left Balance.toNat

/-- The count of a path goes down by the occurrences of its alias, and not below zero. -/
theorem retractAll_refCount (h : l.Apart base) {path : String}
    (hfinite : l.refCount path ≠ Balance.unlimited) :
    (l.retractAll ids).1.refCount path = l.refCount path - l.uses path ids := by
  rw [refCount, at?_left h.sound.paths (retractAll_left h ids)]
  cases he : l.at? path with
  | none => simp [refCount, he]
  | some e =>
    cases hb : e.balance with
    | permanent => exact absurd (by simp [refCount, he, hb]) hfinite
    | counted n =>
      simp only [refCount, uses, he, Option.bind_some, Option.elim_some, ImportEntry.left, hb]
      split <;> simp
      omega

/-- A path that does not occur, or that the file imports itself, is left as it is. -/
theorem retractAll_at? (h : l.Regular base s) {path : String}
    (hpath : l.uses path ids = 0 ∨ l.refCount path = Balance.unlimited) :
    Ledger.at? (l.retractAll ids).1 path = l.at? path := by
  rw [at?_left h.apart.sound.paths (retractAll_left h.apart ids)]
  cases he : l.at? path with
  | none => rfl
  | some e =>
    refine ImportEntry.left_unused fun n hn => ⟨h.apart.sound.positive e (at?_mem he) n hn, ?_⟩
    have hlimit := h.limit e (at?_mem he) n hn
    simp only [uses, refCount, he, Option.elim_some, hn, Balance.toNat] at hpath
    exact hpath.resolve_right (Nat.ne_of_lt hlimit)

/-- The paths with a reference left are written, in their order. -/
theorem retractAll_paths (h : l.Apart base) (ids : List Ident) :
    (l.retractAll ids).1.paths =
      l.paths.filter fun path => l.uses path ids < l.refCount path := by
  rw [paths, counted, retractAll_left h, paths, counted]
  have hentry : ∀ e ∈ l.entries, l.at? e.path = some e := fun e => at?_of_mem h.sound.paths
  generalize l.entries = es at hentry
  induction es with
  | nil => rfl
  | cons e es ih =>
    have hrest := ih fun x hx => hentry x (mem_cons_of_mem _ hx)
    have he := hentry e mem_cons_self
    cases hb : e.balance with
    | permanent =>
      have hleft : e.left ids = some e := by simp [hb]
      simpa [hleft, hb] using hrest
    | counted n =>
      by_cases hlt : e.ident.uses ids < n
      · simpa [hb, hlt, uses, refCount, he]
          using hrest
      · simpa [hb, hlt, uses, refCount, he]
          using hrest

/-- Some alias in use occurs more often than it is counted. -/
theorem exists_overdrawn_iff (h : l.Regular base s) :
    (∃ path e n, l.at? path = some e ∧ e.balance = .counted n ∧ n < e.ident.uses ids) ↔
      ∃ path, l.refCount path ≠ Balance.unlimited ∧ l.refCount path < l.uses path ids := by
  constructor
  · rintro ⟨path, e, n, he, hn, hlt⟩
    have hcount : l.refCount path = n := by simp [refCount, he, hn]
    refine ⟨path, ?_, ?_⟩
    · rw [hcount]
      exact Nat.ne_of_lt (h.limit e (at?_mem he) n hn)
    · simpa [hcount, uses, he] using hlt
  · rintro ⟨path, hfinite, hlt⟩
    cases he : l.at? path with
    | none => simp [uses, he] at hlt
    | some e =>
      cases hb : e.balance with
      | permanent => exact absurd (by simp [refCount, he, hb]) hfinite
      | counted n =>
        exact ⟨path, e, n, he, hb, by simpa [refCount, uses, he, hb] using hlt⟩

end Dropped

/-- Taking back a dropped tree lowers the count of a path by the occurrences of its alias, down to
zero at most, and with it the path is no longer written. Paths that do not occur, or that the file
imports itself, stay as they are, and so does the whole ledger when no alias occurs, whatever the
names read. A report is made if and only if there is an occurrence too many, and is about the first
one. -/
theorem retract_exact (h : Reachable base l s) (dead : Node) :
    (∀ path, l.refCount path ≠ Balance.unlimited →
      (l.retractReporting dead).1.refCount path = l.refCount path - l.uses path dead.idents) ∧
    (l.retractReporting dead).1.paths =
      l.paths.filter (fun path => l.uses path dead.idents < l.refCount path) ∧
    (∀ path, l.uses path dead.idents = 0 ∨ l.refCount path = Balance.unlimited →
      Ledger.at? (l.retractReporting dead).1 path = l.at? path) ∧
    ((∀ a ∈ l.aliases, ∀ id ∈ dead.idents, a.mark ≠ id.mark) →
      l.retractReporting dead = (l, none)) ∧
    ((l.retractReporting dead).2.isSome ↔
      (∃ r ∈ l.retired, ∃ id ∈ dead.idents, r.1.mark = id.mark) ∨
        ∃ path, l.refCount path ≠ Balance.unlimited ∧
          l.refCount path < l.uses path dead.idents) ∧
    (∀ d, (l.retractReporting dead).2 = some d ↔
      ∃ path, l.FirstExcess dead.idents path ∧ d = excess path) ∧
    ∀ path, (excess path).code.text = "T004" := by
  have hregular := h.regular
  have hapart := hregular.apart
  have hreport : ∀ d, (l.retractReporting dead).2 = some d ↔
      ∃ path, l.FirstExcess dead.idents path ∧ d = excess path := by
    intro d
    simp only [← retractAll_report hapart]
    simp [retractReporting, retract, @eq_comm _ d]
  refine ⟨fun path => retractAll_refCount hapart, retractAll_paths hapart _,
    fun path => retractAll_at? hregular, fun hforeign => ?_, ?_, hreport, fun path => rfl⟩
  · simp [retractReporting, retract, retractAll_foreign hapart.sound hforeign]
  · rw [← exists_overdrawn_iff hregular, ← exists_firstExcess_iff hapart, Option.isSome_iff_exists]
    simp only [hreport]
    grind

/-- References to `a`, `b`, `a` and `a`, after which the file's own import of `c` is registered. -/
def borrowed : Ledger × NameSupply :=
  let (_, l₁, s₁) := get {} {} "a"
  let (_, l₂, s₂) := l₁.get s₁ "b"
  let (_, l₃, s₃) := l₂.get s₂ "a"
  let (_, l₄, s₄) := l₃.get s₃ "a"
  (l₄.add { name := "O" } "c", s₄)

/-- The aliases of `a` and `b` in turn, and among them a name that only reads like one. -/
def tangled : Node :=
  .expr (.ofElems
    [.ident { name := "tsplus_module_2", mark := some 1 },
      .ident { name := "tsplus_module_1", mark := some 0 }, .ident { name := "tsplus_module_1" },
      .ident { name := "O" }, .ident { name := "tsplus_module_2", mark := some 1 },
      .ident { name := "tsplus_module_1", mark := some 0 }])

theorem retract_exact_tangled :
    Reachable 0 borrowed.1 borrowed.2 ∧
    (borrowed.1.retractReporting tangled).1.refCount "a" = 1 ∧
    (borrowed.1.retractReporting tangled).1.paths = ["a"] ∧
    Ledger.at? (borrowed.1.retractReporting tangled).1 "c" = Ledger.at? borrowed.1 "c" ∧
    (borrowed.1.retractReporting tangled).2.isSome ∧
    ∃ path, borrowed.1.FirstExcess tangled.idents path ∧ excess "b" = excess path := by
  have hreachable : Reachable 0 borrowed.1 borrowed.2 := by
    have hstart : Reachable 0 {} {} := .start (Nat.le_refl 0)
    have ha := hstart.get "a" (by decide +kernel)
    have hb := ha.get "b" (by decide +kernel)
    have haa := hb.get "a" (by decide +kernel)
    have haaa := haa.get "a" (by decide +kernel)
    exact haaa.add { name := "O" } "c" nofun
  obtain ⟨hcount, hpaths, hkept, -, hsome, hfirst, -⟩ := retract_exact hreachable tangled
  refine ⟨hreachable, (hcount "a" (by decide +kernel)).trans (by decide +kernel),
    hpaths.trans (by decide +kernel), hkept "c" (.inr (by decide +kernel)),
    hsome.2 (.inr ⟨"b", by decide +kernel, by decide +kernel⟩),
    (hfirst _).1 (by decide +kernel)⟩

end Ledger

end ExtensionLowering
