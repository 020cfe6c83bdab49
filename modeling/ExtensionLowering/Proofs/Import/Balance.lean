import ExtensionLowering.Proofs.Name.Freshness
import ExtensionLowering.Import.Ledger
/-!
# What the ledger counts

The references counted by a ledger are told apart by the mark of their alias. `get` counts one more
for the identifier it gives. Taking back a list of occurrences takes back as many as the list has,
and reports nothing as long as no alias occurs in the list more often than it is counted.
-/
namespace ExtensionLowering

open List

/-- How often the object with mark `m` is among some identifiers. -/
def occurrences (m : Nat) (ids : List Ident) : Nat :=
  ids.countP fun id => id.mark = some m

@[simp] theorem occurrences_nil (m : Nat) : occurrences m [] = 0 := rfl

@[simp] theorem occurrences_cons (m : Nat) (id : Ident) (ids : List Ident) :
    occurrences m (id :: ids) = occurrences m ids + if id.mark = some m then 1 else 0 := by
  simp [occurrences, countP_cons]

@[simp] theorem occurrences_append (m : Nat) (a b : List Ident) :
    occurrences m (a ++ b) = occurrences m a + occurrences m b :=
  countP_append

theorem occurrences_perm {a b : List Ident} (h : a.Perm b) (m : Nat) :
    occurrences m a = occurrences m b :=
  h.countP_eq _

theorem occurrences_eq_zero {m : Nat} {ids : List Ident} :
    occurrences m ids = 0 ↔ ∀ id ∈ ids, id.mark ≠ some m := by
  simp [occurrences, countP_eq_zero]

/-- The references that a balance counts. -/
def Balance.refs : Balance → Nat
  | .counted n => n
  | .permanent => 0

def ImportEntry.refs (e : ImportEntry) (m : Nat) : Nat :=
  if e.ident.mark = some m then e.balance.refs else 0

namespace ImportEntry

def allRefs (m : Nat) : List ImportEntry → Nat
  | [] => 0
  | e :: es => e.refs m + allRefs m es

@[simp] theorem allRefs_append (m : Nat) (as bs : List ImportEntry) :
    allRefs m (as ++ bs) = allRefs m as + allRefs m bs := by
  induction as with
  | nil => simp [allRefs]
  | cons e as ih => rw [cons_append, allRefs, allRefs, ih, Nat.add_assoc]

theorem exists_pos_of_allRefs_pos {m : Nat} {es : List ImportEntry} (h : 0 < allRefs m es) :
    ∃ e ∈ es, 0 < e.refs m := by
  induction es with
  | nil => cases h
  | cons e es ih =>
    rw [allRefs] at h
    by_cases he : 0 < e.refs m
    · exact ⟨e, mem_cons_self, he⟩
    · obtain ⟨e', hmem, he'⟩ := ih (by omega)
      exact ⟨e', mem_cons_of_mem _ hmem, he'⟩

end ImportEntry

namespace Ledger

variable {e : ImportEntry} {id : Ident} {m : Nat}
variable {l : Ledger} {base : Nat} {path : String}

/-- The references counted for the alias with mark `m`. -/
def refs (l : Ledger) (m : Nat) : Nat :=
  ImportEntry.allRefs m l.entries

/-- The aliases handed out, those of dropped imports included. -/
def aliases (l : Ledger) : List Ident :=
  l.counted.map (·.ident) ++ l.retired.map (·.1)

/-- Aliases have marks from `base` on, the imports of the file itself have none of these; an import
is live only as long as it is referred to. -/
structure Sound (base : Nat) (l : Ledger) : Prop where
  paths : (l.entries.map (·.path)).Nodup
  positive : ∀ e ∈ l.entries, ∀ n, e.balance = .counted n → 0 < n
  permanent : ∀ e ∈ l.entries, e.balance = .permanent → ∀ m, e.ident.mark = some m → m < base
  marked : ∀ id ∈ l.aliases, ∃ m, id.mark = some m ∧ base ≤ m

theorem mem_aliases_of_counted {n : Nat} (he : e ∈ l.entries)
    (hn : e.balance = .counted n) : e.ident ∈ l.aliases := by
  refine mem_append_left _ (mem_map_of_mem (mem_filter.2 ⟨he, ?_⟩))
  simp [ImportEntry.isCounted, hn]

/-- The entries around the one of a path, and what changing and dropping it leaves. -/
theorem exists_split (hpaths : (l.entries.map (·.path)).Nodup) (he : l.at? path = some e) :
    ∃ as bs, l.entries = as ++ e :: bs ∧
      (∀ b, (l.setBalance path b).entries = as ++ { e with balance := b } :: bs) ∧
      (l.drop e).entries = as ++ bs ∧ ∀ x ∈ as ++ bs, x.path ≠ path := by
  obtain ⟨hpath, as, bs, hsplit, has⟩ := find?_eq_some_iff_append.1 he
  obtain rfl : e.path = path := by simpa using hpath
  have has' : ∀ a ∈ as, a.path ≠ e.path := fun a ha => by simpa using has a ha
  have hbs : ∀ b ∈ bs, b.path ≠ e.path := by
    intro b hb heq
    rw [hsplit, map_append, map_cons] at hpaths
    have hnotin := (nodup_cons.1 (nodup_append.1 hpaths).2.1).1
    exact hnotin (heq ▸ mem_map_of_mem hb)
  refine ⟨as, bs, hsplit, fun b => ?_, ?_, fun x hx => (mem_append.1 hx).elim (has' x) (hbs x)⟩
  · have hleft : as.map (fun x => if x.path == e.path then { x with balance := b } else x) = as :=
      (map_congr_left fun x hx => by simp [has' x hx]).trans (map_id _)
    have hright : bs.map (fun x => if x.path == e.path then { x with balance := b } else x) = bs :=
      (map_congr_left fun x hx => by simp [hbs x hx]).trans (map_id _)
    simp only [setBalance, hsplit, map_append, map_cons, hleft, hright,
      beq_self_eq_true, if_true]
  · have hleft : as.filter (·.path != e.path) = as :=
      filter_eq_self.2 fun x hx => by simpa using has' x hx
    have hright : bs.filter (·.path != e.path) = bs :=
      filter_eq_self.2 fun x hx => by simpa using hbs x hx
    simp [drop, hsplit, hleft, hright]

theorem at?_mem (he : l.at? path = some e) : e ∈ l.entries :=
  mem_of_find?_eq_some he

theorem at?_path (he : l.at? path = some e) : e.path = path := by
  simpa using find?_some he

theorem at?_of_mem (hpaths : (l.entries.map (·.path)).Nodup)
    (he : e ∈ l.entries) : l.at? e.path = some e := by
  cases h : l.at? e.path with
  | none => simpa using find?_eq_none.1 h e he
  | some e' =>
    exact congrArg some (inj_on_of_nodup_map hpaths (at?_mem h) he (at?_path h))

/-- A change of a ledger that hands out no alias and forgets none. -/
structure Keeps (base : Nat) (l l' : Ledger) : Prop where
  sound : l'.Sound base
  aliases : l'.aliases.Perm l.aliases
  permanent : ∀ e ∈ l'.entries, e.balance = .permanent → e ∈ l.entries

theorem Keeps.refl (hl : l.Sound base) : Keeps base l l :=
  ⟨hl, .refl _, fun _ he _ => he⟩

theorem Keeps.trans {l' l'' : Ledger} (h : Keeps base l l') (h' : Keeps base l' l'') :
    Keeps base l l'' :=
  ⟨h'.sound, h'.aliases.trans h.aliases, fun e he hp => h.permanent e (h'.permanent e he hp) hp⟩

section Entry

variable {e : ImportEntry} {n : Nat}

section

variable (hl : l.Sound base)
include hl

theorem setBalance_keeps (he : l.at? path = some e)
    (hn : e.balance = .counted n) {k : Nat} (hk : 0 < k) :
    Keeps base l (l.setBalance path (.counted k)) := by
  obtain ⟨as, bs, hsplit, hset, -⟩ := exists_split hl.paths he
  have haliases : (l.setBalance path (.counted k)).aliases = l.aliases := by
    have hretired : (l.setBalance path (.counted k)).retired = l.retired := rfl
    simp [aliases, counted, hset, hsplit, hretired, ImportEntry.isCounted, hn]
  have hold : ∀ x ∈ (l.setBalance path (.counted k)).entries,
      x ∈ l.entries ∨ x = { e with balance := .counted k } := by
    intro x hx
    rw [hset] at hx
    rw [hsplit]
    grind
  refine ⟨⟨?_, fun x hx m hm => ?_, fun x hx hp => ?_, haliases ▸ hl.marked⟩, .of_eq haliases,
    fun x hx hp => ?_⟩
  · simpa [hset, hsplit] using hl.paths
  · obtain hx | rfl := hold x hx
    · exact hl.positive x hx m hm
    · cases hm
      exact hk
  · obtain hx | rfl := hold x hx
    · exact hl.permanent x hx hp
    · cases hp
  · obtain hx | rfl := hold x hx
    · exact hx
    · cases hp

theorem setBalance_refs (he : l.at? path = some e) (hn : e.balance = .counted n) (k m : Nat) :
    (l.setBalance path (.counted k)).refs m + (if e.ident.mark = some m then n else 0) =
      l.refs m + if e.ident.mark = some m then k else 0 := by
  obtain ⟨as, bs, hsplit, hset, -⟩ := exists_split hl.paths he
  simp only [refs, hset, hsplit, ImportEntry.allRefs_append, ImportEntry.allRefs,
    ImportEntry.refs, hn, Balance.refs]
  omega

theorem drop_keeps (he : l.at? path = some e)
    (hn : e.balance = .counted n) : Keeps base l (l.drop e) := by
  obtain ⟨as, bs, hsplit, -, hdrop, -⟩ := exists_split hl.paths he
  have haliases : (l.drop e).aliases.Perm l.aliases := by
    have hretired : (l.drop e).retired = (e.ident, e.path) :: l.retired := rfl
    simp only [aliases, counted, hdrop, hsplit, hretired, filter_append, map_append,
      filter_cons, ImportEntry.isCounted, hn, map_cons]
    simpa using perm_middle.append_left _
  have hold : (l.drop e).entries.Sublist l.entries := by
    rw [hdrop, hsplit]
    exact (sublist_cons_self e bs).append_left as
  exact ⟨⟨hl.paths.sublist (hold.map _), fun x hx => hl.positive x (hold.subset hx),
    fun x hx => hl.permanent x (hold.subset hx), fun id hid => hl.marked id (haliases.subset hid)⟩,
    haliases, fun x hx _ => hold.subset hx⟩

theorem drop_refs (he : l.at? path = some e) (m : Nat) :
    (l.drop e).refs m + e.refs m = l.refs m := by
  obtain ⟨as, bs, hsplit, -, hdrop, -⟩ := exists_split hl.paths he
  simp only [refs, hdrop, hsplit, ImportEntry.allRefs_append, ImportEntry.allRefs]
  omega

theorem remove_keeps (he : l.at? path = some e)
    (hn : e.balance = .counted n) : Keeps base l (l.remove path) := by
  simp only [remove, he, hn]
  split
  · exact drop_keeps hl he hn
  · exact setBalance_keeps hl he hn (by omega)

/-- Removing a counted import takes back one reference to its alias. -/
theorem remove_refs (he : l.at? path = some e) (hn : e.balance = .counted n) (m : Nat) :
    (l.remove path).refs m + occurrences m [e.ident] = l.refs m := by
  have hpos := hl.positive e (at?_mem he) n hn
  simp only [remove, he, hn]
  split
  · have hdrop := drop_refs hl he m
    rw [ImportEntry.refs, hn, Balance.refs] at hdrop
    rw [← hdrop, occurrences_cons, occurrences_nil]
    obtain rfl : n = 1 := by omega
    omega
  · have hset := setBalance_refs hl he hn (n - 1) m
    rw [occurrences_cons, occurrences_nil]
    by_cases hm : e.ident.mark = some m
    · simp only [hm, if_true] at hset ⊢
      omega
    · simp only [hm, if_false] at hset ⊢
      omega

end

end Entry

/-! ## Counting a reference -/

/-- The three ways in which a path gets its alias. -/
theorem get_cases (l : Ledger) (supply : NameSupply) (path : String) :
    (∃ e n, l.at? path = some e ∧ e.balance = .counted n ∧
      l.get supply path = (e.ident, l.setBalance path (.counted (n + 1)), supply)) ∨
    (∃ e, l.at? path = some e ∧ e.balance = .permanent ∧
      l.get supply path = (e.ident, l, supply)) ∨
    (l.at? path = none ∧ ∃ id supply', supply.Issues id supply' ∧
      l.get supply path =
        (id, { l with entries := l.entries ++ [⟨path, id, .counted 1⟩] }, supply')) := by
  cases he : l.at? path with
  | none =>
    exact .inr (.inr ⟨rfl, _, _, supply.next_issues "tsplus_module", by simp [get, he]⟩)
  | some e =>
    cases hb : e.balance with
    | counted n => exact .inl ⟨e, n, rfl, hb, by simp [get, he, hb]⟩
    | permanent => exact .inr (.inl ⟨e, rfl, hb, by simp [get, he, hb]⟩)

/-- What holds of all entries and of whatever is issued holds of what a path gets. -/
theorem get_entries {P : Ident → Prop} (l : Ledger) (supply : NameSupply) (path : String)
    (hl : ∀ e ∈ l.entries, P e.ident) (hissued : ∀ id supply', supply.Issues id supply' → P id) :
    (∀ e ∈ (l.get supply path).2.1.entries, P e.ident) ∧ P (l.get supply path).1 := by
  obtain ⟨e, n, he, -, hget⟩ | ⟨e, he, -, hget⟩ | ⟨-, id, supply', hissues, hget⟩ :=
    l.get_cases supply path
  · rw [hget]
    refine ⟨fun x hx => ?_, hl e (at?_mem he)⟩
    obtain ⟨x', hx', rfl⟩ := mem_map.1 hx
    split <;> exact hl x' hx'
  · rw [hget]
    exact ⟨hl, hl e (at?_mem he)⟩
  · rw [hget]
    have hid := hissued id supply' hissues
    refine ⟨forall_mem_append.2 ⟨hl, ?_⟩, hid⟩
    simpa using hid

theorem get_issued_le (l : Ledger) (supply : NameSupply) (path : String) :
    supply.issued ≤ (l.get supply path).2.2.issued := by
  obtain ⟨e, n, -, -, hget⟩ | ⟨e, -, -, hget⟩ | ⟨-, id, supply', hissues, hget⟩ :=
    l.get_cases supply path
  · exact hget ▸ Nat.le_refl _
  · exact hget ▸ Nat.le_refl _
  · exact hget ▸ hissues.issued ▸ Nat.le_succ _

theorem append_sound (hl : l.Sound base) (hpath : l.at? path = none) (hm : id.mark = some m)
    (hbase : base ≤ m) :
    Sound base { l with entries := l.entries ++ [⟨path, id, .counted 1⟩] } := by
  have hnew : ∀ e ∈ l.entries, e.path ≠ path := fun e he => by
    simpa using find?_eq_none.1 hpath e he
  refine ⟨?_, ?_, ?_, ?_⟩
  · rw [map_append]
    refine nodup_append'.2 ⟨hl.paths, nodup_singleton _, ?_⟩
    simpa [disjoint_singleton] using hnew
  · intro e he n hn
    obtain he | he := mem_append.1 he
    · exact hl.positive e he n hn
    · obtain rfl := mem_singleton.1 he
      cases hn
      omega
  · intro e he hp
    obtain he | he := mem_append.1 he
    · exact hl.permanent e he hp
    · obtain rfl := mem_singleton.1 he
      cases hp
  · intro id' hid
    simp only [aliases, counted, filter_append, map_append, mem_append] at hid
    obtain (hid | hid) | hid := hid
    · exact hl.marked id' (mem_append_left _ hid)
    · obtain rfl : id' = id := by simpa [ImportEntry.isCounted] using hid
      exact ⟨m, hm, hbase⟩
    · exact hl.marked id' (mem_append_right _ hid)

theorem append_aliases (l : Ledger) (path : String) (id : Ident) :
    ({ l with entries := l.entries ++ [⟨path, id, .counted 1⟩] } : Ledger).aliases.Perm
      (id :: l.aliases) := by
  simp only [aliases, counted, filter_append, map_append]
  simp [ImportEntry.isCounted]

theorem append_refs (l : Ledger) (path : String) (id : Ident) (m : Nat) :
    ({ l with entries := l.entries ++ [⟨path, id, .counted 1⟩] } : Ledger).refs m =
      l.refs m + occurrences m [id] := by
  simp [refs, ImportEntry.allRefs, ImportEntry.refs, Balance.refs]

/-- `get` counts one reference to the identifier it gives. -/
theorem get_refs (hl : l.Sound base) (supply : NameSupply) (path : String) (hm : base ≤ m) :
    (l.get supply path).2.1.refs m = l.refs m + occurrences m [(l.get supply path).1] := by
  obtain ⟨e, n, he, hn, hget⟩ | ⟨e, he, hp, hget⟩ | ⟨-, id, supply', -, hget⟩ :=
    l.get_cases supply path
  · have hset := setBalance_refs hl he hn (n + 1) m
    rw [hget, occurrences_cons, occurrences_nil]
    by_cases hmark : e.ident.mark = some m
    · simp only [hmark, if_true] at hset ⊢
      omega
    · simp only [hmark, if_false] at hset ⊢
      omega
  · have hmark : e.ident.mark ≠ some m := fun h => by
      have := hl.permanent e (at?_mem he) hp m h
      omega
    simp [hget, hmark]
  · rw [hget]
    exact append_refs l path id m

/-! ## Taking references back -/

/-- Removing references changes the balances of entries and drops some. -/
theorem remove_entries (l : Ledger) (path : String) :
    ∀ e ∈ (l.remove path).entries, ∃ e' ∈ l.entries, e'.ident = e.ident ∧ e'.path = e.path := by
  intro e he
  rw [remove] at he
  split at he
  · exact ⟨e, he, rfl, rfl⟩
  · split at he
    · exact ⟨e, he, rfl, rfl⟩
    · split at he
      · exact ⟨e, mem_of_mem_filter he, rfl, rfl⟩
      · obtain ⟨e', he', rfl⟩ := mem_map.1 he
        refine ⟨e', he', ?_⟩
        split <;> exact ⟨rfl, rfl⟩

theorem retractAll_entries (l : Ledger) (ids : List Ident) :
    ∀ e ∈ (l.retractAll ids).1.entries, ∃ e' ∈ l.entries, e'.ident = e.ident ∧ e'.path = e.path := by
  induction ids generalizing l with
  | nil => exact fun e he => ⟨e, he, rfl, rfl⟩
  | cons id ids ih =>
    intro e he
    have hone : ∀ e ∈ (l.retractOne id).1.entries,
        ∃ e' ∈ l.entries, e'.ident = e.ident ∧ e'.path = e.path := by
      rw [retractOne]
      split
      · exact l.remove_entries _
      · exact fun e he => ⟨e, he, rfl, rfl⟩
    obtain ⟨e', he', hident, hpath⟩ := ih (l.retractOne id).1 e he
    obtain ⟨e'', he'', hident', hpath'⟩ := hone e' he'
    exact ⟨e'', he'', hident'.trans hident, hpath'.trans hpath⟩

/-- A counted alias is live. -/
theorem exists_live (hl : l.Sound base) (hbase : base ≤ m) (hpos : 0 < l.refs m)
    (hid : id.mark = some m) :
    ∃ e n, l.livePath? id = some e.path ∧ l.at? e.path = some e ∧ e.balance = .counted n ∧
      e.ident.mark = some m := by
  obtain ⟨x, hx, hrefs⟩ := ImportEntry.exists_pos_of_allRefs_pos hpos
  have hmark : x.ident.mark = some m := by
    by_contra hne
    simp [ImportEntry.refs, hne] at hrefs
  cases hfind : l.entries.find? (·.ident.mark == some m) with
  | none => simpa [hmark] using find?_eq_none.1 hfind x hx
  | some e =>
    have he := mem_of_find?_eq_some hfind
    have hem : e.ident.mark = some m := by simpa using find?_some hfind
    refine ⟨e, e.balance.refs, by simp [livePath?, hid, hfind], at?_of_mem hl.paths he, ?_, hem⟩
    cases hb : e.balance with
    | counted n => rfl
    | permanent =>
      have := hl.permanent e he hb m hem
      omega

theorem retractOne_counted (hl : l.Sound base) (hbase : base ≤ m) (hpos : 0 < l.refs m)
    (hid : id.mark = some m) :
    (l.retractOne id).2 = none ∧ Keeps base l (l.retractOne id).1 ∧
      ∀ k, (l.retractOne id).1.refs k + occurrences k [id] = l.refs k := by
  obtain ⟨e, n, hlive, he, hn, hmark⟩ := exists_live hl hbase hpos hid
  have hone : l.retractOne id = (l.remove e.path, none) := by simp [retractOne, hlive]
  rw [hone]
  refine ⟨rfl, remove_keeps hl he hn, fun k => ?_⟩
  have hremove := remove_refs hl he hn k
  simpa [hid, hmark] using hremove

/-- An identifier that is no alias is passed over. -/
theorem retractOne_foreign (hl : l.Sound base)
    (hid : ∀ a ∈ l.aliases, a.mark ≠ id.mark) : l.retractOne id = (l, none) := by
  have hretired : l.retiredPath? id = none := by
    simp only [retiredPath?, Option.bind_eq_none_iff, Option.map_eq_none_iff, find?_eq_none]
    intro m hm r hr
    have := hid r.1 (mem_append_right _ (mem_map_of_mem hr))
    simpa [hm] using this
  cases hlive : l.livePath? id with
  | none => simp [retractOne, hlive, hretired]
  | some path =>
    -- Only an import of the file itself has the mark, and that one is never removed.
    simp only [livePath?, Option.bind_eq_some_iff, Option.map_eq_some_iff] at hlive
    obtain ⟨m, hm, e, hfind, rfl⟩ := hlive
    have he := mem_of_find?_eq_some hfind
    have hmark : e.ident.mark = some m := by simpa using find?_some hfind
    have hentry := at?_of_mem hl.paths he
    cases hb : e.balance with
    | counted n => exact absurd (hmark.trans hm.symm) (hid e.ident (mem_aliases_of_counted he hb))
    | permanent => simp [retractOne, livePath?, hm, hfind, remove, hentry, hb]

/-- Taking back occurrences of which none is in excess. Aliases may have the marks `own`. -/
theorem retractAll_spec {own : Nat → Prop} (hown : ∀ m, own m → base ≤ m) (ids : List Ident) :
    ∀ l : Ledger, l.Sound base → (∀ a ∈ l.aliases, ∀ m, a.mark = some m → own m) →
      (∀ m, own m → occurrences m ids ≤ l.refs m) →
      (l.retractAll ids).2 = none ∧ Keeps base l (l.retractAll ids).1 ∧
        ∀ m, own m → (l.retractAll ids).1.refs m + occurrences m ids = l.refs m := by
  induction ids with
  | nil => exact fun l hl _ _ => ⟨rfl, .refl hl, fun m _ => rfl⟩
  | cons id ids ih =>
    intro l hl haliases hle
    by_cases hid : ∃ m, id.mark = some m ∧ own m
    · obtain ⟨m, hm, hmown⟩ := hid
      have hpos : 0 < l.refs m := by
        have := hle m hmown
        simp only [occurrences_cons, hm, if_true] at this
        omega
      obtain ⟨hnone, hkeeps, hrefs⟩ := retractOne_counted hl (hown m hmown) hpos hm
      obtain ⟨hnone', hkeeps', hrefs'⟩ := ih (l.retractOne id).1 hkeeps.sound
        (fun a ha => haliases a (hkeeps.aliases.subset ha)) fun k hk => by
          have := hle k hk
          have := hrefs k
          simp only [occurrences_cons, occurrences_nil] at *
          omega
      refine ⟨by simp [retractAll, hnone, hnone'], hkeeps.trans hkeeps', fun k hk => ?_⟩
      have := hrefs k
      have := hrefs' k hk
      simp only [retractAll, occurrences_cons, occurrences_nil] at *
      omega
    · have hforeign : ∀ a ∈ l.aliases, a.mark ≠ id.mark := by
        intro a ha heq
        obtain ⟨m, hm, -⟩ := hl.marked a ha
        exact hid ⟨m, heq ▸ hm, haliases a ha m hm⟩
      have hzero : ∀ m, own m → ¬ id.mark = some m := fun m hm h => hid ⟨m, h, hm⟩
      have hone := retractOne_foreign hl hforeign
      obtain ⟨hnone, hkeeps, hrefs⟩ := ih l hl haliases fun m hm => by
        simpa [hzero m hm] using hle m hm
      refine ⟨by simp [retractAll, hone, hnone], by simpa [retractAll, hone] using hkeeps,
        fun m hm => ?_⟩
      simpa [retractAll, hone, hzero m hm] using hrefs m hm

/-! ## Live and retired aliases -/

theorem refs_of_retired (hl : l.Sound base) (hmarks : (l.aliases.map (·.mark)).Nodup) {a : Ident}
    (ha : a ∈ l.retired.map (·.1)) (hm : a.mark = some m) : l.refs m = 0 := by
  by_contra hne
  have hmem : a ∈ l.aliases := mem_append_right _ ha
  obtain ⟨k, hk, hbase⟩ := hl.marked a hmem
  obtain rfl : k = m := by simpa [hm] using hk.symm
  obtain ⟨e, n, -, he, hn, hmark⟩ := exists_live hl hbase (Nat.pos_of_ne_zero hne) hm
  have hcounted : e.ident ∈ l.counted.map (·.ident) :=
    mem_map_of_mem (mem_filter.2 ⟨at?_mem he, by simp [ImportEntry.isCounted, hn]⟩)
  rw [aliases, map_append] at hmarks
  have hdisjoint := (nodup_append'.1 hmarks).2.2
  exact hdisjoint (mem_map_of_mem hcounted)
    (hmark.trans hm.symm ▸ mem_map_of_mem ha)

theorem refs_of_at? (hl : l.Sound base) (hmarks : (l.aliases.map (·.mark)).Nodup) {n : Nat}
    (he : l.at? path = some e) (hn : e.balance = .counted n) (hm : e.ident.mark = some m) :
    l.refs m = n := by
  have hdrop := drop_keeps hl he hn
  have hzero : (l.drop e).refs m = 0 :=
    refs_of_retired hdrop.sound ((hdrop.aliases.map _).nodup_iff.2 hmarks) mem_cons_self hm
  have hrefs := drop_refs hl he m
  rw [hzero, ImportEntry.refs, if_pos hm, hn] at hrefs
  exact hrefs.symm.trans (Nat.zero_add _)

theorem counted_of_path (hl : l.Sound base) (path : String) :
    l.counted.filter (·.path = path) = (l.at? path).toList.filter (·.isCounted) := by
  rw [counted, filter_filter]
  cases he : l.at? path with
  | none =>
    refine filter_eq_nil_iff.2 fun x hx => ?_
    have : x.path ≠ path := by simpa using find?_eq_none.1 he x hx
    simp [this]
  | some e =>
    obtain ⟨as, bs, hsplit, -, -, hne⟩ := exists_split hl.paths he
    have hleft : as.filter (fun x => x.path = path && x.isCounted) = [] :=
      filter_eq_nil_iff.2 fun x hx => by simp [hne x (mem_append_left _ hx)]
    have hright : bs.filter (fun x => x.path = path && x.isCounted) = [] :=
      filter_eq_nil_iff.2 fun x hx => by simp [hne x (mem_append_right _ hx)]
    simp [hsplit, filter_cons, hleft, hright, at?_path he]

end Ledger

end ExtensionLowering
