import ExtensionLowering.Proofs.Import.Balance
import ExtensionLowering.Proofs.Lowering.Walk
/-!
# The account of a lowering

The identifiers that lowering synthesizes are the aliases of imports and the others: the trace
constant, the names of derivations, the pinned copies and the aliases of declarations. In a sound
state they have names and marks of their own. The account of a run says that soundness is kept, that
nothing synthesized is forgotten and that the ledger has counted exactly the occurrences that the
run put into the tree. It is a tracking, so it holds of lowering any tree.
-/
namespace ExtensionLowering

open List

variable {own : List (Ident × String)}

/-- An identifier that is none of those synthesized with marks from `base` on. -/
def Ident.GivenBelow (base : Nat) (id : Ident) : Prop :=
  ∀ m, id.mark = some m → m < base

/-- Retracting changes the ledger, and at most adds an error. -/
theorem Lower.retract_run (env : Env) (dead : Expr) (s : Lowering) :
    ∃ errors, ((Lower.retract env dead).run s).2 =
      { s with ledger := (s.ledger.retractAll dead.idents).1, errors } := by
  change ∃ errors, (Id.run ((Lower.retract env dead).run s)).2 = _
  have hledger : (s.ledger.retractReporting (.expr dead)).1 =
      (s.ledger.retractAll dead.idents).1 := rfl
  cases hexcess : (s.ledger.retractReporting (.expr dead)).2 with
  | none => exact ⟨s.errors, by simp [Lower.retract, hexcess, hledger]⟩
  | some d =>
    exact ⟨s.errors ++ [d.orFile env.fileName], by simp [Lower.retract, fail, hexcess, hledger]⟩

namespace Lowering

variable {base : Nat} {reserved : List String} {s t u : Lowering}

/-- The synthesized identifiers that are no aliases of imports. -/
def others (s : Lowering) : List Ident :=
  s.traceVar.toList ++ s.names.derivations.map (·.2) ++ s.pinned.map (·.2) ++
    s.names.aliases.map (·.2.ident)

/-- All identifiers synthesized so far. -/
def synthesized (s : Lowering) : List Ident :=
  s.ledger.aliases ++ s.others

/-- Synthesized identifiers have marks of their own from `base` on, and names of their own that are
not among the reserved ones; the names taken are these and the reserved ones. -/
structure Sound (base : Nat) (reserved : List String) (s : Lowering) : Prop where
  ledger : s.ledger.Sound base
  issued : base ≤ s.names.supply.issued
  marked : ∀ id ∈ s.synthesized, ∃ m, id.mark = some m ∧ base ≤ m ∧ m < s.names.supply.issued
  marks : (s.synthesized.map (·.mark)).Nodup
  taken : s.names.supply.taken.Perm (s.synthesized.map (·.name) ++ reserved)
  names : (s.synthesized.map (·.name)).Nodup
  apart : ∀ id ∈ s.synthesized, id.name ∉ reserved

/-- A step that synthesizes nothing. -/
theorem Sound.step (hs : s.Sound base reserved) (hsupply : t.names.supply = s.names.supply)
    (hsynth : t.synthesized.Perm s.synthesized) (hledger : t.ledger.Sound base) :
    t.Sound base reserved where
  ledger := hledger
  issued := hsupply ▸ hs.issued
  marked id hid := hsupply ▸ hs.marked id (hsynth.subset hid)
  marks := (hsynth.map _).nodup_iff.2 hs.marks
  taken := hsupply ▸ hs.taken.trans ((hsynth.map _).symm.append_right _)
  names := (hsynth.map _).nodup_iff.2 hs.names
  apart id hid := hs.apart id (hsynth.subset hid)

/-- A step that synthesizes one identifier. -/
theorem Sound.issue (hs : s.Sound base reserved) {id : Ident}
    (hissues : s.names.supply.Issues id t.names.supply)
    (hsynth : t.synthesized.Perm (id :: s.synthesized)) (hledger : t.ledger.Sound base) :
    t.Sound base reserved := by
  have hfree : id.name ∉ s.synthesized.map (·.name) ++ reserved :=
    fun h => hissues.fresh (hs.taken.symm.subset h)
  rw [mem_append, not_or] at hfree
  have hmark : id.mark ∉ s.synthesized.map (·.mark) := by
    intro h
    obtain ⟨x, hx, hxm⟩ := mem_map.1 h
    obtain ⟨m, hm, -, hlt⟩ := hs.marked x hx
    have : some m = some s.names.supply.issued := by rw [← hm, hxm, hissues.mark]
    simp only [Option.some.injEq] at this
    omega
  refine ⟨hledger, ?_, fun x hx => ?_, ?_, ?_, ?_, fun x hx => ?_⟩
  · have := hs.issued
    rw [hissues.issued]
    omega
  · rw [hissues.issued]
    obtain rfl | hx := mem_cons.1 (hsynth.subset hx)
    · exact ⟨_, hissues.mark, hs.issued, by omega⟩
    · obtain ⟨m, hm, hbase, hlt⟩ := hs.marked x hx
      exact ⟨m, hm, hbase, by omega⟩
  · exact (hsynth.map _).nodup_iff.2 (nodup_cons.2 ⟨hmark, hs.marks⟩)
  · rw [hissues.taken]
    exact (hs.taken.cons _).trans ((hsynth.map _).symm.append_right _)
  · exact (hsynth.map _).nodup_iff.2 (nodup_cons.2 ⟨hfree.1, hs.names⟩)
  · obtain rfl | hx := mem_cons.1 (hsynth.subset hx)
    · exact hfree.2
    · exact hs.apart x hx

/-- The aliases of imports share neither marks nor names with the other synthesized identifiers. -/
theorem Sound.alias_mark_ne (hs : s.Sound base reserved) {a b : Ident} (ha : a ∈ s.ledger.aliases)
    (hb : b ∈ s.others) : a.mark ≠ b.mark := by
  have hdisjoint := (nodup_append'.1 (map_append ▸ hs.marks)).2.2
  exact fun h => hdisjoint (mem_map_of_mem ha) (h ▸ mem_map_of_mem hb)

theorem Sound.alias_name_ne (hs : s.Sound base reserved) {a b : Ident} (ha : a ∈ s.ledger.aliases)
    (hb : b ∈ s.others) : a.name ≠ b.name := by
  have hdisjoint := (nodup_append'.1 (map_append ▸ hs.names)).2.2
  exact fun h => hdisjoint (mem_map_of_mem ha) (h ▸ mem_map_of_mem hb)

/-- Asking for a name hands out one of the others again or synthesizes one more. -/
inductive Supplies (s : Lowering) (id : Ident) : Lowering → Prop where
  | again (h : id ∈ s.others) : Supplies s id s
  | anew {t : Lowering} (issues : s.names.supply.Issues id t.names.supply)
      (others : t.others.Perm (id :: s.others)) (ledger : t.ledger = s.ledger)
      (errors : t.errors = s.errors) : Supplies s id t

namespace Supplies

theorem exportAlias (name : String) (exported : Bool) (s : Lowering) :
    Supplies s ((Lower.exportAlias name exported).run s).1
      ((Lower.exportAlias name exported).run s).2 := by
  rw [Lower.exportAlias_run, NameTable.exportAlias]
  cases ha : s.names.alias? name with
  | some a => exact .again (mem_append_right _ (mem_map_of_mem (mem_of_lookup ha)))
  | none =>
    refine .anew (s.names.supply.next_issues name) (perm_of_count fun i => ?_) rfl rfl
    simp [Lowering.others, count_cons]
    omega

theorem reuseDerivation {d : Option DerivId} {id : Ident} (hid : s.names.derivation? d = some id) :
    Supplies s id s := by
  have hmem := mem_map_of_mem (f := (·.2)) (mem_of_lookup hid)
  refine .again ?_
  simp only [Lowering.others, mem_append]
  exact .inl (.inl (.inr hmem))

theorem derivationName (d : DerivId) (s : Lowering) :
    Supplies s ((Lower.derivationName d).run s).1 ((Lower.derivationName d).run s).2 := by
  rw [Lower.derivationName_run, NameTable.derivationName]
  cases hd : s.names.derivation? (some d) with
  | some id => exact reuseDerivation hd
  | none =>
    refine .anew (s.names.supply.next_issues "derived") (perm_of_count fun i => ?_) rfl rfl
    simp [Lowering.others, count_cons]
    omega

theorem traceVar (s : Lowering) : Supplies s (Lower.traceVar.run s).1 (Lower.traceVar.run s).2 := by
  cases hv : s.traceVar with
  | some id =>
    rw [Lower.traceVar_of_some hv]
    exact .again (by simp [Lowering.others, hv])
  | none =>
    rw [Lower.traceVar_of_none hv]
    refine .anew (s.names.supply.next_issues "fileName") ?_ rfl rfl
    simp [Lowering.others, hv]

theorem reusePin {d : DeclId} {id : Ident} (hid : s.pinned.lookup d = some id) :
    Supplies s id s := by
  have hmem := mem_map_of_mem (f := (·.2)) (mem_of_lookup hid)
  refine .again ?_
  simp only [Lowering.others, mem_append]
  exact .inl (.inr hmem)

theorem pinName (d : DeclId) (name : String) (s : Lowering) :
    Supplies s ((Lower.pinName d name).run s).1 ((Lower.pinName d name).run s).2 := by
  have hrun : (Lower.pinName d name).run s =
      ((s.names.supply.next name).1,
        { s with
          names := { s.names with supply := (s.names.supply.next name).2 }
          pinned := (d, (s.names.supply.next name).1) :: s.pinned }) := rfl
  rw [hrun]
  refine .anew (s.names.supply.next_issues name) (perm_of_count fun i => ?_) rfl rfl
  simp [Lowering.others, count_cons]
  omega

variable {t : Lowering} {id : Ident}

theorem ledger (h : Supplies s id t) : t.ledger = s.ledger := by
  cases h with
  | again => rfl
  | anew _ _ hledger => exact hledger

theorem issued_le (h : Supplies s id t) : s.names.supply.issued ≤ t.names.supply.issued := by
  cases h with
  | again => exact Nat.le_refl _
  | anew hissues => exact hissues.issued ▸ Nat.le_succ _

/-- What holds of the others and of whatever is issued holds of what is supplied. -/
theorem forall_others (h : Supplies s id t) {P : Ident → Prop} (hothers : ∀ x ∈ s.others, P x)
    (hissued : ∀ x supply, s.names.supply.Issues x supply → P x) :
    (∀ x ∈ t.others, P x) ∧ P id := by
  cases h with
  | again hid => exact ⟨hothers, hothers id hid⟩
  | anew hissues hperm =>
    have hid := hissued id _ hissues
    refine ⟨fun x hx => ?_, hid⟩
    obtain rfl | hx := mem_cons.1 (hperm.subset hx)
    · exact hid
    · exact hothers x hx

end Supplies

/-- What a run that put `ids` into the tree has done. -/
structure Accounts (base : Nat) (reserved : List String) (s : Lowering) (ids : List Ident)
    (t : Lowering) : Prop where
  sound : t.Sound base reserved
  others : s.others ⊆ t.others
  synthesized : s.synthesized ⊆ t.synthesized
  permanent : ∀ e ∈ t.ledger.entries, e.balance = .permanent → e ∈ s.ledger.entries
  known : ∀ id ∈ ids, id.GivenBelow base ∨ id ∈ t.synthesized
  refs : ∀ m, base ≤ m → (∀ id ∈ t.others, id.mark ≠ some m) →
    t.ledger.refs m = s.ledger.refs m + occurrences m ids
  errors : (∀ d ∈ s.errors, d.code ≠ .ledgerBroken) → ∀ d ∈ t.errors, d.code ≠ .ledgerBroken

namespace Accounts

variable {id : Ident}

theorem still (hs : s.Sound base reserved) {ids : List Ident}
    (h : ∀ id ∈ ids, id.GivenBelow base) : Accounts base reserved s ids s where
  sound := hs
  others := List.Subset.refl _
  synthesized := List.Subset.refl _
  permanent _ he _ := he
  known id hid := .inl (h id hid)
  refs m hm _ := by
    have hzero : occurrences m ids = 0 := occurrences_eq_zero.2 fun id hid hmark => by
      have := h id hid m hmark
      omega
    rw [hzero, Nat.add_zero]
  errors h := h

theorem trans {a b : List Ident} (h : Accounts base reserved s a t)
    (h' : Accounts base reserved t b u) : Accounts base reserved s (a ++ b) u where
  sound := h'.sound
  others := List.Subset.trans h.others h'.others
  synthesized := List.Subset.trans h.synthesized h'.synthesized
  permanent e he hp := h.permanent e (h'.permanent e he hp) hp
  known id hid := by
    obtain hid | hid := mem_append.1 hid
    · exact (h.known id hid).imp_right fun hmem => h'.synthesized hmem
    · exact h'.known id hid
  refs m hm hforeign := by
    rw [h'.refs m hm hforeign, h.refs m hm fun id hid => hforeign id (h'.others hid),
      occurrences_append, Nat.add_assoc]
  errors herr := h'.errors (h.errors herr)

theorem perm {a b : List Ident} (h : Accounts base reserved s a t) (hab : a.Perm b) :
    Accounts base reserved s b t :=
  { h with
    known := fun id hid => h.known id (hab.symm.subset hid)
    refs := fun m hm hforeign => occurrences_perm hab m ▸ h.refs m hm hforeign }

section

variable (hs : s.Sound base reserved)
include hs

/-- A step that changes neither names nor imports. -/
theorem report (hnames : t.names = s.names)
    (hledger : t.ledger = s.ledger) (hothers : t.others = s.others)
    (herrors : (∀ d ∈ s.errors, d.code ≠ .ledgerBroken) → ∀ d ∈ t.errors, d.code ≠ .ledgerBroken) :
    Accounts base reserved s [] t := by
  have hsynth : t.synthesized = s.synthesized := by rw [Lowering.synthesized, hledger, hothers]; rfl
  exact
    { sound := hs.step (by rw [hnames]) (.of_eq hsynth) (hledger ▸ hs.ledger)
      others := by rw [hothers]; exact List.Subset.refl _
      synthesized := by rw [hsynth]; exact List.Subset.refl _
      permanent := fun e he _ => hledger ▸ he
      known := by simp
      refs := fun m _ _ => by rw [hledger]; rfl
      errors := herrors }

/-- One of the others occurs once more. -/
theorem reuse (hid : id ∈ s.others) : Accounts base reserved s [id] s where
  sound := hs
  others := List.Subset.refl _
  synthesized := List.Subset.refl _
  permanent _ he _ := he
  known x hx := by
    obtain rfl := mem_singleton.1 hx
    exact .inr (mem_append_right _ hid)
  refs m _ hforeign := by simp [hforeign id hid]
  errors h := h

/-- One more of the others is synthesized and occurs. -/
theorem issue (hissues : s.names.supply.Issues id t.names.supply)
    (hothers : t.others.Perm (id :: s.others)) (hledger : t.ledger = s.ledger)
    (herrors : t.errors = s.errors) : Accounts base reserved s [id] t := by
  have hsynth : t.synthesized.Perm (id :: s.synthesized) := by
    rw [Lowering.synthesized, hledger]
    exact (hothers.append_left _).trans perm_middle
  have hmem : id ∈ t.others := hothers.symm.subset mem_cons_self
  exact
    { sound := hs.issue hissues hsynth (hledger ▸ hs.ledger)
      others := fun x hx => hothers.symm.subset (mem_cons_of_mem _ hx)
      synthesized := fun x hx => hsynth.symm.subset (mem_cons_of_mem _ hx)
      permanent := fun e he _ => hledger ▸ he
      known := fun x hx => by
        obtain rfl := mem_singleton.1 hx
        exact .inr (mem_append_right _ hmem)
      refs := fun m _ hforeign => by simp [hledger, hforeign id hmem]
      errors := fun h => herrors ▸ h }

theorem importAlias (path : String) :
    Accounts base reserved s [((Lower.importAlias path).run s).1]
      ((Lower.importAlias path).run s).2 := by
  have hrefs := fun m hm => s.ledger.get_refs hs.ledger s.names.supply path (m := m) hm
  rw [Lower.importAlias_run]
  obtain ⟨e, n, he, hn, hget⟩ | ⟨e, he, hp, hget⟩ | ⟨hpath, id, supply, hissues, hget⟩ :=
    s.ledger.get_cases s.names.supply path
  · simp only [hget] at hrefs ⊢
    have hkeeps := Ledger.setBalance_keeps hs.ledger he hn (Nat.succ_pos n)
    have hsynth := hkeeps.aliases.append_right s.others
    have hmem := Ledger.mem_aliases_of_counted (Ledger.at?_mem he) hn
    exact
      { sound := hs.step rfl hsynth hkeeps.sound
        others := List.Subset.refl _
        synthesized := hsynth.symm.subset
        permanent := hkeeps.permanent
        known := fun x hx => by
          obtain rfl := mem_singleton.1 hx
          exact .inr (mem_append_left _ (hkeeps.aliases.symm.subset hmem))
        refs := fun m hm _ => hrefs m hm
        errors := fun h => h }
  · simp only [hget] at hrefs ⊢
    refine .still hs fun x hx => ?_
    obtain rfl := mem_singleton.1 hx
    exact hs.ledger.permanent e (Ledger.at?_mem he) hp
  · simp only [hget] at hrefs ⊢
    have hledger := Ledger.append_sound hs.ledger hpath hissues.mark hs.issued
    have haliases := Ledger.append_aliases s.ledger path id
    have hsynth := haliases.append_right s.others
    exact
      { sound := hs.issue hissues hsynth hledger
        others := List.Subset.refl _
        synthesized := fun x hx => hsynth.symm.subset (mem_cons_of_mem _ hx)
        permanent := fun e he hp => by
          obtain he | he := mem_append.1 he
          · exact he
          · obtain rfl := mem_singleton.1 he
            cases hp
        known := fun x hx => by
          obtain rfl := mem_singleton.1 hx
          exact .inr (mem_append_left _ (haliases.symm.subset mem_cons_self))
        refs := fun m hm _ => hrefs m hm
        errors := fun h => h }

theorem supplies (h : Supplies s id t) : Accounts base reserved s [id] t := by
  cases h with
  | again hid => exact reuse hs hid
  | anew hissues hothers hledger herrors => exact issue hs hissues hothers hledger herrors

end

/-- What a dropped expression holds is among what has been counted, so nothing is in excess. -/
theorem retract {ids : List Ident} (env : Env) (dead : Expr)
    (h : Accounts base reserved s (ids ++ dead.idents) t) :
    Accounts base reserved s ids ((Lower.retract env dead).run t).2 := by
  let own m := base ≤ m ∧ ∀ id ∈ t.others, id.mark ≠ some m
  have haliases : ∀ a ∈ t.ledger.aliases, ∀ m, a.mark = some m → own m := by
    intro a ha m hm
    obtain ⟨k, hk, hbase⟩ := h.sound.ledger.marked a ha
    obtain rfl : k = m := by simpa [hm] using hk.symm
    exact ⟨hbase, fun id hid heq => h.sound.alias_mark_ne ha hid (hm.trans heq.symm)⟩
  have hle : ∀ m, own m → occurrences m dead.idents ≤ t.ledger.refs m := by
    intro m hm
    have := h.refs m hm.1 hm.2
    rw [occurrences_append] at this
    omega
  obtain ⟨hnone, hkeeps, hrefs⟩ :=
    Ledger.retractAll_spec (fun m hm => hm.1) dead.idents t.ledger h.sound.ledger haliases hle
  have hrun : ((Lower.retract env dead).run t).2 =
      { t with ledger := (t.ledger.retractAll dead.idents).1 } := by
    have hreport : t.ledger.retractReporting (.expr dead) =
        ((t.ledger.retractAll dead.idents).1, none) := by
      simp [Ledger.retractReporting, Ledger.retract, hnone]
    simp only [Lower.retract, StateT.run_bind, StateT.run_get, pure_bind, hreport]
    rfl
  have hsynth := hkeeps.aliases.append_right t.others
  rw [hrun]
  exact
    { sound := h.sound.step rfl hsynth hkeeps.sound
      others := h.others
      synthesized := List.Subset.trans h.synthesized hsynth.symm.subset
      permanent := fun e he hp => h.permanent e (hkeeps.permanent e he hp) hp
      known := fun id hid => (h.known id (mem_append_left _ hid)).imp_right fun hmem =>
        hsynth.symm.subset hmem
      refs := fun m hm hforeign => by
        have hbefore := h.refs m hm hforeign
        have hafter := hrefs m ⟨hm, hforeign⟩
        rw [occurrences_append] at hbefore
        dsimp only
        omega
      errors := h.errors }

end Accounts

/-- Every elementary step of lowering keeps the account. -/
theorem accounts_tracking (base : Nat) (reserved : List String) :
    Lower.Tracking (fun s ids t => s.Sound base reserved → Accounts base reserved s ids t)
      (Ident.GivenBelow base) where
  synthetic name m hm := by cases hm
  still h hs := .still hs h
  trans h h' hs := (h hs).trans (h' (h hs).sound)
  perm h hab hs := (h hs).perm hab
  fail env d s hd hs := by
    refine .report hs rfl rfl rfl fun herr x hx => ?_
    obtain hx | hx := mem_append.1 hx
    · exact herr x hx
    · obtain rfl := mem_singleton.1 hx
      rw [Diagnostic.orFile]
      split <;> exact hd
  giveUp s hs := .report hs rfl rfl rfl fun herr => herr
  importAlias path s hs := .importAlias hs path
  exportAlias name exported s hs := .supplies hs (.exportAlias name exported s)
  derivationName d s hs := .supplies hs (.derivationName d s)
  traceVar s hs := .supplies hs (.traceVar s)
  pinName d name s _ hs := .supplies hs (.pinName d name s)
  reusePin d id s hid hs := .supplies hs (.reusePin hid)
  reuseDerivation d id s hid hs := .supplies hs (.reuseDerivation hid)
  retract env dead h hs := .retract env dead (h hs)

end Lowering

/-! ## Whole files -/

theorem le_foldl_max (ms : List Nat) (n : Nat) :
    n ≤ ms.foldl (fun n m => max n (m + 1)) n ∧
      ∀ m ∈ ms, m < ms.foldl (fun n m => max n (m + 1)) n := by
  induction ms generalizing n with
  | nil => simp
  | cons k ms ih =>
    obtain ⟨hle, hlt⟩ := ih (max n (k + 1))
    rw [foldl_cons]
    refine ⟨by omega, fun m hm => ?_⟩
    obtain rfl | hm := mem_cons.1 hm
    · omega
    · exact hlt m hm

theorem File.idents_givenBelow (f : File) :
    ∀ id ∈ (Node.file f).idents, id.GivenBelow f.freeMark := by
  intro id hid m hm
  exact (le_foldl_max _ 0).2 m (mem_filterMap.2 ⟨id, hid, hm⟩)

/-- A ledger that knows imports of the file itself only, which are among `own`. -/
structure Ledger.Initial (own : List (Ident × String)) (l : Ledger) : Prop where
  retired : l.retired = []
  paths : (l.entries.map (·.path)).Nodup
  permanent : ∀ e ∈ l.entries, e.balance = .permanent ∧ (e.ident, e.path) ∈ own

theorem Ledger.Initial.add {l : Ledger} (h : l.Initial own)
    {b : Ident × String} (hb : b ∈ own) : (l.add b.1 b.2).Initial own := by
  cases he : l.at? b.2 with
  | none =>
    have hnew : ∀ e ∈ l.entries, e.path ≠ b.2 := fun e hmem => by
      simpa using List.find?_eq_none.1 he e hmem
    have hadd : l.add b.1 b.2 = { l with entries := l.entries ++ [⟨b.2, b.1, .permanent⟩] } := by
      simp [Ledger.add, he]
    rw [hadd]
    refine ⟨h.retired, ?_, fun e hmem => ?_⟩
    · rw [map_append]
      refine nodup_append'.2 ⟨h.paths, nodup_singleton _, ?_⟩
      simpa [disjoint_singleton] using hnew
    · obtain hmem | hmem := mem_append.1 hmem
      · exact h.permanent e hmem
      · obtain rfl := mem_singleton.1 hmem
        exact ⟨rfl, hb⟩
  | some e =>
    have hadd : l.add b.1 b.2 = l := by
      simp [Ledger.add, he, ImportEntry.isCounted, (h.permanent e (Ledger.at?_mem he)).1]
    rwa [hadd]

theorem Ledger.Initial.refs {l : Ledger} (h : l.Initial own) (m : Nat) : l.refs m = 0 := by
  by_contra hne
  obtain ⟨e, he, hpos⟩ := ImportEntry.exists_pos_of_allRefs_pos (Nat.pos_of_ne_zero hne)
  simp [ImportEntry.refs, (h.permanent e he).1, Balance.refs] at hpos

theorem File.ledger_initial (f : File) :
    f.ledger.Initial (f.stmts.filterMap Stmt.namespaceImport?) := by
  have hadds : ∀ (own bs : List (Ident × String)) (l : Ledger), bs ⊆ own → l.Initial own →
      (bs.foldl (fun l b => l.add b.1 b.2) l).Initial own := by
    intro own bs
    induction bs with
    | nil => exact fun l _ hl => hl
    | cons b bs ih =>
      intro l hsub hl
      exact ih _ (fun x hx => hsub (mem_cons_of_mem _ hx)) (hl.add (hsub mem_cons_self))
  exact hadds _ _ _ (List.Subset.refl _) ⟨rfl, nodup_nil, by simp⟩

theorem Stmt.namespaceImport?_mem {s : Stmt} {b : Ident × String}
    (h : s.namespaceImport? = some b) : b.1 ∈ s.idents := by
  unfold namespaceImport? at h
  split at h
  · cases h
    simp
  · cases h

namespace Session

variable (session : Session)

theorem start_synthesized (f : File) : (session.start f).synthesized = [] := by
  have hinitial := f.ledger_initial
  have hcounted : f.ledger.counted = [] := filter_eq_nil_iff.2 fun e he => by
    simp [ImportEntry.isCounted, (hinitial.permanent e he).1]
  simp [start, Lowering.synthesized, Lowering.others, Ledger.aliases, hcounted, hinitial.retired,
    NameTable.beginFile, NameTable.begin]

theorem start_sound (f : File) : (session.start f).Sound f.freeMark f.names := by
  have hsynth := start_synthesized session f
  have hinitial := f.ledger_initial
  have haliases : f.ledger.aliases = [] := (append_eq_nil_iff.1 hsynth).1
  refine ⟨⟨hinitial.paths, fun e he n hn => ?_, fun e he _ => ?_, ?_⟩, Nat.le_refl _,
    ?_, ?_, ?_, ?_, ?_⟩
  · rw [(hinitial.permanent e he).1] at hn
    cases hn
  · obtain ⟨s, hs, himport⟩ := mem_filterMap.1 (hinitial.permanent e he).2
    exact f.idents_givenBelow e.ident (f.mem_idents hs (Stmt.namespaceImport?_mem himport))
  · exact fun id hid => by simp [start, haliases] at hid
  · simp [hsynth]
  · simp [hsynth]
  · rw [hsynth]
    exact .of_eq (append_nil _)
  · simp [hsynth]
  · simp [hsynth]

/-- The aliases that the walk has handed out. -/
abbrev aliases (session : Session) (f : File) : Aliases :=
  (session.walk f).2.names.aliases

/-- The pinned copies. -/
abbrev copies (session : Session) (f : File) : List Ident :=
  (session.walk f).2.pinned.map (·.2)

/-- What the lowered statements declare. -/
abbrev declared (session : Session) (f : File) : List (Option Ident) :=
  (session.walk f).1.1.flatMap Aliases.declaredBy

/-- The identifiers of the lowered statements and of the pins that found no place. -/
def walkedIdents (session : Session) (f : File) : List Ident :=
  (session.walk f).1.1.flatMap Stmt.idents ++ (session.walk f).1.2.flatMap Pin.idents

/-- The account of lowering a file. -/
theorem walk_accounts (f : File) :
    Lowering.Accounts f.freeMark f.names (session.start f)
      (session.walkedIdents f) (session.walk f).2 := by
  have T := Lowering.accounts_tracking f.freeMark f.names
  have hfile := T.file_carries (session.env f) (by simp [env, Env.TraceIs]) f f.idents_givenBelow
  exact hfile [] _ _ (T.still (by simp)) (session.start_sound f)

end Session

end ExtensionLowering
