import ExtensionLowering.Config.Basic
import ExtensionLowering.Proofs.Path.Clean
import Mathlib.Logic.Function.Iterate
/-!
# Finding the configuration

The configuration of a directory is looked for in the directory itself and then in those above it.
Going up is taking the directory part of a clean path from the root again and again; it changes
nothing only at the root, and gets there from everywhere. So the search sees every directory on the
way, the root included, and the file found is the preferred one in the deepest directory that has
any.

## Main definitions

* `Config.IsPreferred`: the first of the names for which there is a file in a directory.
-/
namespace ExtensionLowering

open List

namespace Path

variable {β : Type} {above : List String}

/-- The text of the path with these segments, the last one first. -/
def textOf (above : List String) : String :=
  Path.toString ⟨true, above.reverse⟩

theorem directory_textOf {s : String} (h : ∀ t ∈ s :: above, IsName t) :
    directory (textOf (s :: above)) = textOf above := by
  rw [textOf, reverse_cons]
  refine directory_rooted fun t ht => h t ?_
  rwa [← reverse_cons, mem_reverse] at ht

theorem ofString_textOf (h : ∀ t ∈ above, IsName t) :
    ofString (textOf above) = ⟨true, above.reverse⟩ :=
  ofString_toString (isClean_rooted.2 fun t ht => h t (mem_reverse.1 ht))

theorem iterate_root (n : Nat) : directory^[n] "/" = "/" :=
  Function.iterate_fixed directory_root n

theorem textOf_eq_root (h : ∀ t ∈ above, IsName t) : textOf above = "/" ↔ above = [] := by
  refine ⟨fun htext => ?_, fun hnil => hnil ▸ rfl⟩
  have hread := ofString_textOf h
  rw [htext, show ofString "/" = ⟨true, []⟩ from rfl] at hread
  simpa using (congrArg Path.segs hread).symm

/-- Going up arrives at the root, and stays where it is only there. -/
theorem iterate_directory (h : ∀ t ∈ above, IsName t) :
    directory^[above.length] (textOf above) = "/" ∧
      ∀ n, directory (directory^[n] (textOf above)) = directory^[n] (textOf above) ↔
        directory^[n] (textOf above) = "/" := by
  induction above with
  | nil =>
    refine ⟨rfl, fun n => ?_⟩
    have htext : directory^[n] (textOf []) = "/" := iterate_root n
    simp [htext, directory_root]
  | cons s above ih =>
    have habove : ∀ t ∈ above, IsName t := fun t ht => h t (mem_cons_of_mem _ ht)
    obtain ⟨hroot, hstays⟩ := ih habove
    have hup := directory_textOf h
    refine ⟨by rw [length_cons, Function.iterate_succ_apply, hup, hroot], fun n => ?_⟩
    cases n with
    | zero =>
      have hne : textOf above ≠ textOf (s :: above) := by
        intro heq
        have hread := congrArg ofString heq
        rw [ofString_textOf habove, ofString_textOf h] at hread
        simpa using congrArg (·.segs.length) hread
      simp [hup, hne, textOf_eq_root h]
    | succ n => simpa only [Function.iterate_succ_apply, hup] using hstays n

/-- `look` gives `b` at a directory on the way up from `start`, and nothing before. -/
def FirstUp (look : String → Option β) (start : String) (b : β) : Prop :=
  ∃ n, look (directory^[n] start) = some b ∧ ∀ m < n, look (directory^[m] start) = none

theorem firstUp_iff {look : String → Option β} {start : String} {b : β} :
    FirstUp look start b ↔
      look start = some b ∨ look start = none ∧ FirstUp look (directory start) b := by
  constructor
  · rintro ⟨n, hn, hbefore⟩
    cases n with
    | zero => exact .inl hn
    | succ n =>
      exact .inr ⟨hbefore 0 n.succ_pos, n, hn, fun m hm => hbefore (m + 1) (Nat.succ_lt_succ hm)⟩
  · rintro (hstart | ⟨hstart, n, hn, hbefore⟩)
    · exact ⟨0, hstart, nofun⟩
    · refine ⟨n + 1, hn, fun m hm => ?_⟩
      cases m with
      | zero => exact hstart
      | succ m => exact hbefore m (Nat.lt_of_succ_lt_succ hm)

/-- A search through the directories above a path looks at each of them in turn. -/
theorem findSome?_lineage (h : ∀ t ∈ above, IsName t) (look : String → Option β) (b : β) :
    (lineage above).findSome? (fun d => look d.toString) = some b ↔
      FirstUp look (textOf above) b := by
  induction above with
  | nil =>
    have htext : textOf [] = "/" := rfl
    rw [lineage, findSome?_cons, htext, firstUp_iff, directory_root, toString_root]
    cases hlook : look "/" with
    | some b' => simp
    | none =>
      have hnever : ¬ FirstUp look "/" b := by
        rintro ⟨n, hn, -⟩
        simp [iterate_root, hlook] at hn
      simp [hnever]
  | cons s above ih =>
    have hhead : Path.toString ⟨true, (s :: above).reverse⟩ = textOf (s :: above) := rfl
    rw [lineage, findSome?_cons, hhead, firstUp_iff, directory_textOf h,
      ← ih fun t ht => h t (mem_cons_of_mem _ ht)]
    cases look (textOf (s :: above)) <;> simp

theorem findSome?_lineage_eq_none (h : ∀ t ∈ above, IsName t) (look : String → Option β) :
    (lineage above).findSome? (fun d => look d.toString) = none ↔
      ∀ n, look (directory^[n] (textOf above)) = none := by
  induction above with
  | nil =>
    have htext : ∀ n, directory^[n] (textOf []) = "/" := iterate_root
    simp [lineage, htext, toString_root]
  | cons s above ih =>
    have hhead : Path.toString ⟨true, (s :: above).reverse⟩ = textOf (s :: above) := rfl
    have ih := ih fun t ht => h t (mem_cons_of_mem _ ht)
    rw [← directory_textOf h] at ih
    rw [lineage, findSome?_cons, hhead]
    constructor
    · intro hnone n
      cases hlook : look (textOf (s :: above)) with
      | some b => simp [hlook] at hnone
      | none =>
        cases n with
        | zero => exact hlook
        | succ n => exact ih.1 (by simpa [hlook] using hnone) n
    · intro hall
      rw [show look (textOf (s :: above)) = none from hall 0]
      exact ih.2 fun n => hall (n + 1)

end Path

namespace Config

variable {present : String → Bool}

/-- The path of the preferred configuration file in a directory, if it has any. -/
def preferredIn? (present : String → Bool) (d : String) : Option String :=
  (fileNames.map (Path.join d)).find? present

/-- `name` is the first of the names for which there is a file in the directory `d`. -/
def IsPreferred (present : String → Bool) (d name : String) : Prop :=
  ∃ before after, fileNames = before ++ name :: after ∧ present (Path.join d name) = true ∧
    ∀ other ∈ before, present (Path.join d other) = false

theorem preferredIn?_eq_some {d path : String} :
    preferredIn? present d = some path ↔
      ∃ name, IsPreferred present d name ∧ path = Path.join d name := by
  rw [preferredIn?, find?_eq_some_iff_append]
  constructor
  · rintro ⟨hpresent, before, after, hsplit, hbefore⟩
    obtain ⟨before, rest, hnames, rfl, hrest⟩ := map_eq_append_iff.1 hsplit
    obtain ⟨name, after, rfl, rfl, rfl⟩ := map_eq_cons_iff.1 hrest
    exact ⟨name, ⟨before, after, hnames, hpresent, by simpa using hbefore⟩, rfl⟩
  · rintro ⟨name, ⟨before, after, hnames, hpresent, hbefore⟩, rfl⟩
    refine ⟨hpresent, before.map (Path.join d), after.map (Path.join d), ?_, by simpa using hbefore⟩
    simp [hnames]

theorem preferredIn?_eq_none {d : String} :
    preferredIn? present d = none ↔ ∀ name ∈ fileNames, present (Path.join d name) = false := by
  simp [preferredIn?]

/-- The search for a configuration goes from the clean path of the directory up to the root. It
finds the preferred file in the deepest directory that has a configuration file, and nothing exactly
if none has. -/
theorem find?_nearest {here : String} (hhere : Path.isRooted here) (present : String → Bool)
    (dir : String) :
    let start := if Path.isRooted dir then Path.clean dir else Path.join here dir
    ((∃ n, Path.directory^[n] start = "/") ∧
      ∀ n, Path.directory (Path.directory^[n] start) = Path.directory^[n] start ↔
        Path.directory^[n] start = "/") ∧
    (∀ path, find? here present dir = some path ↔
      ∃ n name, path = Path.join (Path.directory^[n] start) name ∧
        IsPreferred present (Path.directory^[n] start) name ∧
        ∀ m < n, ∀ other ∈ fileNames,
          present (Path.join (Path.directory^[m] start) other) = false) ∧
    (find? here present dir = none ↔
      ∀ n, ∀ name ∈ fileNames,
        present (Path.join (Path.directory^[n] start) name) = false) := by
  intro start
  obtain ⟨hroot, hclean, htext⟩ := Path.absolute_eq hhere dir
  obtain ⟨above, hsegs⟩ : ∃ above, (Path.absolute here dir).segs = above.reverse :=
    ⟨(Path.absolute here dir).segs.reverse, by simp⟩
  have hpath : Path.absolute here dir = ⟨true, above.reverse⟩ := by rw [← hroot, ← hsegs]
  have hnames : ∀ t ∈ above, Path.IsName t := by
    rw [hpath, Path.isClean_rooted] at hclean
    simpa using hclean
  have hstart : start = Path.textOf above := by rw [Path.textOf, ← hpath, htext]
  have hfind : find? here present dir =
      (Path.lineage above).findSome? fun d => preferredIn? present d.toString := by
    rw [find?, Path.ancestors, hpath, reverse_reverse]
    rfl
  obtain ⟨hend, hstays⟩ := Path.iterate_directory hnames
  rw [hfind, hstart]
  refine ⟨⟨⟨_, hend⟩, hstays⟩, fun path => ?_, ?_⟩
  · rw [Path.findSome?_lineage hnames, Path.FirstUp]
    simp only [preferredIn?_eq_some, preferredIn?_eq_none]
    constructor
    · rintro ⟨n, ⟨name, hname, hpath⟩, hbefore⟩
      exact ⟨n, name, hpath, hname, hbefore⟩
    · rintro ⟨n, name, hpath, hname, hbefore⟩
      exact ⟨n, ⟨name, hname, hpath⟩, hbefore⟩
  · rw [Path.findSome?_lineage_eq_none hnames]
    simp only [preferredIn?_eq_none]

/-- From a directory given with dots and repeated slashes, past a directory without configuration,
to the file of second choice at the root. -/
theorem find?_nearest_root :
    Path.isRooted "/home" = true ∧
    find? "/home" (· == "/tsplus.config.yaml") "./a//../b/" = some "/tsplus.config.yaml" := by
  refine ⟨rfl, ?_⟩
  refine ((find?_nearest rfl _ _).2.1 _).2 ⟨2, "tsplus.config.yaml", ?_,
    ⟨["tsplus.config.json"], ["tsplus.config.yml"], ?_, ?_, ?_⟩, ?_⟩
  all_goals decide

end Config

end ExtensionLowering
