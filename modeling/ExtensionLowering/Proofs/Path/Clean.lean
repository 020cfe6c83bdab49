import ExtensionLowering.Path
import Mathlib.Data.List.Induction
/-!
# Clean paths

A path as it is read from a text is clean: its segments are names, with `..` only at the front of a
path that does not start at the root. A clean path is read back from its text, and joining, going to
the directory above and making a path absolute are operations on its segments.

## Main definitions

* `IsName`: a segment that stands for itself.
* `IsClean`: the paths that are read from texts.
-/
namespace ExtensionLowering.Path

open List

variable {segs : List String} {s : String}

/-! ## The pieces of a text -/

section Pieces

variable {a b : List Char}

theorem pieces_ne_nil (cs : List Char) : pieces cs ≠ [] := by
  fun_cases pieces cs <;> simp

@[simp] theorem pieces_slash (cs : List Char) : pieces ('/' :: cs) = [] :: pieces cs := by
  simp [pieces]

theorem pieces_append_slash (a b : List Char) : pieces (a ++ '/' :: b) = pieces a ++ pieces b := by
  induction a with
  | nil => simp [pieces]
  | cons c a ih =>
    by_cases hc : c = '/'
    · subst hc
      simp [ih]
    · obtain ⟨p, ps, hp⟩ := exists_cons_of_ne_nil (pieces_ne_nil a)
      rw [cons_append, pieces, if_neg hc, ih, pieces, if_neg hc, hp]
      rfl

theorem pieces_of_not_mem (h : '/' ∉ a) : pieces a = [a] := by
  induction a with
  | nil => rfl
  | cons c a ih =>
    simp only [mem_cons, not_or] at h
    rw [pieces, if_neg (Ne.symm h.1), ih h.2]

theorem not_mem_pieces {cs p : List Char} (h : p ∈ pieces cs) : '/' ∉ p := by
  induction cs generalizing p with
  | nil =>
    obtain rfl := mem_singleton.1 h
    simp
  | cons c cs ih =>
    by_cases hc : c = '/'
    · subst hc
      rw [pieces_slash] at h
      obtain rfl | h := mem_cons.1 h
      · simp
      · exact ih h
    · obtain ⟨q, qs, hq⟩ := exists_cons_of_ne_nil (pieces_ne_nil cs)
      rw [pieces, if_neg hc, hq] at h
      obtain rfl | h := mem_cons.1 h
      · have hq' : '/' ∉ q := ih (hq ▸ mem_cons_self)
        simp [Ne.symm hc, hq']
      · exact ih (hq ▸ mem_cons_of_mem _ h)

end Pieces

/-- The segments between the slashes of a text. -/
def segments (s : String) : List String :=
  (pieces s.toList).map String.ofList

theorem ofString_eq (s : String) :
    ofString s = ⟨isRooted s, ((segments s).foldl (push (isRooted s)) []).reverse⟩ := rfl

theorem segments_append_slash (s t : String) :
    segments (s ++ "/" ++ t) = segments s ++ segments t := by
  have htext : (s ++ "/" ++ t).toList = s.toList ++ '/' :: t.toList := by simp
  rw [segments, htext, pieces_append_slash, map_append]
  rfl

/-! ## Names and clean paths -/

/-- A segment that stands for itself. -/
def IsName (s : String) : Prop :=
  s ≠ "" ∧ s ≠ "." ∧ s ≠ ".." ∧ '/' ∉ s.toList

instance (s : String) : Decidable (IsName s) :=
  inferInstanceAs (Decidable (_ ∧ _ ∧ _ ∧ _))

/-- Names behind as many steps upwards as the path needs, of which there are none from the root. -/
def IsClean (p : Path) : Prop :=
  ∃ n names, p.segs = replicate n ".." ++ names ∧ (∀ s ∈ names, IsName s) ∧
    (p.rooted = true → n = 0)

theorem isClean_rooted : IsClean ⟨true, segs⟩ ↔ ∀ s ∈ segs, IsName s := by
  constructor
  · rintro ⟨n, names, hsegs, hnames, hroot⟩
    obtain rfl := hroot rfl
    obtain rfl : segs = names := by simpa using hsegs
    exact hnames
  · exact fun h => ⟨0, segs, rfl, h, fun _ => rfl⟩

section Push

variable {rooted : Bool} {stack : List String}

@[simp] theorem push_empty : push rooted stack "" = stack := by
  simp [push]

theorem push_name (h : IsName s) : push rooted stack s = s :: stack := by
  simp [push, h.1, h.2.1, h.2.2.1]

theorem foldl_push_names {names : List String} (h : ∀ s ∈ names, IsName s) :
    names.foldl (push rooted) stack = names.reverse ++ stack := by
  induction names generalizing stack with
  | nil => rfl
  | cons s names ih =>
    rw [foldl_cons, push_name (h s mem_cons_self),
      ih fun s hs => h s (mem_cons_of_mem _ hs)]
    simp

/-- One more segment keeps a stack clean. -/
theorem push_isClean (h : IsClean ⟨rooted, stack.reverse⟩) (hs : '/' ∉ s.toList) :
    IsClean ⟨rooted, (push rooted stack s).reverse⟩ := by
  by_cases hskip : s = "" ∨ s = "."
  · rwa [push.eq_def, if_pos hskip]
  rw [push.eq_def, if_neg hskip]
  obtain ⟨n, names, hsegs, hnames, hroot⟩ := h
  by_cases hup : s = ".."
  · rw [if_pos hup]
    obtain rfl | ⟨names, last, rfl⟩ := names.eq_nil_or_concat
    · -- Only steps upwards so far: one more, unless the path starts at the root.
      obtain rfl : stack = replicate n ".." := by
        simpa using congrArg reverse hsegs
      cases rooted with
      | true =>
        obtain rfl := hroot rfl
        exact ⟨0, [], rfl, by simp, fun _ => rfl⟩
      | false =>
        refine ⟨n + 1, [], ?_, by simp, nofun⟩
        cases n <;> simp [replicate_succ, ← replicate_succ']
    · obtain ⟨below, rfl⟩ : ∃ below, stack = last :: below :=
        ⟨(replicate n ".." ++ names).reverse, by
          simpa using congrArg reverse hsegs⟩
      have hlast : IsName last := hnames last (by simp)
      rw [reverse_cons, concat_eq_append, ← append_assoc] at hsegs
      refine ⟨n, names, ?_, fun s hs => hnames s (by simp [hs]), hroot⟩
      simpa [hlast.2.2.1] using (append_inj' hsegs rfl).1
  · rw [if_neg hup]
    refine ⟨n, names ++ [s], by simp_all, fun t ht => ?_, hroot⟩
    obtain ht | ht := mem_append.1 ht
    · exact hnames t ht
    · obtain rfl := mem_singleton.1 ht
      exact ⟨fun h => hskip (.inl h), fun h => hskip (.inr h), hup, hs⟩

end Push

theorem ofString_isClean (s : String) : (ofString s).IsClean := by
  have hsegs : ∀ t ∈ segments s, '/' ∉ t.toList := by
    intro t ht
    obtain ⟨p, hp, rfl⟩ := mem_map.1 ht
    rw [String.toList_ofList]
    exact not_mem_pieces hp
  rw [ofString_eq]
  revert hsegs
  induction segments s using reverseRecOn with
  | nil => exact fun _ => ⟨0, [], rfl, by simp, fun _ => rfl⟩
  | append_singleton segs t ih =>
    intro hsegs
    rw [foldl_append]
    exact push_isClean (ih fun u hu => hsegs u (mem_append_left _ hu)) (hsegs t (by simp))

/-! ## Texts of paths -/

/-- Segments in a text, each behind a slash. -/
def slashed (segs : List String) : List Char :=
  segs.flatMap fun s => '/' :: s.toList

@[simp] theorem slashed_nil : slashed [] = [] := rfl

theorem intercalate_cons (s : String) (segs : List String) :
    ("/".intercalate (s :: segs)).toList = s.toList ++ slashed segs := by
  induction segs generalizing s with
  | nil => simp [slashed]
  | cons t segs ih =>
    rw [String.intercalate_cons_cons, String.toList_append, ih]
    simp [slashed]

theorem toString_root : Path.toString ⟨true, []⟩ = "/" := rfl

theorem toString_rooted (h : segs ≠ []) : (Path.toString ⟨true, segs⟩).toList = slashed segs := by
  obtain ⟨s, segs, rfl⟩ := exists_cons_of_ne_nil h
  rw [Path.toString, if_pos rfl, String.toList_append, intercalate_cons]
  rfl

theorem toString_relative (s : String) (segs : List String) :
    (Path.toString ⟨false, s :: segs⟩).toList = s.toList ++ slashed segs :=
  intercalate_cons s segs

theorem isRooted_toString (segs : List String) : isRooted (Path.toString ⟨true, segs⟩) = true := by
  simp [isRooted, Path.toString]

theorem pieces_slashed {a : List Char} (ha : '/' ∉ a)
    (h : ∀ s ∈ segs, '/' ∉ s.toList) : pieces (a ++ slashed segs) = a :: segs.map String.toList := by
  induction segs using reverseRecOn with
  | nil => simp [pieces_of_not_mem ha]
  | append_singleton segs s ih =>
    have htext : a ++ slashed (segs ++ [s]) = (a ++ slashed segs) ++ '/' :: s.toList := by
      simp [slashed]
    rw [htext, pieces_append_slash, ih fun t ht => h t (mem_append_left _ ht),
      pieces_of_not_mem (h s (by simp))]
    simp

theorem segments_rooted (hne : segs ≠ []) (h : ∀ s ∈ segs, '/' ∉ s.toList) :
    segments (Path.toString ⟨true, segs⟩) = "" :: segs := by
  have hpieces := pieces_slashed (a := []) not_mem_nil h
  rw [segments, toString_rooted hne, ← nil_append (slashed segs), hpieces]
  simp [Function.comp_def]

theorem segments_relative (h : ∀ t ∈ s :: segs, '/' ∉ t.toList) :
    segments (Path.toString ⟨false, s :: segs⟩) = s :: segs := by
  have hpieces := pieces_slashed (h s mem_cons_self) fun t ht =>
    h t (mem_cons_of_mem _ ht)
  rw [segments, toString_relative, hpieces]
  simp [Function.comp_def]

theorem isRooted_relative (hs : s ≠ "") (hslash : '/' ∉ s.toList)
    (segs : List String) : isRooted (Path.toString ⟨false, s :: segs⟩) = false := by
  obtain ⟨c, cs, hc⟩ := exists_cons_of_ne_nil (mt String.toList_eq_nil_iff.1 hs)
  have hne : c ≠ '/' := by
    rintro rfl
    exact hslash (hc ▸ mem_cons_self)
  simp [isRooted, toString_relative, hc, hne]

/-! ## Operations on clean paths -/

theorem foldl_push_ups (n : Nat) : (replicate n "..").foldl (push false) [] = replicate n ".." := by
  induction n with
  | zero => rfl
  | succ n ih =>
    rw [replicate_succ', foldl_append, ih, ← replicate_succ']
    cases n <;> rfl

/-- A clean path is read back from its text. -/
theorem ofString_toString {p : Path} (h : p.IsClean) : ofString p.toString = p := by
  obtain ⟨rooted, segs⟩ := p
  cases rooted with
  | true =>
    obtain rfl | hne := eq_or_ne segs []
    · rfl
    · have hnames := isClean_rooted.1 h
      rw [ofString_eq, isRooted_toString, segments_rooted hne fun s hs => (hnames s hs).2.2.2,
        foldl_cons, push_empty, foldl_push_names hnames]
      simp
  | false =>
    obtain ⟨n, names, hsegs, hnames, -⟩ := h
    have hslash : ∀ s ∈ segs, s ≠ "" ∧ '/' ∉ s.toList := by
      intro s hs
      obtain hs | hs := mem_append.1 ((show segs = _ from hsegs) ▸ hs)
      · obtain rfl := eq_of_mem_replicate hs
        decide
      · exact ⟨(hnames s hs).1, (hnames s hs).2.2.2⟩
    cases segs with
    | nil => rfl
    | cons s segs =>
      have hfold : (s :: segs).foldl (push false) [] = (s :: segs).reverse := by
        rw [show s :: segs = _ from hsegs, foldl_append, foldl_push_ups,
          foldl_push_names hnames]
        simp
      obtain ⟨hs, hs'⟩ := hslash s mem_cons_self
      rw [ofString_eq, isRooted_relative hs hs', segments_relative fun t ht => (hslash t ht).2,
        hfold, reverse_reverse]

/-- A text behind the text of a path goes on from its segments. -/
theorem ofString_append_slash (hs : s ≠ "") (t : String) :
    ofString (s ++ "/" ++ t) =
      ⟨isRooted s, ((segments t).foldl (push (isRooted s)) (ofString s).segs.reverse).reverse⟩ := by
  have hroot : isRooted (s ++ "/" ++ t) = isRooted s := by
    obtain ⟨c, cs, hc⟩ := exists_cons_of_ne_nil (mt String.toList_eq_nil_iff.1 hs)
    simp [isRooted, hc]
  rw [ofString_eq, hroot, segments_append_slash, foldl_append, ofString_eq s,
    reverse_reverse]

theorem toString_ne_empty (segs : List String) : Path.toString ⟨true, segs⟩ ≠ "" := by
  intro h
  have := isRooted_toString segs
  rw [h] at this
  cases this

/-- The segments of a path without steps upwards are put behind those of a directory. -/
theorem join_rooted {dir : List String} (hdir : ∀ s ∈ dir, IsName s)
    (hsegs : ∀ s ∈ segs, IsName s) :
    join (Path.toString ⟨true, dir⟩) (Path.toString ⟨false, segs⟩) =
      Path.toString ⟨true, dir ++ segs⟩ := by
  have hname : Path.toString ⟨false, segs⟩ ≠ "" := by
    cases segs with
    | nil => decide
    | cons s segs =>
      refine mt String.toList_eq_nil_iff.2 ?_
      have hs := mt String.toList_eq_nil_iff.1 (hsegs s mem_cons_self).1
      simp [toString_relative, hs]
  have hfold : (segments (Path.toString ⟨false, segs⟩)).foldl (push true) dir.reverse =
      segs.reverse ++ dir.reverse := by
    cases segs with
    | nil => rfl
    | cons s segs =>
      rw [segments_relative fun t ht => (hsegs t ht).2.2.2, foldl_push_names hsegs]
  have hdir' := ofString_toString (isClean_rooted.2 hdir)
  rw [join, if_neg (fun h => hname h.2), if_neg (toString_ne_empty dir), if_neg hname, clean,
    ofString_append_slash (toString_ne_empty dir), isRooted_toString, hdir', hfold]
  simp

theorem toString_snoc (hne : segs ≠ []) (s : String) :
    Path.toString ⟨true, segs ++ [s]⟩ = Path.toString ⟨true, segs⟩ ++ "/" ++ s := by
  rw [← String.toList_inj, toString_rooted (by simp), String.toList_append, String.toList_append,
    toString_rooted hne]
  simp [slashed]

theorem directoryPart_append_slash (t : String) (hs : '/' ∉ s.toList) :
    directoryPart (t ++ "/" ++ s) = t ++ "/" := by
  have hall : ∀ c ∈ s.toList.reverse, decide (c ≠ '/') = true := by
    intro c hc
    have := ne_of_mem_of_not_mem (mem_reverse.1 hc) hs
    simpa using this
  have htext : (t ++ "/" ++ s).toList.reverse = s.toList.reverse ++ '/' :: t.toList.reverse := by
    simp
  rw [← String.toList_inj, directoryPart, String.toList_ofList, htext,
    dropWhile_append_of_pos hall]
  simp

theorem directory_root : directory "/" = "/" := by
  decide

/-- The directory above a path is the path without its last name. -/
theorem directory_rooted (h : ∀ t ∈ segs ++ [s], IsName t) :
    directory (Path.toString ⟨true, segs ++ [s]⟩) = Path.toString ⟨true, segs⟩ := by
  have hs : '/' ∉ s.toList := (h s (by simp)).2.2.2
  obtain rfl | hne := eq_or_ne segs []
  · have htext : Path.toString ⟨true, [] ++ [s]⟩ = "" ++ "/" ++ s := by simp [Path.toString]
    rw [htext, directory, directoryPart_append_slash _ hs]
    decide
  · have hclean := ofString_toString (isClean_rooted.2 fun t ht => h t (mem_append_left _ ht))
    have hslash : Path.toString ⟨true, segs⟩ ++ "/" = Path.toString ⟨true, segs⟩ ++ "/" ++ "" := by
      simp
    rw [toString_snoc hne, directory, directoryPart_append_slash _ hs, clean, hslash,
      ofString_append_slash (toString_ne_empty segs), isRooted_toString, hclean]
    simp [segments, pieces]

/-! ## Absolute paths -/

section Absolute

variable {here : String}

theorem isRooted_ne_empty (h : isRooted here) : here ≠ "" := by
  rintro rfl
  cases h

/-- The text of a path from the root is clean. -/
theorem absolute_eq (hhere : isRooted here) (s : String) :
    (absolute here s).rooted = true ∧ (absolute here s).IsClean ∧
      (absolute here s).toString = if isRooted s then clean s else join here s := by
  have hne := isRooted_ne_empty hhere
  by_cases hs : isRooted s
  · rw [absolute, if_pos hs, if_pos hs]
    exact ⟨hs, ofString_isClean s, rfl⟩
  · rw [absolute, if_neg hs, if_neg hs]
    refine ⟨by rw [ofString_append_slash hne]; exact hhere, ofString_isClean _, ?_⟩
    obtain rfl | hs' := eq_or_ne s ""
    · rw [join, if_neg (fun h => hne h.1), if_neg hne, if_pos rfl, clean,
        ofString_append_slash hne]
      simp [segments, pieces, ofString_eq]
    · rw [join, if_neg (fun h => hs' h.2), if_neg hne, if_neg hs', clean]

end Absolute

end ExtensionLowering.Path
