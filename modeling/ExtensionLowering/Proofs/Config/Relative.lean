import ExtensionLowering.Config.Basic
import ExtensionLowering.Proofs.Path.Clean
/-!
# Files named from the root and from the configuration

A configuration that is read from a local file knows its directory by a clean path from the root. A
file below that directory may be named from the root or from the directory; both spellings have the
same relative path, so the same rules match them.

## Main definitions

* `Config.IsLocal`: the places of configurations in the local file system.
-/
namespace ExtensionLowering

namespace Path

theorem diverge_append (a b : List String) : diverge a (a ++ b) = ([], b) := by
  induction a with
  | nil => cases b <;> rfl
  | cons s a ih => simp [diverge, ih]

/-- From a directory to what lies below it there are no steps upwards. -/
theorem relativeTo_append (dir segs : List String) :
    relativeTo ⟨true, dir ++ segs⟩ ⟨true, dir⟩ = ⟨false, segs⟩ := by
  simp [relativeTo, diverge_append]

/-- A clean text that names a path from a directory, without steps upwards, is made of names. -/
theorem exists_names {rel : String} (hclean : clean rel = rel) (hrel : isRooted rel = false)
    (hup : rel ≠ ".." ∧ ¬ "../".toList <+: rel.toList) :
    ∃ segs, (∀ s ∈ segs, IsName s) ∧ rel = Path.toString ⟨false, segs⟩ := by
  obtain ⟨n, names, hsegs, hnames, -⟩ := ofString_isClean rel
  have htext : rel = Path.toString ⟨false, (ofString rel).segs⟩ := by
    rw [← hrel]
    exact hclean.symm
  cases n with
  | zero => exact ⟨names, hnames, by rw [htext, hsegs]; rfl⟩
  | succ n =>
    -- The text would begin with a step upwards.
    rw [hsegs, List.replicate_succ, List.cons_append] at htext
    have hchars := congrArg String.toList htext
    rw [toString_relative] at hchars
    cases hrest : List.replicate n ".." ++ names with
    | nil =>
      rw [hrest, slashed_nil, List.append_nil, String.toList_inj] at hchars
      exact absurd hchars hup.1
    | cons s rest =>
      refine absurd ?_ hup.2
      rw [hchars, hrest]
      exact ⟨s.toList ++ slashed rest, rfl⟩

end Path

namespace Config

variable {here url : String} {c : Config}

/-- Is a place in the local file system, by its scheme or because it has none? -/
def IsLocal (url : String) : Prop :=
  (dropBeginning? "file://" url).isSome ∨ hasScheme url.toList = false

theorem baseDirectory_local (here : String) (h : IsLocal url) :
    ∃ dir, baseDirectory here url = (Path.absolute here dir).toString := by
  cases hfile : dropBeginning? "file://" url with
  | some path => exact ⟨_, by rw [baseDirectory, hfile]⟩
  | none =>
    have hscheme : hasScheme url.toList = false := by simpa [IsLocal, hfile] using h
    exact ⟨Path.directory url, by simp [baseDirectory, hfile, hscheme]⟩

theorem ofSource_dir {s : ConfigSource} (h : ofSource here s url = .ok c) :
    c.dir = baseDirectory here url := by
  rw [ofSource] at h
  cases hmodules : compileField .moduleMap s.moduleMap with
  | error e => simp [hmodules, bind, Except.bind] at h
  | ok moduleMap =>
    cases htraces : compileField .traceMap s.traceMap with
    | error e => simp [hmodules, htraces, bind, Except.bind] at h
    | ok traceMap =>
      simp only [hmodules, htraces, bind, Except.bind, pure, Except.pure, Except.ok.injEq] at h
      rw [← h]

theorem parse_dir {content : List Nat} (h : parse here content url = .ok c) :
    c.dir = baseDirectory here url := by
  delta parse at h
  cases hread : ConfigSource.read? content with
  | none => simp [hread] at h
  | some source =>
    cases source with
    | error e => simp [hread, Except.mapError, bind, Except.bind] at h
    | ok s =>
      cases hsource : ofSource here s url with
      | error e => simp [hread, hsource, Except.mapError, bind, Except.bind] at h
      | ok c' =>
        simp only [hread, hsource, Except.mapError, bind, Except.bind, Except.ok.injEq] at h
        exact h ▸ ofSource_dir hsource

/-- The directory of a local configuration is a clean path from the root. -/
theorem exists_dir (hhere : Path.isRooted here) {content : List Nat}
    (hparse : parse here content url = .ok c) (hlocal : IsLocal url) :
    ∃ dir, (∀ s ∈ dir, Path.IsName s) ∧ c.dir = Path.toString ⟨true, dir⟩ := by
  obtain ⟨path, hpath⟩ := baseDirectory_local here hlocal
  obtain ⟨hroot, hclean, -⟩ := Path.absolute_eq hhere path
  have habsolute : Path.absolute here path = ⟨true, (Path.absolute here path).segs⟩ := by
    rw [← hroot]
  rw [habsolute] at hclean hpath
  exact ⟨_, Path.isClean_rooted.1 hclean, (parse_dir hparse).trans hpath⟩

theorem relative_of_not_rooted {file : String} (h : Path.isRooted file = false) :
    c.relative file = file := by
  simp [relative, h]

theorem relative_join {dir segs : List String} (hdir : ∀ s ∈ dir, Path.IsName s)
    (hsegs : ∀ s ∈ segs, Path.IsName s) (hc : c.dir = Path.toString ⟨true, dir⟩) :
    c.relative (Path.join c.dir (Path.toString ⟨false, segs⟩)) =
      Path.toString ⟨false, segs⟩ := by
  have hne : c.dir ≠ "" := hc ▸ Path.toString_ne_empty dir
  have hboth : ∀ s ∈ dir ++ segs, Path.IsName s := fun s hs =>
    (List.mem_append.1 hs).elim (hdir s) (hsegs s)
  rw [hc, Path.join_rooted hdir hsegs, relative, if_pos (by simp [hne, Path.isRooted_toString]), hc,
    Path.ofString_toString (Path.isClean_rooted.2 hboth),
    Path.ofString_toString (Path.isClean_rooted.2 hdir), Path.relativeTo_append]

/-- A file below the directory of a local configuration is the same for its rules, whether it is
named from the root or, by a clean path without steps upwards, from that directory. -/
theorem spellings_agree (hhere : Path.isRooted here) {content : List Nat}
    (hparse : parse here content url = .ok c) (hlocal : IsLocal url) {rel : String}
    (hclean : Path.clean rel = rel) (hrel : Path.isRooted rel = false)
    (hup : rel ≠ ".." ∧ ¬ "../".toList <+: rel.toList) :
    c.relative (Path.join c.dir rel) = rel ∧
    c.importPath? (Path.join c.dir rel) = c.importPath? rel ∧
    c.traceName (Path.join c.dir rel) = c.traceName rel := by
  obtain ⟨dir, hdir, hc⟩ := exists_dir hhere hparse hlocal
  obtain ⟨segs, hsegs, rfl⟩ := Path.exists_names hclean hrel hup
  have hjoin := relative_join hdir hsegs hc
  have hself : c.relative (Path.toString ⟨false, segs⟩) = Path.toString ⟨false, segs⟩ :=
    relative_of_not_rooted hrel
  exact ⟨hjoin, by simp only [importPath?, hjoin, hself], by simp only [traceName, hjoin, hself]⟩

/-- A configuration with one rule. -/
def sampleText : List Nat :=
  "moduleMap:\n  ^src/(.*)\\.ts$: lib/$1".toList.map Char.toNat

theorem spellings_agree_root :
    ∃ c, parse "/" sampleText "/tsplus.config.yaml" = .ok c ∧ c.dir = "/" ∧
      Path.join c.dir "src/a.ts" = "/src/a.ts" ∧ c.relative "/src/a.ts" = "src/a.ts" ∧
      c.importPath? "/src/a.ts" = some "lib/a" := by
  have heval : (parse "/" sampleText "/tsplus.config.yaml").toOption.map
      (fun c => (c.dir, c.importPath? "src/a.ts")) = some ("/", some "lib/a") := by
    decide +kernel
  obtain ⟨c, hc, hvalues⟩ := Option.map_eq_some_iff.1 heval
  have hparse : parse "/" sampleText "/tsplus.config.yaml" = .ok c := by
    cases hresult : parse "/" sampleText "/tsplus.config.yaml" with
    | error e => simp [hresult, Except.toOption] at hc
    | ok c' => simpa [hresult, Except.toOption] using hc
  obtain ⟨hdir, himport⟩ := Prod.mk.inj hvalues
  have hroot : Path.join "/" "src/a.ts" = "/src/a.ts" := by decide
  have hjoin : Path.join c.dir "src/a.ts" = "/src/a.ts" := hdir ▸ hroot
  have hclean : Path.clean "src/a.ts" = "src/a.ts" := by decide
  obtain ⟨hrelative, hsame, -⟩ := spellings_agree rfl hparse (.inr (by decide)) hclean (by decide)
    (by decide)
  rw [hjoin] at hrelative hsame
  exact ⟨c, hparse, hdir, hjoin, hrelative, hsame.trans himport⟩

end Config

end ExtensionLowering
