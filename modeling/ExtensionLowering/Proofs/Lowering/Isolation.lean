import ExtensionLowering.Lowering.File
/-!
# Files are isolated from one another

A session keeps the names synthesized for its last file; a file that fails leaves them as they were
at its end, and one that is broken off as they were where it broke. The next file clears them before
it looks at them. So a file ends in any session as it does in one that has lowered nothing else:
with the same tree or the same errors, and with the same names left behind.
-/
namespace ExtensionLowering.Session

/-- A session for the same compilation that has lowered nothing yet. -/
def fresh (session : Session) : Session :=
  { compilation := session.compilation, config := session.config }

/-- How a file can end in a session, and the session it leaves. Where a file is broken off is not
told, so the names it leaves can be any. -/
inductive Ends (session : Session) (f : File) : FileOutcome → Session → Prop
  | lowered {out : File} (h : (session.lower f).1 = .lowered out) :
      Ends session f (.lowered out) (session.lower f).2
  | failed {errors : List Diagnostic} (h : (session.lower f).1 = .failed errors) :
      Ends session f (.failed errors) (session.lower f).2
  | brokenOff (names : NameTable) (h : (session.lower f).1 = .broken) :
      Ends session f .broken { session with names }

/-- A session after some files, with how each of them ended. -/
inductive Runs (session : Session) : List (File × FileOutcome) → Session → Prop
  | start : Runs session [] session
  | next {past : List (File × FileOutcome)} {now later : Session} {f : File} {outcome : FileOutcome}
      (before : Runs session past now) (h : Ends now f outcome later) :
      Runs session (past ++ [(f, outcome)]) later

variable {session later : Session} {f : File} {outcome : FileOutcome}
variable {past : List (File × FileOutcome)}

theorem fresh_lower (session : Session) (f : File) : session.fresh.lower f = session.lower f := rfl

/-- The names in a session are the only thing that a file changes. -/
theorem lower_fresh (session : Session) (f : File) : (session.lower f).2.fresh = session.fresh := by
  rw [lower]
  dsimp only
  split
  · rfl
  · split <;> rfl

theorem Ends.fresh_eq (h : Ends session f outcome later) : later.fresh = session.fresh := by
  cases h with
  | lowered | failed => exact session.lower_fresh f
  | brokenOff => rfl

theorem Ends.outcome_eq (h : Ends session f outcome later) : outcome = (session.lower f).1 := by
  cases h with
  | lowered h | failed h | brokenOff _ h => exact h.symm

theorem Runs.fresh_eq (h : Runs session past later) : later.fresh = session.fresh := by
  induction h with
  | start => rfl
  | next _ hends ih => exact hends.fresh_eq.trans ih

/-- What a session does with a file does not depend on its past. -/
theorem Runs.lower_eq (h : Runs session past later) (f : File) :
    later.lower f = session.fresh.lower f := by
  rw [← h.fresh_eq, fresh_lower]

theorem Runs.outcomes (h : Runs session past later) :
    ∀ e ∈ past, e.2 = (session.fresh.lower e.1).1 := by
  induction h with
  | start => exact fun e he => absurd he List.not_mem_nil
  | next before hends ih =>
    intro e he
    obtain he | he := List.mem_append.1 he
    · exact ih e he
    · obtain rfl := List.mem_singleton.1 he
      rw [hends.outcome_eq, before.lower_eq]

/-- Files that are lowered together end as they do alone. -/
theorem lowerAll_outcomes (session : Session) (fs : List File) :
    (session.lowerAll fs).1 = fs.map fun f => (session.fresh.lower f).1 := by
  induction fs generalizing session with
  | nil => rfl
  | cons f fs ih =>
    rw [lowerAll, List.map_cons]
    dsimp only
    rw [ih, lower_fresh, fresh_lower]

/-- Whatever a session has been through, a file is lowered in it as in a fresh one: the result and
the names that are left are the same, each of the files before ended as it does alone, and so will
all the files that follow. -/
theorem lower_isolated {past : List (File × FileOutcome)} (h : Runs session past later) (f : File) :
    later.lower f = session.fresh.lower f ∧
      (∀ e ∈ past, e.2 = (session.fresh.lower e.1).1) ∧
      ∀ fs, (later.lowerAll fs).1 = fs.map fun g => (session.fresh.lower g).1 :=
  ⟨h.lower_eq f, h.outcomes, fun fs => by rw [lowerAll_outcomes, h.fresh_eq]⟩

/-- A session with a rule that refers to itself and a function of the file `main.ts`. -/
def sharingSession : Session :=
  { compilation :=
      { declarations :=
          #[{ name := "eq", location := "@lib/eq" }, { name := "defer", location := "@lib/eq" },
            { name := "size", file := "main.ts" }]
        derivations := #[.rule (some 0) [some 1] 1 (some 1), .prior (some 0)] } }

/-- `Derive(); xs.size;` and more, where the first derives the rule and the second calls the
function. -/
def sharingFile (more : List Stmt) : File :=
  { name := "main.ts"
    stmts :=
      .expr {} (.call {} { intrinsic := some .derive, derivation := some 0 } (.ofName "Derive")
          [] []) ::
        .expr {} (.prop {} { signature := some { kind := .getter, decl := some 2 } } (.ofName "xs")
          (some (.synthetic "size")) false) :: more }

/-- A call without the extension that it is resolved to. -/
def unresolvedStmt (callee : Expr) : Stmt :=
  .expr {} (.call {} { fluent := true } callee [] [])

def failingFile : File :=
  sharingFile [unresolvedStmt (.ofName "f")]

/-- Here the callee has no name to be reported by. -/
def breakingFile : File :=
  sharingFile [unresolvedStmt (.prop {} {} (.ofName "x") none false)]

/-- One file is lowered, one fails and one is broken off, and names of both kinds are left. The file
that comes next refers to the same declaration and the same derivation. -/
theorem lower_isolated_shared : ∃ out errors later,
    Runs sharingSession
      [(sharingFile [], .lowered out), (failingFile, .failed errors), (breakingFile, .broken)]
      later ∧
    later.names.aliases.map (·.1) = ["size"] ∧ later.names.derivations.map (·.1) = [some 0] ∧
    later.lower (sharingFile []) = sharingSession.fresh.lower (sharingFile []) := by
  obtain ⟨out, hout⟩ : ∃ out, (sharingSession.lower (sharingFile [])).1 = .lowered out := ⟨_, rfl⟩
  obtain ⟨errors, herrors⟩ : ∃ errors, (sharingSession.lower failingFile).1 = .failed errors :=
    ⟨_, rfl⟩
  have hbroken : (sharingSession.lower breakingFile).1 = .broken := rfl
  have hone := Runs.start.next (.lowered hout)
  have hfailed : Ends _ failingFile (.failed errors) _ :=
    .failed (by rw [hone.lower_eq, fresh_lower, herrors])
  have htwo := hone.next hfailed
  have hbroken : Ends _ breakingFile .broken _ :=
    .brokenOff (sharingSession.lower failingFile).2.names
      (by rw [htwo.lower_eq, fresh_lower, hbroken])
  have hthree := htwo.next hbroken
  exact ⟨out, errors, _, hthree, by decide +kernel, by decide +kernel, (lower_isolated hthree _).1⟩

end ExtensionLowering.Session
