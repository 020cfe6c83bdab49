import ExtensionLowering.Proofs.Lowering.Scoping
import ExtensionLowering.Proofs.Lowering.TraceSite
/-!
# Traces that lowering inserts

A logic for what lowering adds to the traces in a tree. The parameters whose references are looked
for are given: they are neither generated nor shared. Whatever lowering inserts besides traces is no
such reference, and no generated sum. The variable of the file is named once and then stays, so all
traces that need it have the name that it has in the end.

`Traces ids file x P` says that a step `x`, from a state that holds none of the parameters, gives
what `P` says, if the variable of the file is `file` at the end of the walk.
-/
namespace ExtensionLowering

open List

/-- An identifier that is neither shared nor generated. -/
def Ident.IsGiven (id : Ident) : Prop :=
  id.mark = none ∧ id.token ≠ Token.synthetic id.name

/-! ## Notes -/

/-- What a survey of traces notes for a call. -/
def TraceSite.notes (ids : List Ident) (file : Option Ident) (s : TraceSite) :
    List (TraceArg × TraceName) :=
  match s.near with
  | some id => if id ∈ ids then [(.parameter id, s.meaning)] else []
  | none => [(s.argument file, s.meaning)]

/-- The notes on a tree are those for some calls. -/
def Noted (ids : List Ident) (file : Option Ident) (notes : List (TraceArg × TraceName))
    (sites : List TraceSite) : Prop :=
  notes.Perm (sites.flatMap (TraceSite.notes ids file))

namespace Noted

variable {ids : List Ident} {file : Option Ident} {a b : List (TraceArg × TraceName)}
  {s t : List TraceSite}

theorem nil : Noted ids file [] [] :=
  .refl _

theorem of_eq_nil (h : a = []) : Noted ids file a [] :=
  h ▸ nil

theorem append (ha : Noted ids file a s) (hb : Noted ids file b t) :
    Noted ids file (a ++ b) (s ++ t) := by
  rw [Noted, flatMap_append]
  exact List.Perm.append ha hb

/-- Parts can be written in the other order. -/
theorem swap (h : Noted ids file (a ++ b) s) : Noted ids file (b ++ a) s :=
  perm_append_comm.trans h

end Noted

/-- No trace is noted on an expression, wherever it stands. -/
def Expr.Silent (ids : List Ident) (e : Expr) : Prop :=
  ∀ m, e.survey (tracing ids) m = []

section Surveys

variable {γ Λ : Type} {S : Survey γ Λ} {c d : γ}

theorem Expr.survey_eq_nil {e : Expr} (h : e.survey S c = []) : e.survey S d = [] := by
  rw [← map_eq_nil_iff, e.survey_notes S d c, h, map_nil]

theorem Expr.allSurvey_eq_nil {es : List Expr} (h : Expr.allSurvey S c es = []) :
    Expr.allSurvey S d es = [] := by
  rw [← map_eq_nil_iff, Expr.allSurvey_notes S es d c, h, map_nil]

theorem Expr.allSurvey_eq_flatMap (es : List Expr) :
    Expr.allSurvey S c es = es.flatMap (Expr.survey S c) :=
  eq_flatMap_of_cons rfl (fun _ _ => rfl) es

theorem Expr.allSurvey_append (es es' : List Expr) :
    Expr.allSurvey S c (es ++ es') = Expr.allSurvey S c es ++ Expr.allSurvey S c es' := by
  simp only [Expr.allSurvey_eq_flatMap, flatMap_append]

theorem Property.allSurvey_eq_flatMap (ps : List Property) :
    Property.allSurvey S c ps = ps.flatMap (Property.survey S c) :=
  eq_flatMap_of_cons rfl (fun _ _ => rfl) ps

theorem Stmt.allSurvey_append (ss ss' : List Stmt) :
    Stmt.allSurvey S c (ss ++ ss') = Stmt.allSurvey S c ss ++ Stmt.allSurvey S c ss' := by
  induction ss with
  | nil => rfl
  | cons s ss ih => rw [cons_append, Stmt.allSurvey, Stmt.allSurvey, ih, append_assoc]

end Surveys

/-! ## Scopes -/

namespace TraceName

variable {m : TraceName}

@[simp] theorem within_nil : m.within [] = m := rfl

theorem within_congr {names names' : List String}
    (h : traceParameter ∈ names ↔ traceParameter ∈ names') : m.within names = m.within names' := by
  simp only [within, h]

/-- Only the names of parameters count. -/
theorem inside_congr {ps ps' : List Param} (h : ps.map (·.name) = ps'.map (·.name)) (ready : Bool)
    (self : Option Ident) : m.inside ready self ps = m.inside ready self ps' := by
  have htrace (ps : List Param) : traceParam? ps =
      (ps.map (·.name)).getLast?.bind fun name => name.filter (·.name = traceParameter) := by
    rw [traceParam?, getLast?_map]
    cases ps.getLast? <;> rfl
  rw [inside, inside, htrace, htrace, Param.bound, Param.bound, h]

end TraceName

/-- Fresh names end in a digit. -/
theorem numbered_ne_traceParameter (base : String) (n : Nat) :
    numbered base n ≠ traceParameter := by
  intro h
  have hchars : base.toList ++ '_' :: Nat.toDigits 10 n = traceParameter.toList := by
    rw [← h, numbered, String.toList_append, String.toList_append, ← Nat.toList_repr]
    simp
  have hmem : 'e' ∈ Nat.toDigits 10 n := by
    have hlast := congrArg getLast? hchars
    rw [getLast?_append_of_ne_nil _ (by simp),
      getLast?_cons_of_ne_nil Nat.toDigits_ne_nil] at hlast
    exact mem_of_getLast? hlast
  exact absurd (Nat.isDigit_of_mem_toDigits (by decide) (by decide) hmem) (by decide)

/-! ## States -/

namespace Lowering

variable {ids : List Ident} {s t : Lowering}

/-- The identifiers `ids` are given, and none that can be handed out again is one of them. -/
structure Clear (ids : List Ident) (s : Lowering) : Prop where
  given : ∀ id ∈ ids, id.IsGiven
  ledger : ∀ e ∈ s.ledger.entries, e.ident ∉ ids
  others : ∀ id ∈ s.others, id ∉ ids

theorem Clear.not_mem (hs : s.Clear ids) {id : Ident} {supply supply' : NameSupply}
    (h : supply.Issues id supply') : id ∉ ids := by
  intro hid
  have hmark := (hs.given id hid).1
  rw [h.mark] at hmark
  cases hmark

theorem Clear.supplies (hs : s.Clear ids) {id : Ident} (h : Supplies s id t) :
    t.Clear ids ∧ id ∉ ids := by
  have hothers := h.forall_others hs.others fun _ _ => hs.not_mem
  exact ⟨⟨hs.given, h.ledger ▸ hs.ledger, hothers.1⟩, hothers.2⟩

theorem Clear.importAlias (hs : s.Clear ids) (path : String) :
    ((Lower.importAlias path).run s).2.Clear ids ∧ ((Lower.importAlias path).run s).1 ∉ ids := by
  have hget := s.ledger.get_entries s.names.supply path hs.ledger fun _ _ => hs.not_mem
  exact ⟨⟨hs.given, hget.1, hs.others⟩, hget.2⟩

theorem Clear.retract (hs : s.Clear ids) (env : Env) (dead : Expr) :
    ((Lower.retract env dead).run s).2.Clear ids := by
  obtain ⟨errors, hrun⟩ := Lower.retract_run env dead s
  rw [hrun]
  refine ⟨hs.given, fun e he => ?_, hs.others⟩
  obtain ⟨e', he', hident, -⟩ := s.ledger.retractAll_entries dead.idents e he
  exact hident ▸ hs.ledger e' he'

end Lowering

/-! ## Steps -/

namespace Lower

variable {α β : Type} {ids : List Ident} {file : Option Ident}

/-- From a clear state a step leads to a clear one and keeps the variable of the file. If that is
`file` in the end, the step gives what `P` says. -/
def Traces (ids : List Ident) (file : Option Ident) (x : Lower α) (P : α → Prop) : Prop :=
  ∀ s : Lowering, s.Clear ids → (x.run s).2.Clear ids ∧
    (∀ v, s.traceVar = some v → (x.run s).2.traceVar = some v) ∧
    ((∀ v, (x.run s).2.traceVar = some v → file = some v) → P (x.run s).1)

namespace Traces

variable {x : Lower α} {f : α → Lower β} {P P' : α → Prop} {Q : β → Prop}

/-- A step may rely on what a clear state says of the identifiers. -/
theorem of_given (h : (∀ id ∈ ids, id.IsGiven) → Traces ids file x P) : Traces ids file x P :=
  fun s hs => h hs.given s hs

theorem pure {a : α} (h : P a) : Traces ids file (Pure.pure a) P :=
  fun _ hs => ⟨hs, fun _ hv => hv, fun _ => h⟩

theorem mono (hx : Traces ids file x P) (h : ∀ a, P a → P' a) : Traces ids file x P' := by
  intro s hs
  obtain ⟨hclear, hkeeps, hP⟩ := hx s hs
  exact ⟨hclear, hkeeps, fun hfile => h _ (hP hfile)⟩

/-- What the first step gives is a premise of what the second one gives: whether it holds is only
known at the end. -/
theorem bind (hx : Traces ids file x P) (hf : ∀ a, Traces ids file (f a) fun b => P a → Q b) :
    Traces ids file (x >>= f) Q := by
  intro s hs
  obtain ⟨hclear, hkeeps, hP⟩ := hx s hs
  obtain ⟨hclear', hkeeps', hQ⟩ := hf _ _ hclear
  exact ⟨hclear', fun v hv => hkeeps' v (hkeeps v hv),
    fun hfile => hQ hfile (hP fun v hv => hfile v (hkeeps' v hv))⟩

theorem finish {g : α → β} (hx : Traces ids file x P) (h : ∀ a, P a → Q (g a)) :
    Traces ids file (x >>= fun a => Pure.pure (g a)) Q :=
  hx.bind fun a => .pure (h a)

/-- What is known of a result in any state. -/
theorem fact {F : α → Prop} (hx : Traces ids file x P) (h : ∀ s, F (x.run s).1) :
    Traces ids file x fun a => F a ∧ P a := by
  intro s hs
  obtain ⟨hclear, hkeeps, hP⟩ := hx s hs
  exact ⟨hclear, hkeeps, fun hfile => ⟨h s, hP hfile⟩⟩

theorem mapM {γ : Type} {f : γ → Lower α} (hf : ∀ c, Traces ids file (f c) P) :
    ∀ cs : List γ, Traces ids file (cs.mapM f) fun as => ∀ a ∈ as, P a
  | [] => by
    rw [mapM_nil]
    exact .pure (by simp)
  | c :: cs => by
    rw [mapM_cons]
    refine (hf c).bind fun a => (mapM hf cs).bind fun as => .pure fun has ha => ?_
    simpa using ⟨ha, has⟩

end Traces

/-! ## Elementary steps -/

theorem fail_traces (env : Env) (d : Diagnostic) : Traces ids file (fail env d) fun _ => True :=
  fun _ hs => ⟨⟨hs.given, hs.ledger, hs.others⟩, fun _ hv => hv, fun _ => trivial⟩

theorem giveUp_traces : Traces ids file giveUp fun _ => True :=
  fun _ hs => ⟨⟨hs.given, hs.ledger, hs.others⟩, fun _ hv => hv, fun _ => trivial⟩

theorem retract_traces (env : Env) (dead : Expr) :
    Traces ids file (retract env dead) fun _ => True := by
  refine fun s hs => ⟨hs.retract env dead, fun v hv => ?_, fun _ => trivial⟩
  obtain ⟨errors, hrun⟩ := retract_run env dead s
  rw [hrun]
  exact hv

theorem unresolvedCall_traces (env : Env) (token : Token) (callee : Expr) :
    Traces ids file (unresolvedCall env token callee) fun _ => True := by
  rw [unresolvedCall]
  split
  · exact fail_traces env _
  · exact giveUp_traces

theorem importAlias_traces (path : String) :
    Traces ids file (importAlias path) fun id => id ∉ ids := fun _ hs =>
  have h := hs.importAlias path
  ⟨h.1, fun _ hv => hv, fun _ => h.2⟩

theorem exportAlias_traces (name : String) (exported : Bool) :
    Traces ids file (exportAlias name exported) fun id => id ∉ ids := fun s hs =>
  have h := hs.supplies (.exportAlias name exported s)
  ⟨h.1, fun _ hv => hv, fun _ => h.2⟩

theorem derivationName_traces (d : DerivId) :
    Traces ids file (derivationName d) fun id => id ∉ ids := fun s hs =>
  have h := hs.supplies (.derivationName d s)
  ⟨h.1, fun _ hv => hv, fun _ => h.2⟩

theorem pinName_traces (d : DeclId) (base : String) :
    Traces ids file (pinName d base) fun id => id.name ≠ traceParameter := fun s hs =>
  ⟨(hs.supplies (.pinName d base s)).1, fun _ hv => hv,
    fun _ => numbered_ne_traceParameter base _⟩

/-- The variable of the file is the one that it is in the end. -/
theorem traceVar_traces : Traces ids file traceVar fun v => v ∉ ids ∧ file = some v := by
  intro s hs
  have h := hs.supplies (.traceVar s)
  have hset : (∀ v, s.traceVar = some v → (traceVar.run s).2.traceVar = some v) ∧
      (traceVar.run s).2.traceVar = some (traceVar.run s).1 := by
    cases hv : s.traceVar with
    | none =>
      rw [traceVar_of_none hv]
      exact ⟨by simp, rfl⟩
    | some id =>
      rw [traceVar_of_some hv]
      exact ⟨fun v hv' => hv.trans hv', hv⟩
  exact ⟨h.1, hset.1, fun hfile => ⟨h.2, hfile _ hset.2⟩⟩

theorem registerPins_traces (env : Env) :
    ∀ ds : List DeclId, Traces ids file (registerPins env ds)
      fun pins => ∀ p ∈ pins, p.ident.name ≠ traceParameter
  | [] => .pure (by simp)
  | d :: ds => by
    intro s hs
    have ih := registerPins_traces env ds
    cases hd : s.pinned.lookup d with
    | some id =>
      rw [registerPins_of_some hd]
      exact ih s hs
    | none =>
      have hnew (decl : Declaration) : Traces ids file
          (do
            let id ← pinName d decl.name
            let pins ← registerPins env ds
            return { name := decl.name, line := decl.line, ident := id } :: pins)
          fun pins => ∀ p ∈ pins, p.ident.name ≠ traceParameter :=
        (pinName_traces d _).bind fun id => ih.finish fun pins hpins hid => by
          simpa using ⟨hid, hpins⟩
      rw [registerPins_of_none hd]
      exact hnew _ s hs

/-! ## References -/

attribute [local simp] Expr.survey Expr.allSurvey Expr.ofIdent Expr.applyTyped

theorem ofName_silent (hids : ∀ id ∈ ids, id.IsGiven) (name : String) :
    (Expr.ofName name).Silent ids := by
  intro m
  have hname : Ident.synthetic name ∉ ids := fun h => (hids _ h).2 rfl
  simp [Expr.ofName, tracing, hname]

theorem ofIdent_silent {id : Ident} (h : id ∉ ids) : (Expr.ofIdent id).Silent ids := by
  intro m
  simp [tracing, h]

theorem notImplemented_traces : Traces ids file (Pure.pure notImplemented) (Expr.Silent ids) := by
  refine .of_given fun hids => .pure fun m => ?_
  have hname := ofName_silent hids "Error"
  simp [notImplemented, Expr.immediate, Expr.lambdaBlock, Expr.apply, Block.ofStmts, Stmt.throwing,
    Param.allSurvey, Block.survey, Stmt.allSurvey, Stmt.survey, Expr.ofString, Block.isMissing,
    hname _]

theorem reference_traces (env : Env) (d : Option Declaration) (exportName : String)
    (token : Token) : Traces ids file (reference env d exportName token) (Expr.Silent ids) := by
  refine .of_given fun hids => ?_
  have hname := ofName_silent hids exportName
  cases d with
  | none => exact .pure hname
  | some d =>
    rw [reference]
    split
    · split
      · exact (exportAlias_traces _ _).finish fun id hid => ofIdent_silent hid
      · exact .pure hname
    · split
      · exact (importAlias_traces _).finish fun id hid m => ofIdent_silent hid m
      · exact (fail_traces env _).finish fun _ _ => hname

theorem declarationReference_traces (env : Env) (d : Option Declaration) (token : Token) :
    Traces ids file (declarationReference env d token) (Expr.Silent ids) := by
  cases d with
  | none => exact notImplemented_traces
  | some d => exact reference_traces env (some d) d.name token

theorem extensionReference_traces (env : Env) (s : Signature) (token : Token) :
    Traces ids file (extensionReference env s token) (Expr.Silent ids) :=
  reference_traces env _ _ token

theorem targetReference_traces (env : Env) (t : Target) (token : Token) :
    Traces ids file (targetReference env t token) (Expr.Silent ids) :=
  reference_traces env _ _ token

theorem name_traces {id : Ident} (h : id ∉ ids) : Traces ids file (name id) (Expr.Silent ids) := by
  rw [name]
  split
  · exact (importAlias_traces _).finish fun a ha m => ofIdent_silent ha m
  · exact .pure (ofIdent_silent h)

theorem assign_survey (token : Token) (k v : Expr) (m : TraceName) :
    (Property.assign token k v).survey (tracing ids) m =
      k.survey (tracing ids) m ++ v.survey (tracing ids) m := by
  rw [Property.survey]
  cases k <;> rfl

theorem shorthand_traces {m : TraceName} (token : Token) {id : Option Ident}
    (h : ∀ i ∈ id, i ∉ ids) :
    Traces ids file (shorthand token id) fun p => p.survey (tracing ids) m = [] := by
  cases id with
  | none => exact .pure rfl
  | some id =>
    have hid : id ∉ ids := h id rfl
    rw [shorthand]
    split
    · refine .of_given fun hids => (name_traces hid).finish fun e he => ?_
      rw [assign_survey, ofName_silent hids id.name m, he m, append_nil]
    · exact .pure (by simp [Property.survey, tracing, hid])

/-! ## Derived values -/

theorem apply_silent {fn : Expr} {args : List Expr} (hfn : fn.Silent ids)
    (hargs : ∀ e ∈ args, e.Silent ids) : (fn.apply args).Silent ids := by
  intro m
  rw [Expr.apply, Expr.applyTyped, Expr.survey, hfn m, Expr.allSurvey_eq_flatMap,
    nil_append, flatMap_eq_nil_iff]
  exact fun e he => hargs e he m

theorem lambda_silent {params : List Ident} {e : Expr} (h : e.Silent ids) :
    (Expr.lambda params e).Silent ids := by
  intro m
  simp [Expr.lambda, Param.allSurvey_ofIdent, Block.survey, Block.isMissing, h _]

theorem deriveNode_traces (env : Env) (token : Token) {part : Option DerivId → Lower Expr}
    (hpart : ∀ d, Traces ids file (part d) (Expr.Silent ids)) (id : DerivId) (d : Derivation) :
    Traces ids file (deriveNode env token part id d) (Expr.Silent ids) := by
  have hdecl (d : Option DeclId) : Traces ids file
      (declarationReference env (env.compilation.declaration? d) token) (Expr.Silent ids) :=
    declarationReference_traces env _ token
  cases d with
  | invalid => exact notImplemented_traces
  | blockScope d =>
    -- The lookup reads the state, so its outcome is told apart in the state itself.
    intro s hs
    rw [blockScope_run]
    cases hd : d.bind fun d => s.pinned.lookup d with
    | none => exact hdecl d s hs
    | some id' =>
      obtain ⟨d, -, hid⟩ := Option.bind_eq_some_iff.1 hd
      exact ⟨hs, fun _ hv => hv, fun _ => ofIdent_silent (hs.supplies (.reusePin hid)).2⟩
  | implicitScope d => exact hdecl d
  | emptyObject => exact .pure fun m => rfl
  | literal v => exact .pure fun m => by cases v <;> rfl
  | intersection fields | object fields =>
    refine (Traces.mapM (P := fun p => ∀ m, p.survey (tracing ids) m = []) (fun f => ?_)
      fields).finish fun ps hps m => ?_
    · exact (hpart _).finish fun e he m => he m
    · rw [Expr.ofProperties, Expr.survey, Property.allSurvey_eq_flatMap, flatMap_eq_nil_iff]
      exact fun p hp => hps p hp m
  | tuple fields =>
    refine (Traces.mapM hpart fields).finish fun es hes m => ?_
    rw [Expr.ofElems, Expr.survey, Expr.allSurvey_eq_flatMap, flatMap_eq_nil_iff]
    exact fun e he => hes e he m
  | prior target =>
    intro s hs
    rw [prior_run]
    cases hd : s.names.derivation? target with
    | none => exact notImplemented_traces s hs
    | some id' =>
      exact ⟨hs, fun _ hv => hv, fun _ => ofIdent_silent (hs.supplies (.reuseDerivation hd)).2⟩
  | rule rule args users lazyRule =>
    simp only [deriveNode]
    split
    · refine (hdecl rule).bind fun fn => (Traces.mapM hpart args).finish fun as has hfn => ?_
      exact apply_silent hfn has
    · cases lazyRule with
      | none => exact notImplemented_traces
      | some rule' =>
        refine (derivationName_traces id).bind fun self => ?_
        refine (hdecl (some rule')).bind fun wrap => (hdecl rule).bind fun fn => ?_
        refine (Traces.mapM hpart args).finish fun as has hfn hwrap _ => ?_
        exact apply_silent hwrap (by simpa using lambda_silent (apply_silent hfn has))

theorem deriveWithin_traces (env : Env) (token : Token) :
    ∀ (n : Nat) (d : Option DerivId),
      Traces ids file (deriveWithin env token n d) (Expr.Silent ids)
  | 0, none | _ + 1, none | 0, some _ => notImplemented_traces
  | n + 1, some id => by
    rw [deriveWithin]
    split
    · exact notImplemented_traces
    · exact deriveNode_traces env token (deriveWithin_traces env token n) id _

theorem derive_traces (env : Env) (d : Option DerivId) (token : Token) :
    Traces ids file (derive env d token) (Expr.Silent ids) :=
  deriveWithin_traces env token _ d

/-! ## Traces -/

theorem trace_traces (env : Env) (token : Token) (m : TraceName) :
    Traces ids file (trace env token)
      fun e => Noted ids file (e.survey (tracing ids) m) [⟨env.trace, token, m⟩] := by
  rw [trace]
  cases htrace : env.trace with
  | some id =>
    refine .pure ?_
    by_cases hid : id ∈ ids <;>
      simp [Noted, TraceSite.notes, tracing, hid]
  | none =>
    refine (traceVar_traces).finish fun v hvar => ?_
    obtain ⟨hv, hfile⟩ := hvar
    simp [Noted, TraceSite.notes, TraceSite.argument, Expr.infixOp, Expr.ofString, tracing,
      Expr.name?, Expr.text?, Info.synthetic, hv, hfile]

theorem withTrace_traces (env : Env) (s : Signature) (token : Token) (args : List Expr)
    (m : TraceName) :
    Traces ids file (withTrace env s token args) fun as => ∃ more, as = args ++ more ∧
      Noted ids file (Expr.allSurvey (tracing ids) m more) (env.signatureSites m s token) := by
  rw [withTrace, Env.signatureSites]
  split
  · refine (trace_traces env token m).finish fun e he => ⟨[e], rfl, ?_⟩
    simpa using he
  · exact .pure ⟨[], by simp, .nil⟩

/-- A call of an extension notes what is noted on its parts. -/
theorem extensionCallTyped_noted {fn : Expr} (hfn : fn.Silent ids) (pipeable : Bool)
    (ts : List TypeRef) {receiver : Expr} {args : List Expr} {m : TraceName}
    {sites : List TraceSite} (h : Noted ids file
      (receiver.survey (tracing ids) m ++ Expr.allSurvey (tracing ids) m args) sites) :
    Noted ids file ((extensionCallTyped fn pipeable ts receiver args).survey (tracing ids) m)
      sites := by
  rw [extensionCallTyped]
  split
  · simpa [Expr.apply, hfn m]
      using h.swap
  · simpa [hfn m] using h

theorem callExtension_traces (env : Env) (s : Signature) (token : Token) (ts : List TypeRef)
    (receiver : Expr) (args : List Expr) (m : TraceName) :
    Traces ids file (callExtension env s token ts receiver args) fun e => ∀ sites,
      Noted ids file
        (receiver.survey (tracing ids) m ++ Expr.allSurvey (tracing ids) m args) sites →
        Noted ids file (e.survey (tracing ids) m) (sites ++ env.signatureSites m s token) := by
  rw [callExtension]
  refine (extensionReference_traces env s token).bind fun fn => ?_
  refine (withTrace_traces env s token args m).finish ?_
  rintro _ ⟨more, rfl, hmore⟩ hfn sites h
  refine extensionCallTyped_noted hfn _ ts ?_
  rw [Expr.allSurvey_append, ← append_assoc]
  exact h.append hmore

theorem dataFirstCall_traces (env : Env) (target : Target) (token : Token) (first : Expr)
    (args : List Expr) (m : TraceName) :
    Traces ids file (dataFirstCall env target token first args) fun e => ∀ sites,
      Noted ids file (first.survey (tracing ids) m ++ Expr.allSurvey (tracing ids) m args) sites →
        Noted ids file (e.survey (tracing ids) m) sites := by
  rw [dataFirstCall]
  refine (targetReference_traces env target token).finish fun fn hfn sites h => ?_
  simpa [Expr.apply, hfn m] using h

/-- Of the formal parameters that get an argument the last one only can get the trace. -/
theorem fill_traces (env : Env) (token : Token) (m : TraceName) :
    ∀ (skipped : Nat) (ps : List Formal), Traces ids file (fill env token skipped ps)
      fun as => Noted ids file (Expr.allSurvey (tracing ids) m as)
        (if ps.getLast?.any fun p => p.trace && ! p.automatic then [⟨env.trace, token, m⟩] else [])
  | _, [] => .pure .nil
  | skipped, p :: ps => by
    have hvoid : Expr.allSurvey (tracing ids) m (replicate skipped .voidZero) = [] := by
      rw [Expr.allSurvey_eq_flatMap, flatMap_eq_nil_iff]
      intro e he
      rw [eq_of_mem_replicate he]
      rfl
    have hlast (h : ps ≠ [] ∨ ¬ (p.trace && ! p.automatic)) :
        ((p :: ps).getLast?.any fun p => p.trace && ! p.automatic) =
          ps.getLast?.any fun p => p.trace && ! p.automatic := by
      cases ps with
      | nil => simpa using h
      | cons q qs => rw [getLast?_cons_cons]
    rw [fill]
    split
    · rename_i hfilled
      dsimp only
      split
      · rename_i hauto
        rw [hlast (.inr (by simp [hauto]))]
        refine (derive_traces env p.derivation token).bind fun arg => ?_
        refine (fill_traces env token m 0 ps).finish fun rest hrest harg => ?_
        simpa [Expr.allSurvey_append, hvoid, harg m] using hrest
      · rename_i hauto
        obtain ⟨htrace, rfl⟩ : p.trace ∧ ps = [] := by simpa [hauto] using hfilled
        refine (trace_traces env token m).bind fun arg => ?_
        refine (fill_traces env token m 0 []).finish fun rest hrest harg => ?_
        simp only [getLast?_nil, Option.any_none, Bool.false_eq_true, if_false] at hrest
        simpa [Expr.allSurvey_append, hvoid, htrace, hauto] using harg.append hrest
    · rename_i hskipped
      rw [hlast (by grind)]
      exact fill_traces env token m (skipped + 1) ps

theorem complete_traces (env : Env) (token : Token) (facts : CallFacts) (args lowered : List Expr)
    (m : TraceName) :
    Traces ids file (complete env token facts args lowered) fun as => ∃ more, as = lowered ++ more ∧
      Noted ids file (Expr.allSurvey (tracing ids) m more)
        (env.completeSites m token facts args) := by
  have hsame : Traces ids file (Pure.pure lowered) fun as => ∃ more, as = lowered ++ more ∧
      Noted ids file (Expr.allSurvey (tracing ids) m more) [] :=
    .pure ⟨[], by simp, .nil⟩
  rw [complete, Env.completeSites]
  cases facts.formals with
  | none => exact hsame
  | some formals =>
    dsimp only
    split
    · exact hsame
    · exact (fill_traces env token m 0 _).finish fun rest hrest => ⟨rest, rfl, hrest⟩

end Lower

end ExtensionLowering
