import ExtensionLowering.Proofs.Alias.Emission
import ExtensionLowering.Proofs.Import.Accounting
/-!
# Shadowed imports

A reference that lowering inserts for a module is the name of a namespace import, be it an alias or
an import of the file itself. Aliases are fresh, but any scope of the file may bind the name of its
own import. The main statement says exactly when an inserted reference means its module: no scope
around the place that asked for it binds the name.
-/
namespace ExtensionLowering

open List

/-! ## Requests and scopes -/

mutual

/-- The modules that are asked for, each with the names that the scopes around the request bind. -/
def Event.modules (scopes : Scopes) : Event → List (String × Scopes)
  | .module path => [(path, scopes)]
  | .pin _ => []
  | .listing _ inner => Event.allModules scopes inner
  | .frame names _ inner => Event.allModules (names :: scopes) inner

def Event.allModules (scopes : Scopes) : List Event → List (String × Scopes)
  | [] => []
  | e :: es => Event.modules scopes e ++ Event.allModules scopes es

end

def File.moduleRequests (env : Env) (f : File) : List (String × Scopes) :=
  Event.allModules [] (f.events env)

theorem File.markImports_moduleRequests (env : Env) (f : File) :
    f.markImports.moduleRequests env = f.moduleRequests env :=
  congrArg (Event.allModules []) (f.markImports_events env)

theorem Event.allModules_append (scopes : Scopes) (es es' : List Event) :
    Event.allModules scopes (es ++ es') =
      Event.allModules scopes es ++ Event.allModules scopes es' := by
  induction es with
  | nil => rfl
  | cons e es ih => rw [cons_append, Event.allModules, Event.allModules, ih, append_assoc]

/-- The scopes of a tree bind what those of a request bind, names of the file, and `fresh` names. -/
structure Scopes.Agree (own fresh : List String) (tree request : Scopes) : Prop where
  own : ∀ x ∈ request.flatten, x ∈ own
  bound : ∀ x ∈ request.flatten, x ∈ tree.flatten
  only : ∀ x ∈ tree.flatten, x ∈ request.flatten ∨ x ∈ fresh

namespace Scopes.Agree

variable {own fresh : List String} {tree request : Scopes}

theorem nil (own fresh : List String) : Scopes.Agree own fresh [] [] :=
  ⟨by simp, by simp, by simp⟩

theorem resolve_iff (h : Scopes.Agree own fresh tree request) {x : String} (hx : x ∉ fresh) :
    tree.resolve x = none ↔ ∀ names ∈ request, x ∉ names := by
  have hflatten : (∀ names ∈ request, x ∉ names) ↔ x ∉ request.flatten := by
    simp only [mem_flatten, not_exists, not_and]
  rw [resolve_eq_none, hflatten]
  exact not_congr ⟨fun hmem => (h.only x hmem).resolve_right hx, h.bound x⟩

end Scopes.Agree

namespace Lowering

variable {own fresh : List String} {o : List (DeclId × Ident)} {s t : Lowering} {E : List Event}
  {p : View}

/-- A marked reference that is laid answers a request for a module, within scopes that agree with
those of the request, or it is the name of something else. -/
theorem Lays.module_asked (h : Lays own o s E p t) (hpaths : (s.ledger.entries.map (·.path)).Nodup)
    (ho : o ⊆ s.pinned) (hfresh : ∀ id ∈ t.others, id.name ∈ fresh) {tree request : Scopes}
    (hagree : Scopes.Agree own fresh tree request) {q : Spot} (hq : p tree q)
    (href : q.IsReference) :
    q.ident ∈ t.others ∨ ∃ path scopes, (path, scopes) ∈ Event.allModules request E ∧
      t.ledger.Knows path q.ident ∧ Scopes.Agree own fresh q.scopes scopes := by
  induction h generalizing tree request with
  | append h h' ih ih' =>
    obtain ⟨hpaths', -⟩ := h.ledger_grows hpaths
    obtain ⟨more, hmore⟩ := h.pinned_append
    simp only [Event.allModules_append, mem_append]
    obtain hq | hq := hq
    · obtain hid | ⟨path, scopes, hmem, hknows, hsc⟩ :=
        ih hpaths ho (fun id hid => hfresh id (h'.others_subset hid)) hagree hq
      · exact .inl (h'.others_subset hid)
      · exact .inr ⟨path, scopes, .inl hmem, (h'.ledger_grows hpaths').2 _ _ hknows, hsc⟩
    · have ho' := List.Subset.trans ho (hmore ▸ subset_append_right more _)
      obtain hid | ⟨path, scopes, hmem, hknows, hsc⟩ := ih' hpaths' ho' hfresh hagree hq
      · exact .inl hid
      · exact .inr ⟨path, scopes, .inr hmem, hknows, hsc⟩
  | within h hp ih =>
    obtain ⟨frames, hnames, hq⟩ | ⟨hrole, -⟩ := hp tree q hq
    · refine ih hpaths ho hfresh ⟨hagree.own, fun x hx => ?_, fun x hx => ?_⟩ hq
      · rw [flatten_append]
        exact mem_append_right _ (hagree.bound x hx)
      · rw [flatten_append] at hx
        obtain hx | hx := mem_append.1 hx
        · obtain ⟨id, hid, rfl⟩ := hnames x hx
          exact .inr (hfresh id (mem_others.2 (.inl (derived_subset_unpinned _ hid))))
        · exact hagree.only x hx
    · simp [Spot.IsReference, hrole] at href
  | quiet | unanswered => exact hq.elim
  | named h =>
    obtain rfl := hq
    exact .inl (mem_others.2 (.inl h))
  | @module _ _ path _ h =>
    obtain rfl := hq
    exact .inr ⟨path, request, by simp [Event.allModules, Event.modules], h, hagree⟩
  | pin h =>
    obtain rfl := hq
    exact .inl (mem_others.2 (.inr (mem_map_of_mem (mem_of_lookup h))))
  | @frame _ _ _ _ _ names held h frames hown hnames ih =>
    obtain ⟨more, hmore⟩ := h.pinned_append
    obtain hq | ⟨hrole, -⟩ := hq
    · have hsc : Scopes.Agree own fresh (frames ++ tree) (names :: request) := by
        refine ⟨fun x hx => ?_, fun x hx => ?_, fun x hx => ?_⟩
        · rw [flatten_cons] at hx
          exact (mem_append.1 hx).elim (hown ·) (hagree.own x)
        · rw [flatten_append, mem_append, hnames]
          rw [flatten_cons, mem_append] at hx
          exact hx.imp .inl (hagree.bound x)
        · rw [flatten_append, mem_append, hnames] at hx
          rw [flatten_cons, mem_append]
          obtain (hx | ⟨d, id, hd, -, rfl⟩) | hx := hx
          · exact .inl (.inl hx)
          · refine .inr (hfresh id (mem_others.2 (.inr ?_)))
            rw [hmore]
            exact mem_map_of_mem (mem_append_right _ (ho hd))
          · exact (hagree.only x hx).imp_left .inr
      obtain hid | ⟨path, scopes, hmem, hknows, hsc⟩ := ih hpaths ho hfresh hsc hq
      · exact .inl hid
      · exact .inr ⟨path, scopes, by simpa [Event.allModules, Event.modules] using hmem, hknows, hsc⟩
    · simp [Spot.IsReference, hrole] at href
  | listing hnew h ih =>
    obtain hid | ⟨path, scopes, hmem, hknows, hsc⟩ := ih (hnew.ledger ▸ hpaths)
      (hnew.pinned ▸ subset_append_left _ _) hfresh hagree hq
    · exact .inl hid
    · exact .inr ⟨path, scopes, by simpa [Event.allModules, Event.modules] using hmem, hknows, hsc⟩

end Lowering

/-! ## The identifiers of imports -/

namespace Ledger

/-- The aliases that a ledger has handed out, with their paths. -/
def handedOut (l : Ledger) : List (Ident × String) :=
  l.counted.map (fun e => (e.ident, e.path)) ++ l.retired

theorem handedOut_fst (l : Ledger) : l.handedOut.map (·.1) = l.aliases := by
  rw [handedOut, map_append, map_map]
  rfl

/-- What a ledger knows it has handed out, or the file has it. -/
theorem Knows.cases {l : Ledger} {path : String} {id : Ident} (h : l.Knows path id) :
    (id, path) ∈ l.handedOut ∨
      ∃ e ∈ l.entries, e.balance = .permanent ∧ e.path = path ∧ e.ident = id := by
  obtain ⟨e, he, rfl, rfl⟩ | h := h
  · cases hb : e.balance with
    | counted n =>
      refine .inl (mem_append_left _ (mem_map.2 ⟨e, mem_filter.2 ⟨he, ?_⟩, rfl⟩))
      simp [ImportEntry.isCounted, hb]
    | permanent => exact .inr ⟨e, he, hb, rfl, rfl⟩
  · exact .inl (mem_append_right _ h)

end Ledger

namespace Session

variable {path : String} {id : Ident}
variable {session : Session} {f out : File}

/-- The import of the file that a permanent entry stands for. -/
theorem permanent_import {e : ImportEntry}
    (he : e ∈ (session.walk f).2.ledger.entries) (hp : e.balance = .permanent) :
    (e.ident, e.path) ∈ f.stmts.filterMap Stmt.namespaceImport? :=
  (f.ledger_initial.permanent e
    ((session.walk_accounts f).permanent e he hp)).2

theorem permanent_mem_file {e : ImportEntry}
    (he : e ∈ (session.walk f).2.ledger.entries) (hp : e.balance = .permanent) :
    e.ident.name ∈ f.names := by
  obtain ⟨s, hs, himport⟩ := mem_filterMap.1 (permanent_import he hp)
  exact mem_map_of_mem (f.mem_idents hs (Stmt.namespaceImport?_mem himport))

theorem handedOut_mem_aliases (h : (id, path) ∈ (session.walk f).2.ledger.handedOut) :
    id ∈ (session.walk f).2.ledger.aliases :=
  Ledger.handedOut_fst _ ▸ mem_map_of_mem h

/-- An identifier of an import is told from all else that is synthesized. -/
theorem knows_ne_others (h : (session.walk f).2.ledger.Knows path id) {x : Ident}
    (hx : x ∈ (session.walk f).2.others) : id.mark ≠ x.mark ∧ id.name ≠ x.name := by
  have hsound := (session.walk_accounts f).sound
  obtain halias | ⟨e, he, hp, -, rfl⟩ := h.cases
  · exact ⟨hsound.alias_mark_ne (handedOut_mem_aliases halias) hx,
      hsound.alias_name_ne (handedOut_mem_aliases halias) hx⟩
  · refine ⟨fun hmark => ?_, name_ne_of_synthesized (permanent_mem_file he hp)
      (others_synthesized hx)⟩
    obtain ⟨m, hm, hbase, -⟩ := hsound.marked x (others_synthesized hx)
    have := hsound.ledger.permanent e he hp m (hmark.trans hm)
    omega

/-- A mark stands for one import. -/
theorem eq_of_knows (hf : f.Marked) {path' : String} {id' : Ident}
    (h : (session.walk f).2.ledger.Knows path id)
    (h' : (session.walk f).2.ledger.Knows path' id') (hmark : id.mark = id'.mark) :
    id = id' ∧ path = path' := by
  have hsound := (session.walk_accounts f).sound
  have hne {path : String} {a : Ident}
      (ha : (a, path) ∈ (session.walk f).2.ledger.handedOut) {e : ImportEntry}
      (he : e ∈ (session.walk f).2.ledger.entries) (hp : e.balance = .permanent) :
      a.mark ≠ e.ident.mark := by
    intro heq
    obtain ⟨m, hm, hbase⟩ := hsound.ledger.marked a (handedOut_mem_aliases ha)
    have := hsound.ledger.permanent e he hp m (heq ▸ hm)
    omega
  obtain ha | ⟨e, he, hp, rfl, rfl⟩ := h.cases <;>
    obtain ha' | ⟨e', he', hp', rfl, rfl⟩ := h'.cases
  · have hmarks : ((session.walk f).2.ledger.handedOut.map (·.1.mark)).Nodup := by
      have := (nodup_append'.1 (map_append ▸ hsound.marks)).1
      rwa [← Ledger.handedOut_fst, map_map] at this
    exact Prod.mk.inj (inj_on_of_nodup_map hmarks ha ha' hmark)
  · exact absurd hmark (hne ha he' hp')
  · exact absurd hmark.symm (hne ha' he hp)
  · exact Prod.mk.inj (inj_on_of_nodup_map hf.imports (permanent_import he hp)
      (permanent_import he' hp') hmark)

/-- The name of an import moves only if the file declares it too. -/
theorem lookup_moves_of_knows (h : (session.walk f).2.ledger.Knows path id)
    (hdecl : id.name ∉ declaredNames f.stmts) : (session.moves f).lookup id.name = none := by
  by_contra hsome
  obtain ⟨b, hb⟩ := Option.ne_none_iff_exists'.1 hsome
  obtain ⟨x, -, hx, hname, -⟩ := mem_renames (mem_of_lookup hb)
  obtain hfile | hpinned := session.walk_declared f hx
  · exact hdecl (hname ▸ mem_map_of_mem (mem_filterMap.2 ⟨some x, hfile, rfl⟩))
  · exact (knows_ne_others h (pinned_others hpinned)).2 hname.symm

/-- What is referred to in the output is still imported. -/
theorem live_of_reference (hout : session.Lowers f out)
    (h : (session.walk f).2.ledger.Knows path id) {q : Spot}
    (hq : q ∈ Stmt.allSpots [] out.stmts) (href : q.IsReference) (hmark : q.ident.mark = id.mark) :
    ∃ e ∈ (session.walk f).2.ledger.entries, e.path = path ∧ e.ident = id := by
  obtain hlive | hretired := h
  · exact hlive
  have hsound := (session.walk_accounts f).sound
  have hmem : id ∈ (session.walk f).2.ledger.retired.map (·.1) :=
    mem_map_of_mem hretired
  have halias : id ∈ (session.walk f).2.ledger.aliases := mem_append_right _ hmem
  obtain ⟨m, hm, -⟩ := hsound.ledger.marked id halias
  have hzero := uses_alias hout halias hm
  rw [Ledger.refs_of_retired hsound.ledger (nodup_append'.1 (map_append ▸ hsound.marks)).1
    hmem hm, out.uses_eq hm, occurrences_eq_zero] at hzero
  rw [Stmt.allSpots_eq_flatMap] at hq
  obtain ⟨s, hs, hq⟩ := mem_flatMap.1 hq
  have himport : ! s.isImport := by
    cases s with
    | importDecl =>
      obtain ⟨_, -, rfl⟩ := mem_spotsOf.1 hq
      simp [Spot.IsReference] at href
    | _ => rfl
  refine absurd (hmark.trans hm) (hzero q.ident (mem_flatMap.2 ⟨s, ?_, ?_⟩))
  · exact mem_filter.2 ⟨hs, himport⟩
  · exact (s.spots_spec []).1 ▸ mem_map_of_mem hq

end Session

/-! ## What a name reaches -/

/-- The module whose namespace is bound. -/
def TopBinder.module? : TopBinder → Option String
  | .space _ path => path
  | _ => none

/-- No scope around the reference binds its name, and at the top level the name stands for the
namespace of the module and nothing else. -/
def Spot.Reaches (q : Spot) (ss : List Stmt) (path : String) : Prop :=
  q.scopes.resolve q.ident.name = none ∧ meaningOf ss q.ident.name ≠ [] ∧
    ∀ b ∈ meaningOf ss q.ident.name, b.module? = some path

theorem mem_importsOf {ss : List Stmt} {x : String} {b : TopBinder} :
    b ∈ importsOf ss x ↔ ∃ id, (some id, b) ∈ ss.flatMap Stmt.importBinders ∧ id.name = x := by
  rw [importsOf, mem_filterMap]
  constructor
  · rintro ⟨⟨name, b'⟩, hmem, hunder⟩
    obtain ⟨id, rfl, rfl⟩ := TopBinder.name_of_under hunder
    obtain rfl : b' = b := by simpa [TopBinder.under] using hunder
    exact ⟨id, hmem, rfl⟩
  · rintro ⟨id, hmem, rfl⟩
    exact ⟨_, hmem, if_pos rfl⟩

theorem importBinders_of_namespaceImport {s : Stmt} {b : Ident × String}
    (h : s.namespaceImport? = some b) : ∃ t, (some b.1, .space t (some b.2)) ∈ s.importBinders := by
  unfold Stmt.namespaceImport? at h
  split at h
  · cases h
    exact ⟨_, mem_cons_self⟩
  · cases h

namespace Session

variable {session : Session} {f out : File}

/-- What the output declares has a name of the file or one that is synthesized for no import. -/
theorem declaredNames_lower (hf : f.Marked) (h : session.Lowers f out)
    {x : String} (hx : x ∈ declaredNames out.stmts) :
    x ∈ f.names ∨
      ∃ id ∈ (session.walk f).2.others, id.name = x := by
  obtain ⟨new, pins, ss, s, p, hw⟩ := session.walk_laid hf
  obtain hfile | ⟨pin, hpin, rfl⟩ | ⟨id, hid, rfl⟩ := hw.declaredNames_lower hf h hx
  · exact .inl hfile
  · exact .inr ⟨_, pinned_others (hw.pin_pinned hpin), rfl⟩
  · exact .inr ⟨id, Lowering.mem_others.2 (.inl hid), rfl⟩

/-- What the output imports is an alias of the ledger, or has a name of the file or one that is
synthesized for no import. -/
theorem importBinders_lower (hf : f.Marked) (h : session.Lowers f out)
    {id : Ident} {b : TopBinder} (hb : (some id, b) ∈ out.stmts.flatMap Stmt.importBinders) :
    (∃ e ∈ (session.walk f).2.ledger.counted, e.ident = id ∧ b.module? = some e.path) ∨
      id.name ∈ f.names ∨
      ∃ x ∈ (session.walk f).2.others, x.name = id.name := by
  rw [lower_importBinders h] at hb
  obtain hb | hb := mem_append.1 hb
  · obtain ⟨e, he, hid, rfl⟩ := preamble_importBinders hb
    exact .inl ⟨e, he, hid.symm, rfl⟩
  obtain ⟨⟨i, b⟩, hi, heq⟩ := mem_map.1 hb
  obtain ⟨hi', rfl⟩ := Prod.mk.inj heq
  obtain ⟨i, rfl, rfl⟩ := Option.map_eq_some_iff.1 hi'
  obtain ⟨hfile, hsame | ⟨b, hb, hname⟩⟩ := shown_import hf hi
  · rw [hsame]
    exact .inr (.inl (mem_map_of_mem hfile))
  · exact .inr (.inr ⟨b, moves_others (mem_of_lookup hb), hname.symm⟩)

/-- The name of an alias stands for the namespace of its module. -/
theorem meaningOf_alias (hf : f.Marked) (h : session.Lowers f out)
    {e : ImportEntry} (he : e ∈ (session.walk f).2.ledger.counted) :
    meaningOf out.stmts e.ident.name ≠ [] ∧
      ∀ b ∈ meaningOf out.stmts e.ident.name, b.module? = some e.path := by
  have hsound := (session.walk_accounts f).sound
  have hknows {e : ImportEntry} (he : e ∈ (session.walk f).2.ledger.counted) :
      (session.walk f).2.ledger.Knows e.path e.ident :=
    .inl ⟨e, mem_of_mem_filter he, rfl, rfl⟩
  have hsynth {e : ImportEntry} (he : e ∈ (session.walk f).2.ledger.counted) :
      e.ident ∈ (session.walk f).2.synthesized :=
    mem_append_left _ (mem_append_left _ (mem_map_of_mem he))
  have hdecl : declarationsOf out.stmts e.ident.name = [] := by
    rw [declarationsOf_eq_nil]
    intro hdecl
    obtain hfile | ⟨id, hid, hname⟩ := declaredNames_lower hf h hdecl
    · exact name_ne_of_synthesized hfile (hsynth he) rfl
    · exact (knows_ne_others (hknows he) hid).2 hname.symm
  rw [meaningOf, if_pos hdecl]
  refine ⟨?_, fun b hb => ?_⟩
  · obtain ⟨t, hspace⟩ := importBinders_of_namespaceImport
      (s := .namespaceImport e.ident e.path) (b := (e.ident, e.path)) rfl
    refine ne_nil_of_mem (mem_importsOf.2 ⟨e.ident, ?_, rfl⟩)
      (a := .space t (some e.path))
    rw [lower_body h, flatMap_append, preamble, flatMap_append]
    exact mem_append_left _ (mem_append_right _
      (mem_flatMap.2 ⟨_, mem_map_of_mem he, hspace⟩))
  · obtain ⟨id, hmem, hname⟩ := mem_importsOf.1 hb
    obtain ⟨e', he', rfl, hmodule⟩ | hfile | ⟨x, hx, hxname⟩ := importBinders_lower hf h hmem
    · have heq := eq_of_synthesized_name (hsynth he') (hsynth he) hname
      rw [hmodule, (eq_of_knows hf (hknows he') (hknows he) (congrArg Ident.mark heq)).2]
    · exact absurd hname (name_ne_of_synthesized hfile (hsynth he))
    · exact absurd (hname.symm.trans hxname.symm) (knows_ne_others (hknows he) hx).2

/-- The name of an import of the file stands for what it stood for. -/
theorem meaningOf_own (hf : f.Marked) (h : session.Lowers f out)
    {e : ImportEntry} (he : e ∈ (session.walk f).2.ledger.entries)
    (hp : e.balance = .permanent) (hdecl : e.ident.name ∉ declaredNames f.stmts) :
    meaningOf out.stmts e.ident.name = meaningOf f.stmts e.ident.name ∧
      meaningOf f.stmts e.ident.name ≠ [] := by
  have hnone := lookup_moves_of_knows (.inl ⟨e, he, rfl, rfl⟩) hdecl
  refine ⟨?_, ?_⟩
  · have hmeans := meaningOf_newName hf h (permanent_mem_file he hp)
    rwa [Renaming.newName, hnone] at hmeans
  · rw [meaningOf, if_pos (declarationsOf_eq_nil.2 hdecl)]
    obtain ⟨s, hs, himport⟩ := mem_filterMap.1 (permanent_import he hp)
    obtain ⟨t, hspace⟩ := importBinders_of_namespaceImport himport
    exact ne_nil_of_mem (mem_importsOf.2 ⟨e.ident, mem_flatMap.2 ⟨s, hs, hspace⟩, rfl⟩)

/-- Where a marked reference of the output comes from that is synthesized for nothing but a module:
its module was asked for, within scopes that bind the same names of the file. -/
theorem module_reference (hf : f.Marked) (h : session.Lowers f out)
    {q : Spot} (hq : q ∈ Stmt.allSpots [] out.stmts) (href : q.IsReference)
    (hmark : q.ident.mark ≠ none)
    (hothers : ∀ x ∈ (session.walk f).2.others, x.mark ≠ q.ident.mark) :
    ∃ e ∈ (session.walk f).2.ledger.entries, e.ident.mark = q.ident.mark ∧
      (e.ident.name ∉ declaredNames f.stmts → q.ident.name = e.ident.name) ∧
      ∃ scopes, (e.path, scopes) ∈ f.moduleRequests (session.env f) ∧
        Scopes.Agree f.names
          ((session.walk f).2.others.map (·.name)) q.scopes scopes := by
  obtain ⟨m, hm⟩ := Option.ne_none_iff_exists'.1 hmark
  obtain ⟨new, pins, ss, s, p, hw⟩ := session.walk_laid hf
  obtain ⟨q', hq', href', hscopes, hm', hname⟩ := hw.lower_reference hf h hq href hm
    fun a ha heq => hothers _ (alias_mem_others ha) heq.symm
  have hins : q'.isInserted := by
    obtain hrole | hrole := href' <;> simp [Spot.isInserted, hrole, hm']
  have hpaths : (s.ledger.entries.map (·.path)).Nodup :=
    hw.registers.ledger ▸ f.ledger_initial.paths
  obtain hid | ⟨path, scopes, hasked, hknows, hagree⟩ :=
    hw.lays.module_asked hpaths (nil_subset _) (fun id hid => mem_map_of_mem hid)
      (.nil _ _) (hw.shows [] q' hq' hins) href'
  · exact absurd (hm'.trans hm.symm) (hothers _ hid)
  obtain ⟨e, he, rfl, hident⟩ := live_of_reference h hknows hq href (hm.trans hm'.symm)
  refine ⟨e, he, by rw [hident, hm', hm], fun hdecl => ?_, scopes, hasked, hscopes ▸ hagree⟩
  obtain ⟨hsame, -⟩ | ⟨b, hb, -⟩ := hname
  · rw [hsame, hident]
  · rw [← hident, lookup_moves_of_knows (.inl ⟨e, he, rfl, rfl⟩) hdecl] at hb
    cases hb

/-- Every marked reference of the output that is synthesized for nothing else refers to a module
that was asked for. Its name is that of a live import of the module; it means the module exactly if
no scope around the request binds the name and the file means nothing else by it at its top level. A
fresh alias always means its module. A name that the file declares besides importing it is left
out. -/
theorem module_reference_reaches_iff (session : Session) (f out : File) (hf : f.Unshared)
    (h : (session.lower f.markImports).1 = .lowered out) :
    ∀ q ∈ Stmt.allSpots [] out.stmts, q.IsReference → q.ident.mark ≠ none →
      (∀ x ∈ (session.walk f.markImports).2.others, x.mark ≠ q.ident.mark) →
      ∃ e ∈ (session.walk f.markImports).2.ledger.entries, e.ident.mark = q.ident.mark ∧
        (e.isCounted → q.Reaches out.stmts e.path) ∧
        ∃ scopes, (e.path, scopes) ∈ f.moduleRequests (session.env f) ∧
          (e.ident.name ∉ declaredNames f.stmts →
            q.ident.name = e.ident.name ∧
            (q.Reaches out.stmts e.path ↔ (∀ names ∈ scopes, e.ident.name ∉ names) ∧
              ∀ b ∈ meaningOf f.stmts e.ident.name, b.module? = some e.path)) := by
  replace hf := hf.marked
  simp only [← f.markImports_meaningOf, ← f.markImports_declaredNames,
    ← f.markImports_moduleRequests, ← session.env_markImports f]
  generalize f.markImports = f at hf h ⊢
  intro q hq href hmark hothers
  obtain ⟨e, he, hemark, hname, scopes, hasked, hagree⟩ :=
    module_reference hf h hq href hmark hothers
  have hknows : (session.walk f).2.ledger.Knows e.path e.ident := .inl ⟨e, he, rfl, rfl⟩
  have hfresh : e.ident.name ∉ (session.walk f).2.others.map (·.name) := by
    intro hmem
    obtain ⟨x, hx, hxname⟩ := mem_map.1 hmem
    exact (knows_ne_others hknows hx).2 hxname.symm
  have hresolve := hagree.resolve_iff hfresh
  cases hb : e.balance with
  | counted n =>
    have hcounted : e ∈ (session.walk f).2.ledger.counted :=
      mem_filter.2 ⟨he, by simp [ImportEntry.isCounted, hb]⟩
    have hfile : e.ident.name ∉ f.names := fun hmem =>
      name_ne_of_synthesized hmem
        (mem_append_left _ (mem_append_left _ (mem_map_of_mem hcounted))) rfl
    have hnothing : meaningOf f.stmts e.ident.name = [] := by
      by_contra hne
      exact hfile (mem_file_of_meaningOf hne)
    have hdecl : e.ident.name ∉ declaredNames f.stmts := fun hmem =>
      meaningOf_ne_nil_of_declared hmem hnothing
    have hunbound : ∀ names ∈ scopes, e.ident.name ∉ names := fun names hnames hmem =>
      hfile (hagree.own _ (mem_flatten.2 ⟨names, hnames, hmem⟩))
    have hreaches : q.Reaches out.stmts e.path := by
      rw [Spot.Reaches, hname hdecl]
      exact ⟨hresolve.2 hunbound, meaningOf_alias hf h hcounted⟩
    refine ⟨e, he, hemark, fun _ => hreaches, scopes, hasked, fun _ => ⟨hname hdecl, ?_⟩⟩
    exact iff_of_true hreaches ⟨hunbound, by simp [hnothing]⟩
  | permanent =>
    refine ⟨e, he, hemark, fun hcounted => ?_, scopes, hasked, fun hdecl => ⟨hname hdecl, ?_⟩⟩
    · simp [ImportEntry.isCounted, hb] at hcounted
    · obtain ⟨hsame, hne⟩ := meaningOf_own hf h he hb hdecl
      rw [Spot.Reaches, hname hdecl, hsame, hresolve]
      exact and_congr_right fun _ => and_iff_right hne

/-- A session in which `size` is an extension of a module. -/
def listSession : Session :=
  { compilation := { declarations := #[
      { name := "size", file := "lib/list.ts", location := "@lib/list", exported := true }] } }

/-- `import * as L from "@lib/list"` and `function count(param) { return result; }` -/
def countFile (space : Ident) (param : String) (result : Expr) : File :=
  { name := "src/main.ts"
    stmts := [
      .importDecl {} (some space) none [] (some "@lib/list"),
      .funcDecl {} false (some { name := "count" }) [.ofIdent { name := param }] .missing
        (.mk {} [] [.ret {} result])] }

/-- The size of a parameter is asked for. -/
def countSource (param : String) : File :=
  countFile { name := "L" } param (.prop {}
    { signature := some { kind := .getter, decl := some 0, exportName := "size" } }
    (.ident { name := param }) (some { name := "size" }) false)

/-- The import of the file as references share it. -/
def sharedList : Ident :=
  { name := "L", mark := some 0 }

def countOutput (param : String) : File :=
  countFile sharedList param
    (((Expr.ofIdent sharedList).member "size").apply [.ident { name := param }])

/-- In `count(xs)` the inserted reference means the module. -/
theorem module_reference_reaches_iff_unshadowed :
    (listSession.lower (countSource "xs").markImports).1 = .lowered (countOutput "xs") ∧
      ⟨sharedList, .reference, [[], ["xs"]]⟩ ∈ Stmt.allSpots [] (countOutput "xs").stmts ∧
      Spot.Reaches ⟨sharedList, .reference, [[], ["xs"]]⟩ (countOutput "xs").stmts "@lib/list" := by
  have hout : (listSession.lower (countSource "xs").markImports).1 = .lowered (countOutput "xs") := by
    rfl
  have hmem : ⟨sharedList, .reference, [[], ["xs"]]⟩ ∈
      Stmt.allSpots [] (countOutput "xs").stmts := by
    decide +kernel
  have hentries : (listSession.walk (countSource "xs").markImports).2.ledger.entries =
      [⟨"@lib/list", sharedList, .permanent⟩] := by
    decide +kernel
  have hrequests : (countSource "xs").moduleRequests (listSession.env (countSource "xs")) =
      [("@lib/list", [[], ["xs"]])] := by
    decide +kernel
  obtain ⟨e, he, -, -, scopes, hasked, hiff⟩ := module_reference_reaches_iff listSession
    (countSource "xs") (countOutput "xs") (by decide +kernel) hout _ hmem (.inl rfl) (by decide)
    (by decide +kernel)
  rw [hentries, mem_singleton] at he
  rw [hrequests, mem_singleton] at hasked
  subst he
  obtain ⟨-, rfl⟩ := Prod.mk.inj hasked
  exact ⟨hout, hmem, (hiff (by decide +kernel)).2.2 (by decide +kernel)⟩

/-- In `count(L)` the parameter captures it. -/
theorem shadowed_import_captured :
    (listSession.lower (countSource "L").markImports).1 = .lowered (countOutput "L") ∧
      (listSession.walk (countSource "L").markImports).2.ledger.Knows "@lib/list" sharedList ∧
      ⟨sharedList, .reference, [[], ["L"]]⟩ ∈ Stmt.allSpots [] (countOutput "L").stmts ∧
      ¬ Spot.Reaches ⟨sharedList, .reference, [[], ["L"]]⟩ (countOutput "L").stmts "@lib/list" := by
  refine ⟨by rfl, .inl ⟨⟨"@lib/list", sharedList, .permanent⟩, by decide +kernel, rfl, rfl⟩,
    by decide +kernel, fun h => ?_⟩
  exact absurd h.1 (by decide)

end Session

end ExtensionLowering
