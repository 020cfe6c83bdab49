import ExtensionLowering.Proofs.Lowering.Provenance
/-!
# Import accounting

The ledger counts while the tree is built, and the import statements are written from it. The main
statement ties it to the finished file: a module is imported exactly when its alias occurs, and it
was counted as often as it occurs. Nothing is ever taken back that was not counted.
-/
namespace ExtensionLowering

open List

namespace File

/-- The identifiers by which a file imports the namespace of a module. -/
def namespaceImports (f : File) (path : String) : List Ident :=
  ((f.stmts.filterMap Stmt.namespaceImport?).filter (·.2 = path)).map (·.1)

/-- How often a shared identifier occurs in a file outside its imports. -/
def uses (f : File) (id : Ident) : Nat :=
  ((f.stmts.filter (! ·.isImport)).flatMap Stmt.idents).countP
    fun i => i.mark.isSome && i.mark = id.mark

theorem uses_eq (f : File) {id : Ident} {m : Nat} (hm : id.mark = some m) :
    f.uses id = occurrences m ((f.stmts.filter (! ·.isImport)).flatMap Stmt.idents) := by
  refine countP_congr fun i _ => ?_
  cases h : i.mark <;> simp [hm]

end File

theorem occurrences_imports (m : Nat) (ss : List Stmt) :
    occurrences m ((ss.filter (! ·.isImport)).flatMap Stmt.idents) +
      occurrences m ((ss.filter (·.isImport)).flatMap Stmt.idents) =
        occurrences m (ss.flatMap Stmt.idents) := by
  induction ss with
  | nil => rfl
  | cons s ss ih =>
    cases h : s.isImport <;> simp [h] <;> omega

theorem preamble_uses (env : Env) (u : Lowering) {m : Nat}
    (hm : ∀ id ∈ u.others, id.mark ≠ some m) :
    occurrences m (((preamble env u).filter (! ·.isImport)).flatMap Stmt.idents) = 0 := by
  have himports : u.ledger.statements.filter (! ·.isImport) = [] :=
    filter_eq_nil_iff.2 fun s hs => by
      obtain ⟨e, -, rfl⟩ := mem_map.1 hs
      simp [Stmt.namespaceImport, Stmt.isImport]
  rw [preamble, filter_append, himports, append_nil]
  cases hv : u.traceVar with
  | none => rfl
  | some id =>
    have hid : id.mark ≠ some m := hm id (by simp [Lowering.others, hv])
    simp [Stmt.constant, Stmt.isImport, hid]

def FileOutcome.isLowered : FileOutcome → Bool
  | .lowered _ => true
  | _ => false

namespace Session

variable {session : Session} {f out : File}

/-- An alias of a module occurs in the lowered file as often as the ledger has counted. -/
theorem uses_alias (h : session.Lowers f out) {a : Ident} {m : Nat}
    (ha : a ∈ (session.walk f).2.ledger.aliases) (hm : a.mark = some m) :
    out.uses a = (session.walk f).2.ledger.refs m := by
  obtain ⟨body, hbody, hout⟩ := session.lower_eq f h
  have haccount := session.walk_accounts f
  have hsound := haccount.sound
  obtain ⟨k, hk, hbase, -⟩ := hsound.marked a (mem_append_left _ ha)
  obtain rfl : k = m := by simpa [hm] using hk.symm
  have hforeign : ∀ id ∈ (session.walk f).2.others, id.mark ≠ some k := fun id hid heq =>
    hsound.alias_mark_ne ha hid (hm.trans heq.symm)
  have hgiven : ∀ id ∈ (Node.file f).idents, id.mark ≠ some k := fun id hid heq => by
    have := f.idents_givenBelow id hid k heq
    omega
  have hbound : ∀ x ∈ marked k ((session.walk f).1.2.flatMap Pin.idents ++
      (session.walk f).1.1.flatMap Stmt.idents), x ∈ (session.walk f).2.ledger.aliases := by
    intro x hx
    obtain ⟨hx, hxm⟩ := mem_marked.1 hx
    obtain hbelow | hmem := haccount.known x (perm_append_comm.subset hx)
    · have := hbelow k hxm
      omega
    · obtain hmem | hmem := mem_append.1 hmem
      · exact hmem
      · exact absurd hxm (hforeign x hmem)
  have hdeclared : ∀ id, some id ∈ session.declared f →
      id.mark ≠ some k ∧ ∀ x ∈ marked k ((session.walk f).1.2.flatMap Pin.idents ++
        (session.walk f).1.1.flatMap Stmt.idents), x.name ≠ id.name := by
    intro id hid
    obtain hid | hid := session.walk_declared f hid
    · replace hid := Aliases.mem_file_of_declaredBy hid
      refine ⟨hgiven id hid, fun x hx hname => ?_⟩
      exact hsound.apart x (mem_append_left _ (hbound x hx)) (hname ▸ mem_map_of_mem hid)
    · replace hid := pinned_others hid
      exact ⟨hforeign id hid, fun x hx => hsound.alias_name_ne (hbound x hx) hid⟩
  have hmoved := moveDeclarations_occurrences hbody
    (fun a ha => hforeign _ (mem_append_right _ (mem_map_of_mem ha))) hdeclared
  have hrefs := haccount.refs k hbase hforeign
  have hstart : (session.start f).ledger.refs k = 0 := f.ledger_initial.refs k
  have himports : occurrences k ((body.filter (·.isImport)).flatMap Stmt.idents) = 0 := by
    obtain ⟨labels, labels', heq⟩ := moveDeclarations_imports hbody
    rw [heq, occurrences_relabel, occurrences_relabel, session.walk_imports f]
    refine occurrences_eq_zero.2 fun id hid => hgiven id ?_
    obtain ⟨s, hs, hid⟩ := mem_flatMap.1 hid
    exact f.mem_idents (mem_of_mem_filter hs) hid
  have hsplit := occurrences_imports k body
  have hpreamble := preamble_uses (session.env f) (session.walk f).2 hforeign
  rw [out.uses_eq hm, hout, filter_append, flatMap_append, occurrences_append, hpreamble,
    hrefs, hstart, walkedIdents]
  rw [occurrences_append] at hmoved ⊢
  omega

theorem namespaceImports_lowered (h : session.Lowers f out) {path : String}
    (hpath : f.namespaceImports path = []) :
    out.namespaceImports path =
      ((session.walk f).2.ledger.counted.filter (·.path = path)).map (·.ident) := by
  obtain ⟨body, hbody, hout⟩ := session.lower_eq f h
  have hpaths : namespacePaths body = namespacePaths f.stmts := by
    obtain ⟨labels, labels', heq⟩ := moveDeclarations_imports hbody
    rw [← namespacePaths_imports, heq, namespacePaths_relabel, namespacePaths_relabel,
      session.walk_imports f, namespacePaths_imports]
  have hnone : (body.filterMap Stmt.namespaceImport?).filter (·.2 = path) = [] := by
    refine filter_eq_nil_iff.2 fun b hb hbp => ?_
    have hmem := mem_namespacePaths hb
    rw [hpaths] at hmem
    obtain ⟨s, hs, hsp⟩ := mem_flatMap.1 hmem
    obtain ⟨b', hb', hb'p⟩ := Option.map_eq_some_iff.1 (Option.mem_toList.1 hsp)
    have : b' ∈ (f.stmts.filterMap Stmt.namespaceImport?).filter (·.2 = path) :=
      mem_filter.2 ⟨mem_filterMap.2 ⟨s, hs, hb'⟩, by simpa [hb'p] using hbp⟩
    rw [map_eq_nil_iff.1 hpath] at this
    cases this
  have hpreamble : (preamble (session.env f) (session.walk f).2).filterMap Stmt.namespaceImport? =
      (session.walk f).2.ledger.counted.map fun e => (e.ident, e.path) := by
    have hledger : (session.walk f).2.ledger.statements.filterMap Stmt.namespaceImport? =
        (session.walk f).2.ledger.counted.map fun e => (e.ident, e.path) := by
      rw [Ledger.statements, filterMap_map]
      exact congrFun (filterMap_eq_map (f := fun e : ImportEntry => (e.ident, e.path))) _
    rw [preamble, filterMap_append, hledger]
    cases (session.walk f).2.traceVar <;> rfl
  rw [File.namespaceImports, hout, filterMap_append, filter_append, hnone, hpreamble,
    append_nil, filter_map, map_map]
  rfl

/-- No reference is ever taken back twice. In a lowered file, a module that the file does not import
itself is imported once if it is referred to at all, and the ledger has counted the occurrences of
its alias. Aliases that were given up do not occur. -/
theorem import_accounting (session : Session) (f : File) :
    (∀ d ∈ (session.walk f).2.errors, d.code ≠ .ledgerBroken) ∧
      ∀ out, (session.lower f).1 = .lowered out → ∀ path, f.namespaceImports path = [] →
        ((∃ e, (session.walk f).2.ledger.at? path = some e ∧
            out.namespaceImports path = [e.ident] ∧
            0 < (session.walk f).2.ledger.refCount path ∧
            (session.walk f).2.ledger.refCount path = out.uses e.ident) ∨
          ((session.walk f).2.ledger.at? path = none ∧ out.namespaceImports path = [] ∧
            (session.walk f).2.ledger.refCount path = 0)) ∧
        ∀ a, (a, path) ∈ (session.walk f).2.ledger.retired → out.uses a = 0 := by
  have haccount := session.walk_accounts f
  have hledger := haccount.sound.ledger
  have hmarks : ((session.walk f).2.ledger.aliases.map (·.mark)).Nodup :=
    (nodup_append'.1 (map_append ▸ haccount.sound.marks)).1
  refine ⟨haccount.errors (by simp [start]), fun out hout path hpath => ⟨?_, fun a ha => ?_⟩⟩
  · have himports := namespaceImports_lowered hout hpath
    rw [Ledger.counted_of_path hledger] at himports
    cases he : (session.walk f).2.ledger.at? path with
    | none => exact .inr ⟨rfl, by simpa [he] using himports, by simp [Ledger.refCount, he]⟩
    | some e =>
      have hmem := Ledger.at?_mem he
      cases hb : e.balance with
      | permanent =>
        -- A permanent entry would be an import of the file itself.
        have hown := (f.ledger_initial.permanent e (haccount.permanent e hmem hb)).2
        rw [File.namespaceImports, map_eq_nil_iff, filter_eq_nil_iff] at hpath
        exact absurd (by simpa using Ledger.at?_path he) (hpath _ hown)
      | counted n =>
        have halias := Ledger.mem_aliases_of_counted hmem hb
        obtain ⟨m, hm, -⟩ := hledger.marked e.ident halias
        have hcount : (session.walk f).2.ledger.refCount path = n := by
          simp [Ledger.refCount, he, hb, Balance.toNat]
        refine .inl ⟨e, rfl, ?_, ?_, ?_⟩
        · simpa [he, ImportEntry.isCounted, hb] using himports
        · exact hcount ▸ hledger.positive e hmem n hb
        · rw [hcount, uses_alias hout halias hm, Ledger.refs_of_at? hledger hmarks he hb hm]
  · have hmem : a ∈ (session.walk f).2.ledger.retired.map (·.1) := mem_map_of_mem ha
    have halias : a ∈ (session.walk f).2.ledger.aliases := mem_append_right _ hmem
    obtain ⟨m, hm, -⟩ := hledger.marked a halias
    rw [uses_alias hout halias hm, Ledger.refs_of_retired hledger hmarks hmem hm]

/-- `f(a)(x)`, where `f` has a data-first variant, and `f` and `x` are imported. -/
def fusedCall : File :=
  { stmts := [.expr {} (.call {} {}
      (.call {} { dataFirst := some { exportName := "g" } }
        (.ident { name := "f", globalImport := some { path := "n", name := "f" } }) []
        [.ident { name := "a" }]) []
      [.ident { name := "x", globalImport := some { path := "m", name := "x" } }])] }

/-- Fusing a call takes back the import of its callee and keeps that of its argument. -/
theorem import_accounting_fused :
    ∃ out, (({ compilation := {} } : Session).lower fusedCall).1 = .lowered out ∧
      fusedCall.namespaceImports "m" = [] ∧ fusedCall.namespaceImports "n" = [] ∧
      (∃ binding, out.namespaceImports "m" = [binding] ∧ out.uses binding = 1) ∧
      out.namespaceImports "n" = [] := by
  have haccount := import_accounting { compilation := {} } fusedCall
  have hm : fusedCall.namespaceImports "m" = [] := by decide +kernel
  have hn : fusedCall.namespaceImports "n" = [] := by decide +kernel
  have hcount : (({ compilation := {} } : Session).walk fusedCall).2.ledger.refCount "m" = 1 := by
    decide +kernel
  have hdropped : (({ compilation := {} } : Session).walk fusedCall).2.ledger.refCount "n" = 0 := by
    decide +kernel
  have hlowered : ∃ out, (({ compilation := {} } : Session).lower fusedCall).1 = .lowered out := by
    cases h : (({ compilation := {} } : Session).lower fusedCall).1 with
    | lowered out => exact ⟨out, rfl⟩
    | _ =>
      have : (({ compilation := {} } : Session).lower fusedCall).1.isLowered = true := by
        decide +kernel
      rw [h] at this
      cases this
  obtain ⟨out, hout⟩ := hlowered
  obtain ⟨⟨e, -, himports, -, huses⟩ | ⟨-, -, hzero⟩, -⟩ := haccount.2 out hout "m" hm
  · obtain ⟨⟨-, -, -, hpos, -⟩ | ⟨-, hnone, -⟩, -⟩ := haccount.2 out hout "n" hn
    · omega
    · exact ⟨out, hout, hm, hn, ⟨e.ident, himports, huses.symm.trans hcount⟩, hnone⟩
  · omega

end Session

end ExtensionLowering
