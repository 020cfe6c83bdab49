import ExtensionLowering.Lowering.File
import ExtensionLowering.Proofs.Tree.Idents
/-!
# Marked imports

A file as it is read has no shared identifiers. Its namespace imports are marked before it is
lowered, so that the references inserted for them can be told. Marking changes nothing else, and one
mark stands for one identifier.
-/
namespace ExtensionLowering

open List

def Stmt.isImport : Stmt → Bool
  | .importDecl .. => true
  | _ => false

/-- No identifier of the file is shared. -/
def File.Unshared (f : File) : Prop :=
  ∀ id ∈ (Node.file f).idents, id.mark = none

instance (f : File) : Decidable f.Unshared :=
  inferInstanceAs (Decidable (∀ id ∈ (Node.file f).idents, id.mark = none))

/-- What does not look at marks is the same before and after marking. -/
theorem markImports_flatMap {β : Type} (g : Stmt → List β)
    (hg : ∀ t (b : Ident) d ns m n, g (.importDecl t (some { b with mark := n }) d ns m) =
      g (.importDecl t (some b) d ns m)) (n : Nat) (ss : List Stmt) :
    (markImports n ss).flatMap g = ss.flatMap g := by
  fun_induction markImports n ss with
  | case1 => rfl
  | case2 n t b d ns m ss ih => rw [flatMap_cons, flatMap_cons, ih, hg]
  | case3 n s ss _ ih => rw [flatMap_cons, flatMap_cons, ih]

theorem markImports_names (n : Nat) (ss : List Stmt) :
    ((markImports n ss).flatMap Stmt.idents).map (·.name) =
      (ss.flatMap Stmt.idents).map (·.name) := by
  rw [map_flatMap, map_flatMap]
  exact markImports_flatMap _ (by simp) n ss

theorem File.markImports_names (f : File) : f.markImports.names = f.names := by
  rw [names, names, Node.idents_file, Node.idents_file]
  exact ExtensionLowering.markImports_names 0 f.stmts

theorem Stmt.namespaceImport?_eq_none {s : Stmt}
    (h : ∀ t b d ns m, s = .importDecl t (some b) d ns m → False) : s.namespaceImport? = none := by
  unfold namespaceImport?
  split
  · exact (h _ _ _ _ _ rfl).elim
  · rfl

section Marks

variable {n : Nat} {ss : List Stmt}

theorem le_of_markImports (h : ∀ id ∈ ss.flatMap Stmt.idents, id.mark = none) {id : Ident} {m : Nat}
    (hid : id ∈ (markImports n ss).flatMap Stmt.idents) (hm : id.mark = some m) : n ≤ m := by
  fun_induction markImports n ss with
  | case1 => cases hid
  | case2 n t b d ns k ss ih =>
    simp only [flatMap_cons, Stmt.idents_importDecl, mem_append, or_imp,
      forall_and] at h hid
    obtain ((hid | hid) | hid) | hid := hid
    · obtain rfl : id = { b with mark := some n } := by simpa using hid
      exact Nat.le_of_eq (Option.some.inj hm)
    · simp [h.1.1.2 id hid] at hm
    · simp [h.1.2 id hid] at hm
    · exact Nat.le_of_succ_le (ih h.2 hid)
  | case3 n s ss _ ih =>
    simp only [flatMap_cons, mem_append, or_imp, forall_and] at h hid
    obtain hid | hid := hid
    · simp [h.1 id hid] at hm
    · exact ih h.2 hid

/-- Identifiers with one mark are one. -/
theorem eq_of_markImports (h : ∀ id ∈ ss.flatMap Stmt.idents, id.mark = none) {a b : Ident} {m : Nat}
    (ha : a ∈ (markImports n ss).flatMap Stmt.idents) (ham : a.mark = some m)
    (hb : b ∈ (markImports n ss).flatMap Stmt.idents) (hbm : b.mark = some m) : a = b := by
  fun_induction markImports n ss with
  | case1 => cases ha
  | case2 n t x d ns k ss ih =>
    have hmarked : ∀ id ∈ (markImports (n + 1) ss).flatMap Stmt.idents, id.mark ≠ some n :=
      fun id hid hn => by
        have := le_of_markImports (fun i hi => h i (mem_append_right _ hi)) hid hn
        omega
    have hhead : ∀ id ∈ (Stmt.importDecl t (some { x with mark := some n }) d ns k).idents,
        id.mark = some m → id = { x with mark := some n } := by
      intro id hid hm
      simp only [flatMap_cons, Stmt.idents_importDecl, mem_append, or_imp,
        forall_and] at h hid
      obtain (hid | hid) | hid := hid
      · simpa using hid
      · simp [h.1.1.2 id hid] at hm
      · simp [h.1.2 id hid] at hm
    rw [flatMap_cons, mem_append] at ha hb
    obtain ha | ha := ha <;> obtain hb | hb := hb
    · rw [hhead a ha ham, hhead b hb hbm]
    · obtain rfl := hhead a ha ham
      exact absurd (hbm.trans ham.symm) (hmarked b hb)
    · obtain rfl := hhead b hb hbm
      exact absurd (ham.trans hbm.symm) (hmarked a ha)
    · exact ih (fun i hi => h i (mem_append_right _ hi)) ha hb
  | case3 n s ss _ ih =>
    simp only [flatMap_cons, mem_append, or_imp, forall_and] at h ha hb
    obtain ha | ha := ha
    · simp [h.1 a ha] at ham
    · obtain hb | hb := hb
      · simp [h.1 b hb] at hbm
      · exact ih h.2 ha hb

theorem markImports_le {b : Ident × String}
    (h : b ∈ (markImports n ss).filterMap Stmt.namespaceImport?) :
    ∃ m, b.1.mark = some m ∧ n ≤ m := by
  fun_induction markImports n ss with
  | case1 => cases h
  | case2 n t x d ns k ss ih =>
    rw [filterMap_cons] at h
    split at h
    · obtain ⟨m, hm, hle⟩ := ih h
      exact ⟨m, hm, by omega⟩
    · rename_i hx
      obtain rfl | h := mem_cons.1 h
      · cases k with
        | none => cases hx
        | some path =>
          cases hx
          exact ⟨n, rfl, Nat.le_refl n⟩
      · obtain ⟨m, hm, hle⟩ := ih h
        exact ⟨m, hm, by omega⟩
  | case3 n s ss hs ih =>
    rw [filterMap_cons, Stmt.namespaceImport?_eq_none hs] at h
    exact ih h

/-- The namespace imports of a file have different marks. -/
theorem markImports_nodup (n : Nat) (ss : List Stmt) :
    (((markImports n ss).filterMap Stmt.namespaceImport?).map (·.1.mark)).Nodup := by
  fun_induction markImports n ss with
  | case1 => exact nodup_nil
  | case2 n t x d ns k ss ih =>
    cases k with
    | none => exact ih
    | some path =>
      refine nodup_cons.2 ⟨fun h => ?_, ih⟩
      obtain ⟨b, hb, hmark⟩ := mem_map.1 h
      obtain ⟨m, hm, hle⟩ := markImports_le hb
      rw [hm] at hmark
      have := Option.some.inj hmark
      omega
  | case3 n s ss hs ih =>
    rw [filterMap_cons, Stmt.namespaceImport?_eq_none hs]
    exact ih

theorem mem_of_markImports {s : Stmt} (h : s ∈ markImports n ss) (himport : s.isImport = false) :
    s ∈ ss := by
  fun_induction markImports n ss with
  | case1 => exact h
  | case2 n t b d ns m ss ih =>
    obtain rfl | h := mem_cons.1 h
    · cases himport
    · exact mem_cons_of_mem _ (ih h)
  | case3 n s' ss _ ih =>
    obtain rfl | h := mem_cons.1 h
    · exact mem_cons_self
    · exact mem_cons_of_mem _ (ih h)

end Marks

/-- Only imports are marked, and one mark stands for one identifier. -/
structure File.Marked (f : File) : Prop where
  plain : ∀ s ∈ f.stmts, s.isImport = false → ∀ id ∈ s.idents, id.mark = none
  apart : ∀ {a b : Ident} {m : Nat}, a ∈ (Node.file f).idents → b ∈ (Node.file f).idents →
    a.mark = some m → b.mark = some m → a = b
  imports : ((f.stmts.filterMap Stmt.namespaceImport?).map (·.1.mark)).Nodup

theorem File.Unshared.marked {f : File} (hf : f.Unshared) : f.markImports.Marked := by
  simp only [File.Unshared, Node.idents_file] at hf
  refine ⟨fun s hs himport id hid => hf id ?_, fun ha hb ham hbm => ?_, markImports_nodup 0 f.stmts⟩
  · exact mem_flatMap.2 ⟨s, mem_of_markImports hs himport, hid⟩
  · rw [Node.idents_file] at ha hb
    exact eq_of_markImports hf ha ham hb hbm

end ExtensionLowering
