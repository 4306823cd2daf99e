import StyleWeave.Proofs.Path.Set
import StyleWeave.Proofs.Render.Finder

/-!
# Where missing imports come from

A pass over a lookup that ends with a missing reference has come to an import of that reference, in
a document which it started with or found before, and neither the tree nor the cache has a file for
that import (`reported_of_pass`).
-/

namespace StyleWeave.Inline

variable {l : Lookup} {root : Path} {source : String}

/-- The document is the one that a pass started with, or it was found. -/
def Met (root : Path) (found : PathSet) (file : Path) : Prop :=
  file == root ∨ ∃ p ∈ found.paths, file == p

theorem Met.insert {found : PathSet} {file : Path} (h : Met root found file) (target : Path) :
    Met root (found.insert target) file :=
  h.imp_right fun ⟨p, hp, heq⟩ => ⟨p, PathSet.mem_insertInto hp, heq⟩

theorem met_insert (root : Path) (found : PathSet) (file : Path) :
    Met root (found.insert file) file :=
  Or.inr (PathSet.exists_mem_insertInto file found.paths)

/-- The text by which a pass goes through a document: the given one for the document it started
with, and what the tree has for the others. -/
def Holds (tree : SourceTree) (root : Path) (source : String) (file : Path) (text : String) :
    Prop :=
  if file == root then text = source else tree.read file = .ok text

/-- A document that was met imports what the lookup lacks. -/
structure Reported (l : Lookup) (root : Path) (source : String) (found : PathSet)
    (importer : Path) (name : String) : Prop where
  met : Met root found importer
  imported : ∃ text, Holds l.tree root source importer text ∧ Imports l.options text name
  lacks : Lacks l.options l.known? importer name

theorem upholds_reported (l : Lookup) (root : Path) (source : String) :
    Upholds (fun stack => stack.contains root = true) (Holds l.tree root source)
      (fun docs found => ∀ file ∈ docs, Met root found file)
      (fun halt found => ∀ pending, halt = .pending pending → ∃ importer name,
        pending = pendingOf l.options importer name ∧ Reported l root source found importer name)
      (.ofLocator l.options l.locator) where
  nest file stack hstack := by
    rw [List.contains_cons, hstack, Bool.or_true]
  mono hsub hdocs file hfile := hdocs file (hsub hfile)
  fails := by simp
  tooDeep := by simp
  locate docs importer text name found hdocs himporter htext himports := by
    show Ends _ _ (Setting.locateIn l.options l.locator importer name found)
    rw [locateIn_locator, Lookup.search_eq]
    cases hknown : l.known? importer name with
    | some target =>
      intro file hfile
      rcases List.mem_cons.1 hfile with rfl | hfile
      · exact met_insert root found file
      · exact (hdocs file hfile).insert target
    | none =>
      unfold Options.answer
      by_cases hhost : l.options.dialect.isHostReference name = true
      · rw [if_pos hhost]
        intro pending hpending
        refine ⟨importer, name, (Halt.pending.inj hpending).symm, hdocs importer himporter, ?_, ?_⟩
        · exact ⟨text, htext, himports⟩
        · exact ⟨hhost, hknown⟩
      · rw [if_neg hhost]
        simp [Ends, located, notLocated]
  read docs stack file found hdocs _ hstack hnew := by
    show Ends _ _ ((l.tree.read file).mapError Halt.failed, found)
    cases hread : l.tree.read file with
    | error failure => simp [Ends, Except.mapError]
    | ok text =>
      -- The document that the pass started with lies on the stack, and is not read again.
      have hother : ¬ (file == root) = true := fun heq => by
        obtain ⟨p, hp, hroot⟩ := List.contains_iff_exists_mem_beq.1 hstack
        have hcontains : stack.contains file = true :=
          List.contains_iff_exists_mem_beq.2 ⟨p, hp, BEq.trans heq hroot⟩
        simp [hnew] at hcontains
      refine ⟨hdocs, ?_⟩
      unfold Holds
      rw [if_neg hother]
      exact hread

/-- A pass that ends with a missing reference has met the document of an import which makes it and
is lacked. -/
theorem reported_of_pass {depth : Nat} {parsed : ParseCache} (hparsed : parsed.Valid)
    {pending : Pending} {pass : Except Halt Unit × Pass PathSet}
    (hpass : passThrough (.ofLocator l.options l.locator) depth root source .empty parsed = pass)
    (h : pass.1 = .error (.pending pending)) :
    ∃ importer name, pending = pendingOf l.options importer name ∧
      Reported l root source pass.2.search importer name := by
  have hroot : ∀ file ∈ [root], Met root .empty file := by
    intro file hfile
    obtain rfl := List.mem_singleton.1 hfile
    exact Or.inl (BEq.refl file)
  have hsource : Holds l.tree root source root source := by
    unfold Holds
    rw [if_pos (BEq.refl root)]
  have hends := ends_passThrough (upholds_reported l root source) depth (by simp) hsource hroot
    hparsed
  rw [hpass, h] at hends
  exact hends pending rfl

end StyleWeave.Inline
