import StyleWeave.Proofs.Render.Coupling
import StyleWeave.Proofs.Render.Reported
import StyleWeave.Proofs.Render.Derivation
import StyleWeave.Proofs.Path.Order
import StyleWeave.Render.Script

/-!
# What a render has found

A renderer reaches files only by asking its locator, so what it has found is told by the questions
it has put (`Renderer.Asks`). Over a lookup these are the files that were answered, no others. The
inlining renderer is such a renderer, and each document that one of its passes goes through is the
one that it has started with or was found.
-/

namespace StyleWeave

variable {ρ : Type}

namespace Script

theorem askAll_append (locator : Locator PathSet) (found : PathSet)
    (questions questions' : List Question) :
    (askAll locator found (questions ++ questions')).2 =
      (askAll locator (askAll locator found questions).2 questions').2 := by
  induction questions generalizing found with
  | nil => rfl
  | cons q rest ih => exact ih (ask locator found q).2

/-- The files that an answer names. -/
def Answer.paths : Answer → List Path
  | .located (.ok (some files)) _ => files
  | _ => []

/-- The files that a locator names when it is asked some questions in turn. -/
def named (locator : Locator PathSet) (questions : List Question) : List Path :=
  (askAll locator .empty questions).1.flatMap Answer.paths

theorem contains_record (found : PathSet) (answer : Except Pending (Option Path)) (n : Nat)
    (p : Path) :
    (Lookup.record found answer).2.contains p =
      (found.contains p || (Answer.located (Lookup.record found answer).1 n).paths.contains p) := by
  rcases answer with pending | _ | file
  · simp [Lookup.record, Answer.paths]
  · simp [Lookup.record, Answer.paths]
  · show (found.insert file).contains p = (found.contains p || [file].contains p)
    rw [PathSet.contains_insert, Bool.or_comm]
    simp

theorem contains_ask (l : Lookup) (found : PathSet) (q : Question) (p : Path) :
    (ask l.locator found q).2.contains p =
      (found.contains p || (ask l.locator found q).1.paths.contains p) := by
  cases q with
  | find path paths ignore => exact contains_record found _ _ p
  | index name paths ignore => exact contains_record found _ _ p
  | read file => simp [ask, Lookup.locator, Answer.paths]

/-- What is found is what was answered. -/
theorem contains_askAll (l : Lookup) (found : PathSet) (questions : List Question) (p : Path) :
    (askAll l.locator found questions).2.contains p =
      (found.contains p ||
        ((askAll l.locator found questions).1.flatMap Answer.paths).contains p) := by
  induction questions generalizing found with
  | nil => simp [askAll]
  | cons q rest ih =>
    have hstep : askAll l.locator found (q :: rest) =
        ((ask l.locator found q).1 :: (askAll l.locator (ask l.locator found q).2 rest).1,
          (askAll l.locator (ask l.locator found q).2 rest).2) := rfl
    rw [hstep, List.flatMap_cons, List.contains_append, ← Bool.or_assoc, ← contains_ask]
    exact ih _

theorem contains_named (l : Lookup) (questions : List Question) (p : Path) :
    (askAll l.locator .empty questions).2.contains p = (named l.locator questions).contains p := by
  rw [contains_askAll]
  simp [named, PathSet.contains, PathSet.empty]

end Script

/-- The renderer changes what is found only by asking the locator. -/
def Renderer.Asks (renderer : Renderer ρ) : Prop :=
  ∀ r file source options locator found step,
    renderer.render r file source options locator found = some step →
      ∃ questions, step.found = (Script.askAll locator found questions).2

theorem Script.renderer_asks : Script.renderer.Asks := by
  intro s file source options locator found step h
  unfold Script.renderer at h
  dsimp only at h
  split at h
  · cases h
  · next entry _ _ =>
    obtain rfl := Option.some.inj h
    exact ⟨entry.questions, rfl⟩

namespace Inline

open Script (Question askAll askAll_append)

variable {options : Options} {locator : Locator PathSet}

theorem asks_locateIn (options : Options) (locator : Locator PathSet) (importer : Path)
    (name : String) (found : PathSet) :
    ∃ questions : List Question,
      (Setting.locateIn options locator importer name found).2 =
        (askAll locator found questions).2 := by
  obtain ⟨byPath, hpath⟩ : ∃ q : Question,
      q = .find (filePath options.dialect name) (searchPaths options importer) (some importer) :=
    ⟨_, rfl⟩
  obtain ⟨byName, hname⟩ : ∃ q : Question,
      q = .index name (searchPaths options importer) (some importer) := ⟨_, rfl⟩
  unfold Setting.locateIn
  dsimp only
  rcases hfind : locator.find found (filePath options.dialect name) (searchPaths options importer)
    (some importer) with ⟨pending | _ | files, found₁⟩
  · exact ⟨[byPath], by simp [askAll, Script.ask, hpath, hfind]⟩
  · -- The path is not found, so the name is asked for as well.
    refine ⟨[byPath, byName], ?_⟩
    rcases hindex : locator.index found₁ name (searchPaths options importer) (some importer) with
      ⟨pending | _ | files, found₂⟩
    all_goals simp [askAll, Script.ask, hpath, hname, hfind, hindex]
  · exact ⟨[byPath], by simp [askAll, Script.ask, hpath, hfind]⟩

/-- The two passes are the same, and what they have found comes from questions. -/
def Asked (locator : Locator PathSet) (found : PathSet) (s t : PathSet × ParseCache) : Prop :=
  s = t ∧ ∃ questions : List Question, s.1 = (askAll locator found questions).2

theorem couples_asked (options : Options) (locator : Locator PathSet) (found : PathSet) :
    Couples (Asked locator found) (.ofLocator options locator) (.ofLocator options locator) where
  options := rfl
  locate importer name s c t d h := by
    obtain ⟨heq, questions, rfl⟩ := h
    obtain ⟨rfl, rfl⟩ := Prod.mk.inj heq
    obtain ⟨more, hmore⟩ := asks_locateIn options locator importer name
      (askAll locator found questions).2
    refine ⟨rfl, rfl, questions ++ more, ?_⟩
    rw [askAll_append]
    exact hmore
  read file s c t d h := by
    obtain ⟨heq, questions, rfl⟩ := h
    obtain ⟨rfl, rfl⟩ := Prod.mk.inj heq
    refine ⟨rfl, rfl, questions ++ [.read file], ?_⟩
    rw [askAll_append]
    rfl

theorem renderer_asks (depth : Nat) : (renderer depth).Asks := by
  intro parsed file source options locator found step h
  rw [render_eq] at h
  obtain ⟨result, -, rfl⟩ := Option.map_eq_some_iff.1 h
  have hlinked : Linked (Asked locator found) { search := found, parsed }
      { search := found, parsed } := ⟨⟨rfl, [], rfl⟩, rfl, rfl, rfl, rfl⟩
  have hparse : ∀ (source : String) (s : PathSet) (c : ParseCache) (t : PathSet) (d : ParseCache),
      Asked locator found (s, c) (t, d) → (c.parse source).1 = (d.parse source).1 ∧
        Asked locator found (s, (c.parse source).2) (t, (d.parse source).2) := by
    rintro source s c t d ⟨heq, questions, hs⟩
    obtain ⟨rfl, rfl⟩ := Prod.mk.inj heq
    exact ⟨rfl, rfl, questions, hs⟩
  obtain ⟨-, hend⟩ := coupled_inline (couples_asked options locator found) hparse depth [] file
    source "" _ _ hlinked
  exact hend.state.2

/-! ## Documents that a pass goes through -/

/-- The files that a part of a pass goes through, whatever comes of their imports. -/
def Task.entered : Task → List Path
  | .document file _ _ => [file]
  | .files _ _ _ listed => listed
  | _ => []

/-- All sources of a pass are met. -/
def Collected (root : Path) (p : Pass PathSet) : Prop :=
  ∀ file ∈ p.sources, Met root p.search file

theorem Met.mono {root file : Path} {found found' : PathSet} (h : Met root found file)
    (hsub : found.paths ⊆ found'.paths) : Met root found' file :=
  h.imp_right fun ⟨p, hp, heq⟩ => ⟨p, hsub hp, heq⟩

theorem subset_locate (l : Lookup) (importer : Path) (name : String) (found : PathSet) :
    found.paths ⊆ ((Setting.ofLocator l.options l.locator).locate importer name found).2.paths := by
  intro p hp
  show p ∈ (Setting.locateIn l.options l.locator importer name found).2.paths
  rw [locateIn_locator]
  rcases l.search importer name with pending | _ | file
  · exact hp
  · exact hp
  · exact PathSet.mem_insertInto hp

theorem met_locate (l : Lookup) (root importer : Path) (name : String) (found : PathSet)
    {files : List Path}
    (h : ((Setting.ofLocator l.options l.locator).locate importer name found).1 = .ok files) :
    ∀ file ∈ files,
      Met root ((Setting.ofLocator l.options l.locator).locate importer name found).2 file := by
  have hlocate : (Setting.ofLocator l.options l.locator).locate importer name found = _ :=
    locateIn_locator l importer name found
  rw [hlocate] at h ⊢
  obtain ⟨target, htarget, rfl⟩ := located_eq_ok_iff.1 h
  intro file hfile
  obtain rfl := List.mem_singleton.1 hfile
  rw [htarget]
  exact met_insert root found file

theorem mem_sources_sourceIndex {file listed : Path} {p : Pass PathSet}
    (h : listed ∈ (sourceIndex file p).2.sources) : listed = file ∨ listed ∈ p.sources := by
  unfold sourceIndex at h
  split at h
  · exact Or.inr h
  · rcases List.mem_append.1 h with h | h
    · exact Or.inr h
    · exact Or.inl (List.mem_singleton.1 h)

/-- A part of a pass that goes through met documents has met all that it goes through. -/
theorem Does.collected {l : Lookup} {root : Path} {depth : Nat} {stack : List Path} {task : Task}
    {writes : List Write} {p q : Pass PathSet}
    (h : Does (.ofLocator l.options l.locator) depth stack task writes p q)
    (hentered : ∀ file ∈ task.entered, Met root p.search file) (hp : Collected root p) :
    Collected root q ∧ p.search.paths ⊆ q.search.paths := by
  induction h with
  | @document _ _ file source _ _ _ p q parse acts ih =>
    obtain ⟨more, hadded⟩ := sourceIndex_snd file { p with parsed := (p.parsed.parse source).2 }
    have hsearch : (sourceIndex file { p with parsed := (p.parsed.parse source).2 }).2.search =
        p.search := by rw [hadded]
    rw [hsearch] at ih
    refine ih (by simp [Task.entered]) fun listed hlisted => ?_
    rw [hsearch]
    rcases mem_sources_sourceIndex hlisted with rfl | hlisted
    · exact hentered listed (by simp [Task.entered])
    · exact hp listed hlisted
  | done => exact ⟨hp, List.Subset.refl _⟩
  | line hwritten others ih => exact ih (by simp [Task.entered]) hp
  | fragment hwritten others ih => exact ih (by simp [Task.entered]) hp
  | site here others ih ih' =>
    obtain ⟨hm, hsub⟩ := ih (by simp [Task.entered]) hp
    obtain ⟨hq, hsub'⟩ := ih' (by simp [Task.entered]) hm
    exact ⟨hq, List.Subset.trans hsub hsub'⟩
  | noExpr => exact ⟨hp, List.Subset.refl _⟩
  | url hurl hwritten others ih => exact ih (by simp [Task.entered]) hp
  | rule hurl hrule hwritten others ih => exact ih (by simp [Task.entered]) hp
  | @located _ _ importer _ _ _ name _ files _ _ p m q hurl hrule hlocate here others ih ih' =>
    have hfound := subset_locate l importer name p.search
    obtain ⟨hm, hsub⟩ := ih (met_locate l root importer name p.search hlocate)
      fun file hfile => (hp file hfile).mono hfound
    obtain ⟨hq, hsub'⟩ := ih' (by simp [Task.entered]) hm
    exact ⟨hq, List.Subset.trans (List.Subset.trans hfound hsub) hsub'⟩
  | noFile => exact ⟨hp, List.Subset.refl _⟩
  | skipped hskipped others ih =>
    exact ih (fun file hfile => hentered file (List.mem_cons_of_mem _ hfile)) hp
  | @included _ _ _ _ _ file _ rest _ _ p m q hnew hstack hread here others ih ih' =>
    -- Reading a file finds nothing.
    have hfile : ∀ entered ∈ [file], Met root p.search entered := by
      intro entered hentry
      obtain rfl := List.mem_singleton.1 hentry
      exact hentered entered List.mem_cons_self
    obtain ⟨hm, hsub⟩ := ih hfile hp
    obtain ⟨hq, hsub'⟩ := ih'
      (fun file hfile => (hentered file (List.mem_cons_of_mem _ hfile)).mono hsub) hm
    exact ⟨hq, List.Subset.trans hsub hsub'⟩

/-- All documents that a successful pass goes through are met. -/
theorem met_of_sources {l : Lookup} {depth : Nat} {root : Path} {source : String}
    {parsed : ParseCache} {pass : Except Halt Unit × Pass PathSet}
    (hpass : passThrough (.ofLocator l.options l.locator) depth root source .empty parsed = pass)
    (h : pass.1 = .ok ()) : ∀ file ∈ pass.2.sources, Met root pass.2.search file := by
  obtain ⟨result, q⟩ := pass
  obtain rfl : result = .ok () := h
  obtain ⟨writes, hdoes⟩ := does_of_exec hpass
  have hroot : ∀ file ∈ [root], Met root .empty file := by
    intro file hfile
    obtain rfl := List.mem_singleton.1 hfile
    exact Or.inl (BEq.refl file)
  have hstart : Collected root { search := .empty, parsed } := by
    intro file hfile
    cases hfile
  exact (hdoes.collected hroot hstart).1

end Inline

end StyleWeave
