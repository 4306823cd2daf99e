import StyleWeave.Proofs.Cache
import StyleWeave.Proofs.Render.Lookup
import StyleWeave.Proofs.Render.Simulation

/-!
# Passes by what is known

A pass over a lookup depends on it only by the files that are known for the imports of the documents
it reaches. A `Finder` says which these are, and `passOver` makes a pass with it. What two finders
make of a document is compared by `passOver_compare`: where the first does not know a file that the
second knows, its pass may end with that import as missing; otherwise both end alike.
-/

namespace StyleWeave.Inline

/-- The file that is known for an import of a document, by the import's name. -/
abbrev Finder := Path → String → Option Path

/-- The setting in which just the files of a finder are known. -/
def Setting.finding (options : Options) (tree : SourceTree) (known : Finder) : Setting Unit where
  options
  locate importer name _ :=
    (located options importer name (options.answer importer name (known importer name)), ())
  read file _ := ((tree.read file).mapError Halt.failed, ())

/-- The pass through a document in which just the files of a finder are known. -/
def passOver (options : Options) (tree : SourceTree) (known : Finder) (depth : Nat) (file : Path)
    (source : String) : Except Halt Unit × Pass Unit :=
  passThrough (.finding options tree known) depth file source () {}

/-- The documents with their texts that a pass may reach. -/
inductive Reaches (options : Options) (tree : SourceTree) (known : Finder) (file : Path)
    (source : String) : Path → String → Prop where
  | entry : Reaches options tree known file source file source
  | imported {importer target : Path} {text name text' : String}
      (from_ : Reaches options tree known file source importer text)
      (imports : Imports options text name) (found : known importer name = some target)
      (read : tree.read target = .ok text') :
      Reaches options tree known file source target text'

/-- An import that a pass may come to, by its document and its name. -/
def ReachesImport (options : Options) (tree : SourceTree) (known : Finder) (file : Path)
    (source : String) (importer : Path) (name : String) : Prop :=
  ∃ text, Reaches options tree known file source importer text ∧ Imports options text name

/-- The import needs the host, and nothing is known of it. -/
def Lacks (options : Options) (known : Finder) (importer : Path) (name : String) : Prop :=
  options.dialect.isHostReference name = true ∧ known importer name = none

def pendingOf (options : Options) (importer : Path) (name : String) : Pending :=
  ⟨options.reference importer name, name, importer⟩

section

variable {σ : Type} {options : Options} {tree : SourceTree} {known known' : Finder} {depth : Nat}
  {file : Path} {source : String}

theorem located_answer_error {importer : Path} {name : String} {pending : Pending}
    (h : located options importer name (options.answer importer name (known importer name)) =
      .error (.pending pending)) :
    Lacks options known importer name ∧ pending = pendingOf options importer name := by
  unfold Options.answer at h
  split at h
  · simp [located] at h
  · next hknown =>
    split at h
    · next hhost => exact ⟨⟨hhost, hknown⟩, by simpa [located, pendingOf, eq_comm] using h⟩
    · simp [located, notLocated] at h

/-- A file that is read for an import is a document that is reached. -/
theorem Reaches.of_read {importer target : Path} {name text : String}
    (hi : ReachesImport options tree known file source importer name)
    (hknown : known importer name = some target)
    (hr : (tree.read target).mapError Halt.failed = .ok text) :
    Reaches options tree known file source target text := by
  obtain ⟨text', hreach, himports⟩ := hi
  refine .imported hreach himports hknown ?_
  cases hread : tree.read target with
  | error failure =>
    rw [hread] at hr
    cases hr
  | ok text' =>
    rw [hread] at hr
    exact congrArg Except.ok (Except.ok.inj hr)

theorem finding_read_error {target : Path} {s : Unit} {halt : Halt}
    (h : ((Setting.finding options tree known).read target s).1 = .error halt) :
    ∃ failure, halt = .failed failure := by
  unfold Setting.finding at h
  dsimp only at h
  cases hread : tree.read target with
  | error failure =>
    rw [hread] at h
    exact ⟨failure, (Except.error.inj h).symm⟩
  | ok text =>
    rw [hread] at h
    cases h

/-- The two finders know the same of each import that is reached, except that the first may lack
some that the second knows. -/
def Within (options : Options) (tree : SourceTree) (known known' : Finder) (file : Path)
    (source : String) : Prop :=
  ∀ importer name, ReachesImport options tree known' file source importer name →
    known importer name = known' importer name ∨ Lacks options known importer name

theorem finding_agree (h : Within options tree known known' file source) :
    Agree (fun _ _ => True)
      (fun halt => ∃ importer name, halt = .pending (pendingOf options importer name) ∧
        ReachesImport options tree known' file source importer name ∧
        Lacks options known importer name ∧ known' importer name ≠ none)
      (fun halt => ∀ pending, halt = .pending pending → ∃ importer name,
        pending = pendingOf options importer name ∧
        ReachesImport options tree known' file source importer name ∧
        Lacks options known importer name)
      (Reaches options tree known' file source)
      (fun target => ∃ importer name, ReachesImport options tree known' file source importer name ∧
        known' importer name = some target)
      (.finding options tree known) (.finding options tree known') := by
  refine ⟨rfl, rfl, ?_, ?_, by simp⟩
  · intro importer text name hreach himports s t _
    have hi : ReachesImport options tree known' file source importer name :=
      ⟨text, hreach, himports⟩
    have hhalt : ∀ halt pending,
        located options importer name (options.answer importer name (known importer name)) =
          .error halt → halt = .pending pending → ∃ importer name,
        pending = pendingOf options importer name ∧
        ReachesImport options tree known' file source importer name ∧
        Lacks options known importer name := by
      rintro halt pending hloc rfl
      obtain ⟨hlacks, hpending⟩ := located_answer_error hloc
      exact ⟨importer, name, hpending, hi, hlacks⟩
    by_cases heq : known importer name = known' importer name
    · right
      refine ⟨by simp [Setting.finding, heq], trivial, fun halt hloc pending hp => ?_, ?_⟩
      · exact hhalt halt pending hloc hp
      · intro files hfiles target htarget
        obtain ⟨target', hanswer, rfl⟩ := located_eq_ok_iff.1 hfiles
        obtain rfl := List.mem_singleton.1 htarget
        exact ⟨importer, name, hi, heq ▸ Options.answer_eq_some_iff.1 hanswer⟩
    · left
      have hlacks := (h importer name hi).resolve_left heq
      refine ⟨.pending (pendingOf options importer name), ?_, ⟨importer, name, rfl, hi, hlacks, ?_⟩,
        ?_⟩
      · simp [Setting.finding, Options.answer, hlacks.1, hlacks.2, located, pendingOf]
      · exact fun hnone => heq (hlacks.2.trans hnone.symm)
      · intro pending hp
        exact ⟨importer, name, (Halt.pending.inj hp).symm, hi, hlacks⟩
  · rintro target ⟨importer, name, hi, hknown⟩ s t _
    right
    refine ⟨rfl, trivial, fun halt hread pending hp => ?_, fun text hread => ?_⟩
    · subst hp
      obtain ⟨failure, hfailed⟩ := finding_read_error hread
      cases hfailed
    · exact .of_read hi hknown hread

/-- Two finders of which the first is within the second end their passes alike, unless the first
lacks an import that the second knows a file for. -/
theorem passOver_compare (h : Within options tree known known' file source) (depth : Nat) :
    (∃ importer name, (passOver options tree known depth file source).1 =
          .error (.pending (pendingOf options importer name)) ∧
        ReachesImport options tree known' file source importer name ∧
        Lacks options known importer name ∧ known' importer name ≠ none) ∨
      (passOver options tree known depth file source).1 =
          (passOver options tree known' depth file source).1 ∧
        finish options file (passOver options tree known depth file source).2 =
          finish options file (passOver options tree known' depth file source).2 := by
  have hvalid := ParseCache.valid_empty
  rcases corresponds_passThrough (finding_agree h) depth .entry (by simp) trivial hvalid hvalid with
    ⟨halt, hresult, ⟨importer, name, rfl, hrest⟩, -⟩ | ⟨hresult, halike, -, -⟩
  · exact Or.inl ⟨importer, name, hresult, hrest⟩
  · exact Or.inr ⟨hresult, halike.finish_eq options file⟩

/-- A pass that ends with a missing reference has reached its import, and lacks it. -/
theorem lacks_of_passOver {pending : Pending}
    (h : (passOver options tree known depth file source).1 = .error (.pending pending)) :
    ∃ importer name, pending = pendingOf options importer name ∧
      ReachesImport options tree known file source importer name ∧
      Lacks options known importer name := by
  have hvalid := ParseCache.valid_empty
  have hself : Within options tree known known file source := fun _ _ _ => Or.inl rfl
  rcases corresponds_passThrough (t := ()) (finding_agree hself) depth .entry (by simp) trivial
    hvalid hvalid with ⟨halt, hresult, -, hw⟩ | ⟨-, -, hw, -⟩
  · exact hw pending (Except.error.inj (hresult.symm.trans h))
  · exact hw _ h pending rfl

/-! ## Two finders within a third -/

theorem Reaches.within (h : Within options tree known known' file source) {importer : Path}
    {text : String} (hr : Reaches options tree known file source importer text) :
    Reaches options tree known' file source importer text := by
  induction hr with
  | entry => exact .entry
  | @imported importer target text name text' _ imports found read ih =>
    rcases h importer name ⟨text, ih, imports⟩ with heq | ⟨-, hnone⟩
    · exact .imported ih imports (heq ▸ found) read
    · simp [found] at hnone

theorem ReachesImport.within (h : Within options tree known known' file source) {importer : Path}
    {name : String} (hi : ReachesImport options tree known file source importer name) :
    ReachesImport options tree known' file source importer name := by
  obtain ⟨text, hr, himports⟩ := hi
  exact ⟨text, hr.within h, himports⟩

/-- What two finders both know. -/
def both (known known' : Finder) : Finder :=
  fun importer name => (known importer name).bind fun _ => known' importer name

variable {base : Finder}

theorem within_both (h : Within options tree known base file source)
    (h' : Within options tree known' base file source) :
    Within options tree (both known known') known file source ∧
      Within options tree (both known known') known' file source := by
  constructor
  · intro importer name hi
    unfold both Lacks
    rcases h importer name (hi.within h) with heq | hlacks
    · rcases h' importer name (hi.within h) with heq' | hlacks'
      · rw [heq, heq']
        cases base importer name <;> simp
      · rw [hlacks'.2]
        exact Or.inr ⟨hlacks'.1, by simp [hlacks'.2]⟩
    · rw [hlacks.2]
      exact Or.inl rfl
  · intro importer name hi
    unfold both Lacks
    rcases h importer name (hi.within h') with heq | hlacks
    · rcases h' importer name (hi.within h') with heq' | hlacks'
      · rw [heq, heq']
        cases base importer name <;> simp
      · rw [hlacks'.2]
        exact Or.inl (by simp)
    · rw [hlacks.2]
      exact Or.inr ⟨hlacks.1, by simp [hlacks.2]⟩

theorem pendingOf_inj {importer importer' : Path} {name name' : String}
    (h : pendingOf options importer name = pendingOf options importer' name') :
    importer = importer' ∧ name = name' :=
  ⟨congrArg Pending.importer h, congrArg Pending.name h⟩

/-- If the pass of one finder ends with an import missing, then another finder knows that import, or
its pass ends with it too, or with another one that the first finder knows. -/
theorem passOver_of_missing (h : Within options tree known base file source)
    (h' : Within options tree known' base file source) {importer : Path} {name : String}
    (hmissing : (passOver options tree known depth file source).1 =
      .error (.pending (pendingOf options importer name))) :
    known' importer name ≠ none ∨
      (passOver options tree known' depth file source).1 =
          .error (.pending (pendingOf options importer name)) ∨
      ∃ importer' name', (passOver options tree known' depth file source).1 =
          .error (.pending (pendingOf options importer' name')) ∧
        known importer' name' ≠ none := by
  -- The pass of what both know ends no later than either pass.
  obtain ⟨hboth, hboth'⟩ := within_both h h'
  rcases passOver_compare hboth depth with
    ⟨i, n, hend, -, ⟨-, hnone⟩, hknown⟩ | ⟨hend, -⟩
  · rcases passOver_compare hboth' depth with
      ⟨i', n', hend', -, -, hknown'⟩ | ⟨hend', -⟩
    · exfalso
      obtain ⟨rfl, rfl⟩ :=
        pendingOf_inj (Halt.pending.inj (Except.error.inj (hend.symm.trans hend')))
      obtain ⟨target, htarget⟩ := Option.ne_none_iff_exists'.1 hknown
      simp [both, htarget, hknown'] at hnone
    · exact Or.inr (Or.inr ⟨i, n, hend'.symm.trans hend, hknown⟩)
  · rw [hmissing] at hend
    rcases passOver_compare hboth' depth with
      ⟨i', n', hend', -, -, hknown'⟩ | ⟨hend', -⟩
    · obtain ⟨rfl, rfl⟩ :=
        pendingOf_inj (Halt.pending.inj (Except.error.inj (hend.symm.trans hend')))
      exact Or.inl hknown'
    · exact Or.inr (Or.inl (hend'.symm.trans hend))

/-! ## Passes over lookups -/

/-- What a lookup lacks is neither in the tree nor in the cache. -/
theorem lacks_known?_iff {l : Lookup} {importer : Path} {name : String} :
    Lacks l.options l.known? importer name ↔
      l.options.dialect.isHostReference name = true ∧
        l.nativeFile? importer name = none ∧ l.nativeDirectory? importer name = none ∧
        l.cache.find? (l.options.fileReference importer name) = none ∧
        l.cache.find? (l.options.reference importer name) = none := by
  refine and_congr_right fun hhost => ?_
  cases hfile : l.nativeFile? importer name with
  | some file => simp [Lookup.known?, hfile]
  | none =>
    rw [Lookup.known?_of_host hhost hfile]
    simp only [Option.or_eq_none_iff, true_and]
    exact ⟨fun h => ⟨h.2.2, h.1, h.2.1⟩, fun h => ⟨h.2.1, h.2.2, h.1⟩⟩

section

variable {cache cache' : Cache} {importer : Path} {name : String}

theorem Lacks.not_cached
    (h : Lacks options (Lookup.known? ⟨tree, cache, options⟩) importer name) :
    cache.contains (options.reference importer name) = false ∧
      cache.contains (options.fileReference importer name) = false := by
  obtain ⟨-, -, -, hpath, hown⟩ := (lacks_known?_iff (l := ⟨tree, cache, options⟩)).1 h
  exact ⟨Cache.contains_eq_false.2 hown, Cache.contains_eq_false.2 hpath⟩

/-- An import that is lacked is lacked over each cache that has neither of its references. -/
theorem Lacks.of_not_cached
    (h : Lacks options (Lookup.known? ⟨tree, cache, options⟩) importer name)
    (hown : cache'.contains (options.reference importer name) = false)
    (hpath : cache'.contains (options.fileReference importer name) = false) :
    Lacks options (Lookup.known? ⟨tree, cache', options⟩) importer name := by
  obtain ⟨hmark, hfile, hdir, -, -⟩ := (lacks_known?_iff (l := ⟨tree, cache, options⟩)).1 h
  rw [Lookup.nativeFile?_cache tree cache cache'] at hfile
  rw [Lookup.nativeDirectory?_cache tree cache cache'] at hdir
  exact (lacks_known?_iff (l := ⟨tree, cache', options⟩)).2
    ⟨hmark, hfile, hdir, Cache.contains_eq_false.1 hpath, Cache.contains_eq_false.1 hown⟩

/-- If an import that is lacked is known over another cache, then this has one of its references. -/
theorem Lacks.cached_of_known
    (h : Lacks options (Lookup.known? ⟨tree, cache, options⟩) importer name)
    (hknown : Lookup.known? ⟨tree, cache', options⟩ importer name ≠ none) :
    cache'.contains (options.reference importer name) = true ∨
      cache'.contains (options.fileReference importer name) = true := by
  cases hown : cache'.contains (options.reference importer name) with
  | true => exact Or.inl rfl
  | false =>
    cases hpath : cache'.contains (options.fileReference importer name) with
    | true => exact Or.inr rfl
    | false => exact absurd (h.of_not_cached hown hpath).2 hknown

end

/-- A pass over a lookup is one by what is known from the lookup, whether or not documents are
scanned ahead. -/
theorem passThrough_over (options : Options) (tree : SourceTree) (cache : Cache) (prefetch : Bool)
    (depth : Nat) (file : Path) (source : String) (found : PathSet) {parsed : ParseCache}
    (hparsed : parsed.Valid) :
    let l : Lookup := ⟨tree, cache, { options with prefetch }⟩
    let pass := passThrough (.ofLocator l.options l.locator) depth file source found parsed
    let pass' := passOver options tree (Lookup.known? ⟨tree, cache, options⟩) depth file source
    pass.1 = pass'.1 ∧ finish l.options file pass.2 = finish options file pass'.2 := by
  intro l pass pass'
  have hagree : Agree (fun _ _ => True) (fun _ => False) (fun _ => True) (fun _ _ => True)
      (fun _ => True) (Setting.ofLocator l.options l.locator)
      (.finding options tree (Lookup.known? ⟨tree, cache, options⟩)) := by
    refine ⟨rfl, rfl, ?_, ?_, fun _ => trivial⟩
    · intro importer text name _ _ s t _
      right
      have hlocate := locateIn_locator l importer name s
      rw [Lookup.search_eq, Lookup.known?_prefetch] at hlocate
      exact ⟨congrArg Prod.fst hlocate, trivial, fun _ _ => trivial, fun _ _ _ _ => trivial⟩
    · intro target _ s t _
      right
      exact ⟨rfl, trivial, fun _ _ => trivial, fun _ _ => trivial⟩
  rcases corresponds_passThrough hagree depth trivial (fun _ _ _ => trivial) trivial hparsed
    ParseCache.valid_empty with ⟨_, _, hfalse, _⟩ | ⟨hresult, halike, -, -⟩
  · exact hfalse.elim
  · exact ⟨hresult, halike.finish_eq options file⟩

end

end StyleWeave.Inline
