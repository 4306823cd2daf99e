import StyleWeave.Proofs.Frontier.Coverage
import StyleWeave.Proofs.Job.Settled

/-!
# What a first attempt knows

Before the first attempt, a job that scans ahead has resolved the imports of its document, and one
that does not has resolved nothing. So of an import of the document that the tree has a directory
for, and that the host resolves too, the one job knows the file of the host and the other that of
the tree: both know the same file exactly if the import is settled (`Runs.head_known_iff`).
-/

namespace StyleWeave

namespace Options

variable {file : Path}

/-- The references of a document in the dialect are made in its directory. -/
theorem importContext_of_dialectFile (o : Options) (h : o.dialect.isDialectFile file = true) :
    o.importContext file = file.directory := by
  unfold importContext Path.directory
  cases hparent : file.parent? with
  | some parent => rfl
  | none =>
    exfalso
    unfold Path.parent? at hparent
    unfold Dialect.isDialectFile Path.extension? Path.fileName? at h
    split at hparent
    · next hlast => simp [hlast] at h
    · next hlast => simp [hlast] at h
    · simp at hparent

end Options

namespace Memory

variable {m : Memory} {options : Options} {cache : Cache} {importer : Path} {name : String}

/-- In a closed dialect, what the host has resolved is known as the file that it designates, unless
the tree has a file of that path. -/
theorem known?_of_cached (hd : options.dialect.Closed) (hc : m.Coherent options.dialect cache)
    (hhost : options.dialect.isHostReference name = true)
    (hregular : options.dialect.isDialectFile ⟨name⟩ =
      options.dialect.isLiteralRequest (options.requestFor name))
    (hfile : (m.lookup options).nativeFile? importer name = none)
    (hcached : cache.contains (options.reference importer name) = true) :
    Lookup.known? ⟨m.tree, cache, options⟩ importer name =
      m.designated? options.dialect (options.reference importer name) := by
  obtain ⟨target, hfind⟩ := Cache.contains_iff.1 hcached
  have hown : Lookup.hostFile? ⟨m.tree, cache, options⟩ importer name = some target := by
    rw [Lookup.hostFile?_of_host hhost]
    exact hfind
  have hdes := hc _ _ hfind
  rw [Lookup.known?, Lookup.nativeFile?_cache m.tree cache {}, ← lookup, hfile, Option.none_or,
    hown, hdes, Option.some_or]
  have hmark := (options.filePath_of_host hhost).1
  cases hpath : Lookup.hostFile? ⟨m.tree, cache, options⟩ importer
      (Inline.filePath options.dialect name) with
  | none => rfl
  | some target' =>
    -- Both references lead to the one file.
    have hfind' : cache.find? (options.fileReference importer name) = some target' := by
      rw [Lookup.hostFile?_of_host hmark] at hpath
      exact hpath
    have hdes' := designated?_of_fileReference hd hhost hregular (hc _ _ hfind')
    exact hdes'.symm.trans hdes

/-- An answered reference is cached if the host designates a path for it. -/
theorem contains_of_answered {f : Frontier} {key : Reference} {target : Path}
    (h : Frontier.Answered m.host f key)
    (hdes : m.designated? f.options.dialect key = some target) : f.cache.contains key = true := by
  rcases h with hcached | ⟨k, s, failures, s', hk, hrefuses⟩
  · exact hcached
  · obtain ⟨hnone, -⟩ := granted?_of_refuses hrefuses
    rw [← m.designated?_congr f.options.dialect hk, designated?_eq_granted?, hnone] at hdes
    cases hdes

theorem known?_empty :
    (m.lookup options).known? importer name =
      ((m.lookup options).nativeFile? importer name).or
        ((m.lookup options).nativeDirectory? importer name) := by
  have hnone : ∀ n, (m.lookup options).hostFile? importer n = none := by
    intro n
    unfold Lookup.hostFile? lookup
    split
    · simp [Cache.find?]
    · rfl
  rw [Lookup.known?, hnone, hnone, Option.none_or, Option.none_or]

end Memory

namespace Job

open Inline (ParseCache)

variable {σ ρ : Type} {host : Host σ} {renderer : Renderer ρ} {tree : SourceTree}
  {layers : Nat} {file : Path} {source : String} {options : Options}

/-- Scanning ahead, the first call of a first run finds all imports of the document answered. -/
theorem Runs.head_answered {s : σ} {r : ρ} {calls : List (Call σ ρ)} {step : JobStep σ ρ Output}
    (h : Runs host renderer tree layers (create file source options) s r calls step)
    (hon : options.prefetch = true) (hfile : options.dialect.isDialectFile file = true) :
    ∃ first rest, calls = first :: rest ∧
      ∀ i ∈ scanImports file source options.scanTables options.dialect,
        Frontier.Answered host first.job.frontier ⟨i.context, options.requestFor i.name⟩ := by
  obtain ⟨job₁, s₁, step₁, hdrain, hcalls, -⟩ := h
  obtain ⟨outcome, rest, rfl⟩ := hcalls.head
  refine ⟨_, rest, rfl, fun i hi => ?_⟩
  obtain ⟨frontier, hd, rfl⟩ := drain_eq_some_iff.1 hdrain
  have hoptions : (create file source options).enqueueEntry.frontier.options = options := by
    simp [create]
  have hguessing : (create file source options).enqueueEntry.frontier.Guessing := by
    simp [Frontier.Guessing, create]
  have hentry : (create file source options).frontier.enqueueVisit file (some source) =
      { (create file source options).frontier with visits := [⟨file, some source⟩] } := by
    simp [Frontier.enqueueVisit, Frontier.wantsVisit, Frontier.isVisited, create, hon, hfile]
  have hvisits : (create file source options).enqueueEntry.frontier.visits =
      [⟨file, some source⟩] := by
    unfold enqueueEntry
    dsimp only [create] at hentry ⊢
    rw [hentry]
    simp [Frontier.addDependency, Frontier.enqueueVisit, Frontier.wantsVisit]
  have htaken : (⟨file, some source⟩ : Visit) ∈ (Frontier.takeVisits
      (create file source options).enqueueEntry.frontier.visits
      (create file source options).enqueueEntry.frontier).1 := by
    have hvisited : (create file source options).enqueueEntry.frontier.isVisited file = false := by
      simp [Frontier.isVisited, enqueueEntry, Frontier.addDependency, create]
    rw [hvisits, Frontier.takeVisits, if_neg (by simp [hvisited])]
    exact List.mem_cons_self
  have hfound : i ∈ scanImports file source
      (create file source options).enqueueEntry.frontier.options.scanTables
      (create file source options).enqueueEntry.frontier.options.dialect := by
    rw [hoptions]
    exact hi
  have hanswered := Frontier.drain_answered hguessing hd htaken rfl hfound
  rw [hoptions] at hanswered
  exact hanswered

section

variable {m : Memory} {depth : Nat} {name : String} {log : Memory.Log} {parsed : ParseCache}
  {first : Call Memory.Log ParseCache} {rest : List (Call Memory.Log ParseCache)}
  {step : JobStep Memory.Log ParseCache Output}

/-- Without scanning ahead, the first call knows of an import only what the tree has. -/
theorem Runs.head_known_still {importer : Path}
    (h : Runs m.host (Inline.renderer depth) m.tree layers
      (create file source { options with prefetch := false }) log parsed (first :: rest) step) :
    knownAt m options first importer name =
      ((m.lookup options).nativeFile? importer name).or
        ((m.lookup options).nativeDirectory? importer name) := by
  obtain ⟨head, tail, heq, hempty⟩ := h.head_cache rfl
  obtain ⟨rfl, rfl⟩ := List.cons.inj heq
  unfold knownAt
  rw [hempty]
  exact Memory.known?_empty

/-- Scanning ahead, the first call knows an import of the document that the tree does not have by
its path as the file that the host designates, if it designates one. -/
theorem Runs.head_known_ahead
    (h : Runs m.host (Inline.renderer depth) m.tree layers
      (create file source { options with prefetch := true }) log parsed (first :: rest) step)
    (hparsed : parsed.Valid) (hd : options.dialect.Closed)
    (hfile : options.dialect.isDialectFile file = true) (hvariables : options.importVariables = [])
    (himports : Inline.Imports options source name)
    (hhost : options.dialect.isHostReference name = true)
    (hregular : options.dialect.isDialectFile ⟨name⟩ =
      options.dialect.isLiteralRequest (options.requestFor name))
    (hnative : (m.lookup options).nativeFile? file name = none) {target : Path}
    (hdes : m.designated? options.dialect (options.reference file name) = some target) :
    knownAt m options first file name = some target := by
  have hunder := h.underway hparsed first List.mem_cons_self
  have hgrowth : Cache.Growth m.host options.dialect {} first.job.frontier.cache :=
    hunder.grown.cache
  have hdialect : first.job.frontier.options.dialect = options.dialect := by
    rw [hunder.grown.options]
    rfl
  -- The host resolves the reference, so it has done so already.
  have hcached : first.job.frontier.cache.contains (options.reference file name) = true := by
    obtain ⟨kind, hscan⟩ := mem_scanImports hfile hvariables himports
    obtain ⟨head, tail, heq, hanswered⟩ := h.head_answered rfl hfile
    obtain ⟨rfl, rfl⟩ := List.cons.inj heq
    rw [Options.reference, options.importContext_of_dialectFile hfile] at hdes ⊢
    exact Memory.contains_of_answered (hanswered _ hscan) (by rw [hdialect]; exact hdes)
  have hcoherent := (m.coherent_empty options.dialect).growth hd hgrowth
  exact (Memory.known?_of_cached hd hcoherent hhost hregular hnative hcached).trans hdes

/-- Of an import of the document, the first call knows the same file whether documents are scanned
ahead or not, unless the host is needed to know it, exactly if the import is settled. -/
theorem Runs.head_known_iff {layers' : Nat} {log' : Memory.Log} {parsed' : ParseCache}
    {first' : Call Memory.Log ParseCache} {rest' : List (Call Memory.Log ParseCache)}
    {step' : JobStep Memory.Log ParseCache Output}
    (h : Runs m.host (Inline.renderer depth) m.tree layers
      (create file source { options with prefetch := true }) log parsed (first :: rest) step)
    (h' : Runs m.host (Inline.renderer depth) m.tree layers'
      (create file source { options with prefetch := false }) log' parsed' (first' :: rest') step')
    (hparsed : parsed.Valid) (hparsed' : parsed'.Valid) (hd : options.dialect.Closed)
    (hfile : options.dialect.isDialectFile file = true) (hvariables : options.importVariables = [])
    (himports : Inline.Imports options source name)
    (hhost : options.dialect.isHostReference name = true)
    (hregular : options.dialect.isDialectFile ⟨name⟩ =
      options.dialect.isLiteralRequest (options.requestFor name)) :
    m.Settled options file name ↔
      knownAt m options first file name = knownAt m options first' file name ∨
        Inline.Lacks options (knownAt m options first') file name := by
  have hgrowth : Cache.Growth m.host options.dialect {} first.job.frontier.cache :=
    (h.underway hparsed first List.mem_cons_self).grown.cache
  have hgrowth' : Cache.Growth m.host options.dialect {} first'.job.frontier.cache :=
    (h'.underway hparsed' first' List.mem_cons_self).grown.cache
  constructor
  · intro hs
    rw [Memory.settled_iff] at hs
    rcases hs first'.job.frontier.cache hgrowth' with hstill | hlacks
    · rcases hs first.job.frontier.cache hgrowth with hahead | hlacks
      · exact Or.inl (hahead.trans hstill.symm)
      · obtain ⟨head, tail, heq, hempty⟩ := h'.head_cache rfl
        obtain ⟨rfl, rfl⟩ := List.cons.inj heq
        refine Or.inr ?_
        unfold knownAt
        rw [hempty]
        exact hlacks.of_not_cached rfl rfl
    · exact Or.inr hlacks
  · intro hknown
    rw [Memory.settled_iff_of_closed hd hhost hregular]
    intro hnative directory hdirectory target hdes
    have hahead : knownAt m options first file name = some target :=
      h.head_known_ahead hparsed hd hfile hvariables himports hhost hregular hnative hdes
    have hstill : knownAt m options first' file name = some directory := by
      rw [h'.head_known_still, hnative, hdirectory, Option.none_or]
    rcases hknown with heq | hlacks
    · exact Option.some.inj (hstill.symm.trans (heq.symm.trans hahead))
    · exact absurd (hstill.symm.trans hlacks.2) (by simp)

end

end Job

end StyleWeave
