import StyleWeave.Proofs.Host.Finite
import StyleWeave.Proofs.Job.Inlining

/-!
# What a first run comes to

An import has one proper file: that of the tree, or else the one that the host designates. An import
is settled if whatever a job may cache for it leads to its proper file, that is, if no cache that a
job may come to can make anything else known of it (`settled_iff`). It is not if the tree has a
directory for it and the host another file: a lookup prefers what is cached to a directory.

If all imports that can be reached are settled, then a first run comes to what one pass through the
proper files comes to, whatever was scanned ahead and in which order the references were resolved: a
call that ends with a missing reference which the host can resolve is not the last one.
-/

namespace StyleWeave

namespace Memory

open Inline (Finder)

variable {m : Memory} {options : Options} {dialect : Dialect}

/-- The proper file of an import: that of the tree, or else the one that the host designates. -/
def proper? (m : Memory) (options : Options) : Finder := fun importer name =>
  ((m.lookup options).nativeFile? importer name).or <|
    ((m.lookup options).nativeDirectory? importer name).or <|
      if options.dialect.isHostReference name then
        m.designated? options.dialect (options.reference importer name)
      else none

/-- A job may come to cache this path for the reference: the host grants it for some request from
the same context, and the reference is that request or the candidate which was granted. -/
def Cacheable (m : Memory) (dialect : Dialect) (key : Reference) (target : Path) : Prop :=
  ∃ request candidate,
    m.granted? key.context (dialect.candidates request) = some (candidate, target) ∧
      (key.request = request ∨ key.request = candidate)

/-- Unless the tree has the file of the import, whatever may be cached for it, by its name or by its
path with extension, is its proper file. -/
def Settled (m : Memory) (options : Options) (importer : Path) (name : String) : Prop :=
  (m.lookup options).nativeFile? importer name = none →
    ∀ n ∈ [Inline.filePath options.dialect name, name],
      options.dialect.isHostReference n = true → ∀ target,
        m.Cacheable options.dialect (options.reference importer n) target →
          m.proper? options importer name = some target

/-- In a closed dialect, only the path that the host designates may be cached. -/
theorem Cacheable.designated? (hd : dialect.Closed) {key : Reference} {target : Path}
    (h : m.Cacheable dialect key target) : m.designated? dialect key = some target := by
  obtain ⟨request, candidate, hgranted, hrequest | hrequest⟩ := h
  · rw [designated?_eq_granted?, hrequest, hgranted]
    rfl
  · have hkey : key = ⟨key.context, candidate⟩ := by rw [← hrequest]
    rw [hkey]
    exact designated?_of_granted? hd hgranted

/-- In a closed dialect, a name that is complete exactly if it is that of a document is settled
exactly if the tree's directory for it, if there is one, stands for the same file as the host
designates, if it does. -/
theorem settled_iff_of_closed (hd : options.dialect.Closed) {importer : Path} {name : String}
    (hhost : options.dialect.isHostReference name = true)
    (hregular : options.dialect.isDialectFile ⟨name⟩ =
      options.dialect.isLiteralRequest (options.requestFor name)) :
    m.Settled options importer name ↔
      ((m.lookup options).nativeFile? importer name = none →
        ∀ directory, (m.lookup options).nativeDirectory? importer name = some directory →
          ∀ target, m.designated? options.dialect (options.reference importer name) = some target →
            directory = target) := by
  constructor
  · intro h hfile directory hdir target hdes
    rw [designated?_eq_granted?] at hdes
    obtain ⟨⟨candidate, target'⟩, hgranted, rfl⟩ := Option.map_eq_some_iff.1 hdes
    have hproper := h hfile name (by simp) hhost target' ⟨_, candidate, hgranted, Or.inl rfl⟩
    rw [proper?, hfile, hdir, Option.none_or, Option.some_or] at hproper
    exact Option.some.inj hproper
  · intro h hfile n hn _ target hcacheable
    have hdes : m.designated? options.dialect (options.reference importer name) = some target := by
      rcases List.mem_cons.1 hn with rfl | hn
      · exact designated?_of_fileReference hd hhost hregular (hcacheable.designated? hd)
      · obtain rfl := List.mem_singleton.1 hn
        exact hcacheable.designated? hd
    rw [proper?, hfile, Option.none_or, if_pos hhost, hdes]
    cases hdir : (m.lookup options).nativeDirectory? importer name with
    | none => rfl
    | some directory => rw [h hfile directory hdir target hdes, Option.some_or]

/-- All that the cache holds may be cached. -/
def Explains (m : Memory) (dialect : Dialect) (cache : Cache) : Prop :=
  ∀ key target, cache.find? key = some target → m.Cacheable dialect key target

theorem explains_of_growth {cache : Cache} (h : Cache.Growth m.host dialect {} cache) :
    m.Explains dialect cache := by
  refine h.forall_find? (fun key target hfind => by simp [Cache.find?] at hfind) ?_
  intro key log log' request target granted k hk
  have hg := granted?_of_grants granted
  rcases hk with hk | hk
  · obtain ⟨hcontext, hrequest⟩ := Reference.beq_iff.1 hk
    exact ⟨key.request, request, by rw [m.granted?_congr hcontext, hg], Or.inl hrequest⟩
  · obtain ⟨hcontext, hrequest⟩ := Reference.beq_iff.1 hk
    exact ⟨key.request, request, by rw [m.granted?_congr hcontext, hg], Or.inr hrequest⟩

/-- What is known from a cache of a settled import is its proper file, or nothing. -/
theorem known?_of_settled {cache : Cache} (hc : m.Explains options.dialect cache) {importer : Path}
    {name : String} (hs : m.Settled options importer name) :
    Lookup.known? ⟨m.tree, cache, options⟩ importer name = m.proper? options importer name ∨
      Inline.Lacks options (Lookup.known? ⟨m.tree, cache, options⟩) importer name := by
  have hcached : (m.lookup options).nativeFile? importer name = none → ∀ n target,
      n ∈ [Inline.filePath options.dialect name, name] →
      Lookup.hostFile? ⟨m.tree, cache, options⟩ importer n = some target →
        m.proper? options importer name = some target := by
    intro hfile n target hn hhost
    unfold Lookup.hostFile? at hhost
    split at hhost
    · next hmark => exact hs hfile n hn hmark target (hc _ _ hhost)
    · simp at hhost
  unfold Inline.Lacks
  rw [Lookup.known?, Lookup.nativeFile?_cache m.tree cache {},
    Lookup.nativeDirectory?_cache m.tree cache {}, ← lookup]
  cases hfile : (m.lookup options).nativeFile? importer name with
  | some file => exact Or.inl (by simp [proper?, hfile])
  | none =>
    cases hpath : Lookup.hostFile? ⟨m.tree, cache, options⟩ importer
        (Inline.filePath options.dialect name) with
    | some target => exact Or.inl (by simp [hcached hfile _ target (by simp) hpath])
    | none =>
      cases hname : Lookup.hostFile? ⟨m.tree, cache, options⟩ importer name with
      | some target => exact Or.inl (by simp [hcached hfile _ target (by simp) hname])
      | none =>
        cases hdir : (m.lookup options).nativeDirectory? importer name with
        | some file => exact Or.inl (by simp [proper?, hfile, hdir])
        | none =>
          by_cases hmark : options.dialect.isHostReference name = true
          · exact Or.inr ⟨hmark, by simp⟩
          · exact Or.inl (by simp [proper?, hfile, hdir, hmark])

theorem Cacheable.exists_growth {key : Reference} {target : Path}
    (h : m.Cacheable dialect key target) :
    ∃ cache : Cache, Cache.Growth m.host dialect {} cache ∧ cache.find? key = some target ∧
      ∀ k p, cache.find? k = some p → p = target := by
  obtain ⟨request, candidate, hgranted, hrequest⟩ := h
  obtain ⟨log, hgrants⟩ := exists_grants hgranted {}
  have hgrowth : Cache.Growth m.host dialect {}
      (Cache.learn {} ⟨key.context, request⟩ candidate target) :=
    Cache.Growth.refl.learn (by simp [Cache.find?]) hgrants
  have hall : ∀ k p, (Cache.learn {} ⟨key.context, request⟩ candidate target).find? k = some p →
      p = target := by
    refine Cache.forall_find?_store (Cache.forall_find?_store ?_ fun _ _ => rfl) fun _ _ => rfl
    intro k p hempty
    simp [Cache.find?] at hempty
  have hcontains :
      (Cache.learn {} ⟨key.context, request⟩ candidate target).contains key = true := by
    rw [Cache.contains_learn, Bool.or_eq_true, Bool.or_eq_true]
    rcases hrequest with hrequest | hrequest
    · exact Or.inr (Or.inl (Reference.beq_iff.2 ⟨rfl, hrequest⟩))
    · exact Or.inl (Reference.beq_iff.2 ⟨rfl, hrequest⟩)
  obtain ⟨p, hp⟩ := Cache.contains_iff.1 hcontains
  obtain rfl := hall key p hp
  exact ⟨_, hgrowth, hp, hall⟩

/-- An import is settled exactly if from no cache that a job may come to, anything else is known of
it than its proper file. -/
theorem settled_iff {importer : Path} {name : String} :
    m.Settled options importer name ↔
      ∀ cache, Cache.Growth m.host options.dialect {} cache →
        Lookup.known? ⟨m.tree, cache, options⟩ importer name = m.proper? options importer name ∨
          Inline.Lacks options (Lookup.known? ⟨m.tree, cache, options⟩) importer name := by
  constructor
  · intro hs cache hgrowth
    exact known?_of_settled (explains_of_growth hgrowth) hs
  · intro h hfile n hn hmark target hcacheable
    obtain ⟨cache, hgrowth, hfind, hall⟩ := hcacheable.exists_growth
    have hhost : Lookup.hostFile? ⟨m.tree, cache, options⟩ importer n = some target := by
      rw [Lookup.hostFile?_of_host hmark]
      exact hfind
    have hothers : ∀ n', Lookup.hostFile? ⟨m.tree, cache, options⟩ importer n' = none ∨
        Lookup.hostFile? ⟨m.tree, cache, options⟩ importer n' = some target := by
      intro n'
      cases hfound : Lookup.hostFile? ⟨m.tree, cache, options⟩ importer n' with
      | none => exact Or.inl rfl
      | some p =>
        unfold Lookup.hostFile? at hfound
        split at hfound
        · exact Or.inr (congrArg some (hall _ p hfound))
        · simp at hfound
    have hknown : Lookup.known? ⟨m.tree, cache, options⟩ importer name = some target := by
      rw [Lookup.known?, Lookup.nativeFile?_cache m.tree cache {}, ← lookup, hfile, Option.none_or]
      rcases List.mem_cons.1 hn with rfl | hn
      · rw [hhost, Option.some_or]
      · obtain rfl := List.mem_singleton.1 hn
        rcases hothers (Inline.filePath options.dialect n) with hpath | hpath
        · rw [hpath, hhost, Option.none_or, Option.some_or]
        · rw [hpath, Option.some_or]
    rcases h cache hgrowth with heq | hlacks
    · exact heq.symm.trans hknown
    · exact absurd hlacks.2 (by simp [hknown])

/-- All imports that can be reached through proper files are settled. -/
def AllSettled (m : Memory) (options : Options) (file : Path) (source : String) : Prop :=
  ∀ importer name,
    Inline.ReachesImport options m.tree (m.proper? options) file source importer name →
      m.Settled options importer name

theorem proper?_leadsInto (m : Memory) (options : Options) :
    Finder.LeadsInto (m.proper? options) m.targets := by
  intro importer name target hproper
  unfold proper? at hproper
  rcases Option.or_eq_some_iff.1 hproper with hfile | ⟨-, hproper⟩
  · exact nativeFind_mem hfile
  · rcases Option.or_eq_some_iff.1 hproper with hdir | ⟨-, hproper⟩
    · exact nativeIndex_mem hdir
    · split at hproper
      · rw [designated?_eq_granted?] at hproper
        obtain ⟨⟨candidate, target'⟩, hgranted, rfl⟩ := Option.map_eq_some_iff.1 hproper
        obtain ⟨log, hgrants⟩ := exists_grants hgranted {}
        exact m.leadsInto_targets.grants hgrants
      · simp at hproper

/-- It is enough that the names in the texts are settled for all files. -/
theorem allSettled_of_forall {file : Path} {source : String}
    (h : ∀ importer ∈ file :: m.targets, ∀ text ∈ m.texts source,
      ∀ name ∈ importNames options text, m.Settled options importer name) :
    m.AllSettled options file source := by
  rintro importer name ⟨text, hreach, himports⟩
  exact h importer (hreach.mem (m.proper?_leadsInto options)) text (mem_texts_of_reaches hreach)
    name (mem_importNames himports)

theorem AllSettled.within {file : Path} {source : String} (h : m.AllSettled options file source)
    {cache : Cache} (hc : m.Explains options.dialect cache) :
    Inline.Within options m.tree (Lookup.known? ⟨m.tree, cache, options⟩) (m.proper? options) file
      source :=
  fun importer name hi => known?_of_settled hc (h importer name hi)

theorem proper?_of_lacks {cache : Cache} {importer : Path} {name : String}
    (h : Inline.Lacks options (Lookup.known? ⟨m.tree, cache, options⟩) importer name) :
    m.proper? options importer name =
      m.designated? options.dialect (options.reference importer name) := by
  obtain ⟨hmark, hfile, hdir, -, -⟩ := (Inline.lacks_known?_iff (l := ⟨m.tree, cache, options⟩)).1 h
  rw [Lookup.nativeFile?_cache m.tree cache {}, ← lookup] at hfile
  rw [Lookup.nativeDirectory?_cache m.tree cache {}, ← lookup] at hdir
  rw [proper?, hfile, hdir, if_pos hmark, Option.none_or, Option.none_or]

/-- The failure of an import that the host cannot resolve. -/
def refusal (dialect : Dialect) (pending : Pending) : Failure :=
  .unresolvedImport pending.importer pending.name pending.key <| "; ".intercalate <|
    (dialect.candidates pending.key.request).map fun request =>
      Frontier.reason (cannotResolve ⟨pending.key.context, request⟩)

/-- What the pass through the proper files comes to, if documents are not nested too deep. -/
def properResult (m : Memory) (options : Options) (depth : Nat) (file : Path) (source : String) :
    Option (Except Failure Rendered) :=
  match Inline.passOver options m.tree (m.proper? options) depth file source with
  | (.ok (), pass) => some (.ok (Inline.finish options file pass))
  | (.error (.failed failure), _) => some (.error failure)
  | (.error (.pending pending), _) => some (.error (refusal options.dialect pending))
  | (.error .tooDeep, _) => none

end Memory

namespace Job

open Inline (ParseCache)

variable {m : Memory} {options : Options} {prefetch : Bool} {layers depth : Nat} {file : Path}
  {source : String} {log : Memory.Log} {parsed : ParseCache}
  {calls : List (Call Memory.Log ParseCache)} {step : JobStep Memory.Log ParseCache Output}

/-- What is known of imports at a call. -/
def knownAt (m : Memory) (options : Options) (call : Call Memory.Log ParseCache) : Inline.Finder :=
  Lookup.known? ⟨m.tree, call.job.frontier.cache, options⟩

/-- The last call of a first run ends with a missing reference only if the host designates no path
for it, and then the run fails by the host's refusal. -/
theorem Verdict.refusal {last : Call Memory.Log ParseCache} (h : Verdict m.host last step)
    (hunder : Underway m.host (create file source { options with prefetch }) last)
    {importer : Path} {name : String}
    (hout : last.outcome = .ok (.needsResolution (Inline.pendingOf options importer name)))
    (hlacks : Inline.Lacks options
      (Lookup.known? ⟨m.tree, last.job.frontier.cache, options⟩) importer name) :
    m.designated? options.dialect (options.reference importer name) = none ∧
      step.result =
        .error (Memory.refusal options.dialect (Inline.pendingOf options importer name)) := by
  obtain ⟨-, -, -, -, hfresh⟩ :=
    (Inline.lacks_known?_iff (l := ⟨m.tree, last.job.frontier.cache, options⟩)).1 hlacks
  have hspent : ¬ last.job.Spent (Inline.pendingOf options importer name).key :=
    hunder.not_spent hfresh
  have hdialect : last.job.frontier.options.dialect = options.dialect := by
    rw [hunder.grown.options]
    rfl
  unfold Verdict at h
  rw [hout] at h
  dsimp only at h
  rw [if_neg hspent, hdialect] at h
  obtain ⟨s, failures, -, hrefuses, hresult⟩ := h
  obtain ⟨hnone, hfailures⟩ := Memory.granted?_of_refuses hrefuses
  refine ⟨?_, ?_⟩
  · rw [Memory.designated?_eq_granted?]
    exact Option.map_eq_none_iff.2 hnone
  · rw [hresult, hfailures, List.map_map]
    rfl

/-- If all imports are settled, a first run comes to what the pass through the proper files comes
to. -/
theorem Runs.properResult
    (h : Runs m.host (Inline.renderer depth) m.tree layers
      (create file source { options with prefetch }) log parsed calls step)
    (hparsed : parsed.Valid) (hsettled : m.AllSettled options file source) :
    m.properResult options depth file source = some (step.result.map Output.rendered) := by
  have hg := guessing_create file source { options with prefetch }
  obtain ⟨last, hlast, hverdict, -⟩ := h.verdict hg
  have hmem : last ∈ calls := List.mem_of_getLast? hlast
  have hunder := h.underway hparsed last hmem
  have hpass := h.passOver hparsed hmem
  dsimp only at hpass
  have hwithin := hsettled.within (Memory.explains_of_growth hunder.grown.cache)
  unfold Memory.properResult
  rcases Inline.passOver_compare hwithin depth with
    ⟨importer, name, hend, -, hlacks, hproper⟩ | ⟨hend, hfinish⟩
  · -- The host can resolve what the last call needs, so it is not the last one.
    exfalso
    rw [hend] at hpass
    obtain ⟨hnone, -⟩ := hverdict.refusal hunder (Option.some.inj hpass).symm hlacks
    exact hproper ((Memory.proper?_of_lacks hlacks).trans hnone)
  · have hlacks : ∀ pending, (Inline.passOver options m.tree
        (Lookup.known? ⟨m.tree, last.job.frontier.cache, options⟩) depth file source).1 =
          .error (.pending pending) → _ := fun _ => Inline.lacks_of_passOver
    generalize Inline.passOver options m.tree
      (Lookup.known? ⟨m.tree, last.job.frontier.cache, options⟩) depth file source = ended at *
    generalize Inline.passOver options m.tree (m.proper? options) depth file source = proper at *
    obtain ⟨result, pass⟩ := ended
    obtain ⟨result', pass'⟩ := proper
    obtain rfl : result = result' := hend
    dsimp only at hpass hfinish hlacks ⊢
    rcases result with (pending | failure | _) | ⟨⟩
    · obtain ⟨importer, name, rfl, -, hmissing⟩ := hlacks pending rfl
      obtain ⟨-, hresult⟩ := hverdict.refusal hunder (Option.some.inj hpass).symm hmissing
      rw [hresult]
      rfl
    · rw [hverdict.failed (Option.some.inj hpass).symm]
      rfl
    · simp [Inline.outcome] at hpass
    · rw [hverdict.rendered (Option.some.inj hpass).symm, hfinish]

end Job

end StyleWeave
