import StyleWeave.Proofs.Frontier.Graph
import StyleWeave.Proofs.Job.Ending
import StyleWeave.Proofs.Job.Scanning
import StyleWeave.Proofs.Render.Reported

/-!
# What scanning ahead leaves to the renders

In the first run of a job that scans ahead, all files that a render finds are scanned before the
next one, and all imports of scanned documents are resolved. So a render misses an import of a
document that was scanned only if the host cannot resolve it, and the run ends there. Each document
costs one retry at most, and the document of the job none (`prefetch_misses_nothing`).
-/

namespace StyleWeave

open Inline (ParseCache Reported pendingOf)

/-! ## The import graph of a job -/

namespace Memory

variable {m : Memory} {options : Options} {file importer : Path} {source name text : String}

/-- The import graph that the host spans from the document of a job. -/
def importGraph (m : Memory) (options : Options) (file : Path) (source : String) :
    ImportGraph Log where
  host := m.host
  state := {}
  options
  root := ⟨file, some source⟩

theorem constant_importGraph (m : Memory) (options : Options) (file : Path) (source : String) :
    (m.importGraph options file source).Constant :=
  ⟨m.resolvesAlike, m.readsAlike⟩

/-- A scan reads the text that a render goes by. -/
theorem text?_of_holds (h : Inline.Holds m.tree file source importer text) :
    (m.importGraph options file source).text? importer = some text := by
  unfold Inline.Holds at h
  show (if importer == file then some source else none).or (m.read importer).toOption = some text
  by_cases hroot : (importer == file) = true
  · rw [if_pos hroot] at h ⊢
    rw [h, Option.some_or]
  · rw [if_neg hroot] at h ⊢
    unfold read
    unfold tree at h
    dsimp only at h
    cases htext : m.text? importer with
    | none => simp [htext] at h
    | some found =>
      rw [htext] at h
      rw [Except.ok.inj h]
      rfl

/-- An import of a document of the dialect that a render reports is one that a scan of the document
finds. -/
theorem mentions_of_reported {cache : Cache} {found : PathSet}
    (h : Reported ⟨m.tree, cache, options⟩ file source found importer name)
    (hvariables : options.importVariables = [])
    (himporter : options.dialect.isDialectFile importer = true) :
    (m.importGraph options file source).Mentions importer (options.reference importer name) := by
  obtain ⟨text, htext, himports⟩ := h.imported
  obtain ⟨kind, hscan⟩ := mem_scanImports himporter hvariables himports
  refine ⟨text, text?_of_holds htext, _, hscan, ?_⟩
  rw [Options.reference, options.importContext_of_dialectFile himporter]
  rfl

end Memory

namespace Inline

theorem reported_of_render {l : Lookup} {depth : Nat} {parsed : ParseCache}
    (hparsed : parsed.Valid) {file : Path} {source : String} {step : RenderStep ParseCache}
    (h : (renderer depth).render parsed file source l.options l.locator .empty = some step)
    {pending : Pending} (hout : step.outcome = .ok (.needsResolution pending)) :
    ∃ importer name, pending = pendingOf l.options importer name ∧
      Reported l file source step.found importer name := by
  rw [render_eq] at h
  obtain ⟨result, hresult, rfl⟩ := Option.map_eq_some_iff.1 h
  obtain rfl : result = .ok (.needsResolution pending) := hout
  exact reported_of_pass hparsed rfl (outcome_eq_needsResolution_iff.1 hresult)

end Inline

namespace Job

section

variable {σ ρ : Type} {renderer : Renderer ρ} {tree : SourceTree} {layers depth : Nat}
  {g : ImportGraph σ} {s : σ} {a b : Call σ ρ}

/-! ## The import graph at the calls -/

theorem Follows.explored (hg : g.Constant) (h : Follows g.host renderer tree layers a b)
    (ha : Frontier.Explored g a.job.frontier) : Frontier.Explored g b.job.frontier := by
  obtain ⟨pending, found, -, -, -, hdrain⟩ := h.drained
  obtain ⟨-, hqueries⟩ := Frontier.hasPending_eq_false.1 h.idle
  refine ((ha.addDependencies found.paths).of_noticed fun key hkey => ?_).drain hg hdrain
  refine Or.inl (hkey.imp_right ?_)
  rintro ⟨q, hq, -⟩
  simp [hqueries] at hq

/-- At all calls of a first run, nothing of the import graph is lost and nothing waits. -/
theorem Runs.explored {r : ρ} {source : String} {calls : List (Call σ ρ)}
    {step : JobStep σ ρ Output} (hg : g.Constant) (hsource : g.root.text = some source)
    (h : Runs g.host renderer tree layers (create g.root.file source g.options) s r calls step) :
    ∀ call ∈ calls,
      Frontier.Explored g call.job.frontier ∧ call.job.frontier.hasPending = false := by
  have hchain := h.isChain (guessing_create g.root.file source g.options)
  obtain ⟨job₁, s₁, step₁, hdrain, hcalls, -⟩ := h
  obtain ⟨-, hidle, -, -⟩ := drain_enqueueEntry (guessing_create _ _ _) hdrain
  obtain ⟨outcome, rest, rfl⟩ := hcalls.head
  refine forall_of_follows hchain ⟨?_, hidle⟩ fun a b hab ha => ⟨hab.explored hg ha.1, ?_⟩
  · obtain ⟨frontier, hd, rfl⟩ := drain_eq_some_iff.1 hdrain
    have hentry := (Frontier.explored_start g).addDependencies [g.root.file]
    rw [hsource] at hentry
    exact hentry.drain hg hd
  · obtain ⟨_, -, hretried⟩ := hab.retried
    exact hretried.waits

/-- The reference that a call reports is granted, if another call follows. -/
theorem Follows.granted (hg : g.Constant) (h : Follows g.host renderer tree layers a b)
    (hoptions : a.job.frontier.options = g.options) {pending : Pending}
    (hout : a.outcome = .ok (.needsResolution pending)) : g.grant? pending.key ≠ none := by
  obtain ⟨pending', found, hout', -, hfresh, hdrain⟩ := h.drained
  obtain rfl : pending' = pending := by simpa [hout] using hout'.symm
  have hsame : (a.job.frontier.addDependencies found.paths).options = g.options := by
    simpa using hoptions
  obtain ⟨s₁, s₂, request, target, -, hgrants⟩ :=
    Frontier.granted_of_drain rfl (by simpa using hfresh) hdrain
  rw [hsame] at hgrants
  obtain ⟨target', hgranted, -⟩ := hgrants.granted? hg.resolves g.state
  exact Option.ne_none_iff_exists'.2 ⟨_, hgranted⟩

theorem Runs.reported {host : Host σ} {file : Path} {source : String} {options : Options}
    {parsed : ParseCache} {calls : List (Call σ ParseCache)} {step : JobStep σ ParseCache Output}
    (h : Runs host (Inline.renderer depth) tree layers (create file source options) s parsed calls
      step)
    (hparsed : parsed.Valid) {call : Call σ ParseCache} (hcall : call ∈ calls) {pending : Pending}
    (hout : call.outcome = .ok (.needsResolution pending)) :
    ∃ importer name found, pending = pendingOf options importer name ∧
      Reported ⟨tree, call.job.frontier.cache, options⟩ file source found importer name := by
  have hunder := h.underway hparsed call hcall
  obtain ⟨job₁, s₁, step₁, -, hcalls, -⟩ := h
  obtain ⟨job', r', hattempt⟩ := hcalls.attempted call hcall
  obtain ⟨found, hrender, -⟩ := attempt_eq_some_iff.1 hattempt
  have hlookup : call.job.lookup tree = ⟨tree, call.job.frontier.cache, options⟩ := by
    rw [lookup, hunder.grown.options]
    rfl
  obtain ⟨importer, name, heq, hreported⟩ :=
    Inline.reported_of_render (l := call.job.lookup tree) hunder.parsed hrender hout
  rw [hlookup, hunder.file, hunder.source] at hreported
  rw [hlookup] at heq
  exact ⟨importer, name, found, heq, hreported⟩

/-! ## What is scanned between two calls -/

/-- All that was visited at the first call is visited at the second one, and so is the document of
the import that the first one reports. -/
def Surveys (dialect : Dialect) (a b : Call σ ρ) : Prop :=
  ∀ file, dialect.isDialectFile file = true →
    (a.job.frontier.isVisited file = true ∨
      ∃ pending, a.outcome = .ok (.needsResolution pending) ∧ pending.importer == file) →
    b.job.frontier.isVisited file = true

instance (dialect : Dialect) : Trans (Surveys dialect : Call σ ρ → Call σ ρ → Prop)
    (Surveys dialect) (Surveys dialect : Call σ ρ → Call σ ρ → Prop) where
  trans hab hbc file hfile h := hbc file hfile (Or.inl (hab file hfile h))

theorem Follows.surveys {host : Host σ} {file : Path} {source : String} {options : Options}
    {a b : Call σ ParseCache} (h : Follows host (Inline.renderer depth) tree layers a b)
    (hunder : Underway host (create file source options) a) (hon : options.prefetch = true)
    (hroot : a.job.frontier.wantsVisit file = false) : Surveys options.dialect a b := by
  intro target htarget hcase
  obtain ⟨_, _, hretried⟩ := h.retried
  obtain ⟨pending, found, hout, hrender, -, hdrain⟩ := h.drained
  have hadded := Frontier.onward_addDependencies a.job.frontier found.paths
  have hknown : (a.job.frontier.addDependencies found.paths).wantsVisit target = false := by
    rcases hcase with hbefore | ⟨pending', hout', himporter⟩
    · exact hadded.wantsVisit (by simp [Frontier.wantsVisit, hbefore])
    · obtain rfl : pending' = pending := by simpa [hout] using hout'.symm
      obtain ⟨importer, name, rfl, hreported⟩ :=
        Inline.reported_of_render (l := a.job.lookup tree) hunder.parsed hrender hout
      -- The document is the one of the job, or the render has found it.
      rcases hreported.met with hentry | ⟨p, hp, heq⟩
      · rw [hunder.file] at hentry
        rw [← Frontier.wantsVisit_congr _ (BEq.trans (BEq.symm hentry) himporter)]
        exact hadded.wantsVisit hroot
      · rw [← Frontier.wantsVisit_congr _ (BEq.trans (BEq.symm heq) himporter)]
        exact Frontier.wantsVisit_addDependencies hp a.job.frontier
  have hdrained := (Frontier.drains_of_drain hdrain).onward
  have honward : Frontier.Onward (a.job.frontier.addDependencies found.paths) b.job.frontier :=
    ⟨hdrained.options, hdrained.documents⟩
  have hoptions : b.job.frontier.options = options := by
    rw [hretried.grown.options, hunder.grown.options]
    rfl
  rw [← hoptions] at htarget hon
  exact Frontier.isVisited_of_not_wanted (Frontier.hasPending_eq_false.1 hretried.waits).1 hon
    htarget (honward.wantsVisit hknown)

end

section

variable {m : Memory} {options : Options} {layers depth : Nat} {file : Path} {source : String}
  {log : Memory.Log} {parsed : ParseCache} {calls : List (Call Memory.Log ParseCache)}
  {call : Call Memory.Log ParseCache} {step : JobStep Memory.Log ParseCache Output}

/-! ## Missing imports of scanned documents -/

/-- If a call misses an import of a document that was visited, the host cannot resolve it. -/
theorem Runs.refused
    (h : Runs m.host (Inline.renderer depth) m.tree layers (create file source options) log parsed
      calls step)
    (hparsed : parsed.Valid) (hvariables : options.importVariables = []) (hcall : call ∈ calls)
    {pending : Pending} (hout : call.outcome = .ok (.needsResolution pending))
    (hvisited : call.job.frontier.isVisited pending.importer = true) :
    (m.importGraph options file source).grant? pending.key = none := by
  have hg := m.constant_importGraph options file source
  obtain ⟨hexplored, hidle⟩ := Runs.explored hg rfl h call hcall
  obtain ⟨importer, name, found, rfl, hreported⟩ := h.reported hparsed hcall hout
  have himporter : options.dialect.isDialectFile importer = true := by
    obtain ⟨other, hother, heq⟩ := List.contains_iff_exists_mem_beq.1 hvisited
    have hdialect := hexplored.dialect other (List.mem_append_left _ hother)
    exact (options.dialect.isDialectFile_congr heq).trans hdialect
  have hmentions := Memory.mentions_of_reported hreported hvariables himporter
  -- The scan has found the import, so it is cached or refused; and what is cached is not missed.
  rcases hexplored.settled hidle hvisited hmentions with hcached | hnone
  · rw [hreported.lacks.not_cached.1] at hcached
    cases hcached
  · exact hnone

/-- A retry is due to a document that was not visited yet. -/
theorem Runs.unvisited
    (h : Runs m.host (Inline.renderer depth) m.tree layers (create file source options) log parsed
      calls step)
    (hparsed : parsed.Valid) (hvariables : options.importVariables = [])
    (hcall : call ∈ calls.dropLast) {pending : Pending}
    (hout : call.outcome = .ok (.needsResolution pending)) :
    call.job.frontier.isVisited pending.importer = false := by
  have hmem := List.mem_of_mem_dropLast hcall
  have hunder := h.underway hparsed call hmem
  obtain ⟨next, -, hfollows⟩ :=
    exists_follows (h.isChain (guessing_create file source options)) hcall
  have hgranted := hfollows.granted (m.constant_importGraph options file source)
    hunder.grown.options hout
  exact Bool.eq_false_iff.2 fun hvisited =>
    hgranted (h.refused hparsed hvariables hmem hout hvisited)

/-- If a call misses an import of a document that was visited, it is the last one, and the run fails
with that import. -/
theorem Runs.ended
    (h : Runs m.host (Inline.renderer depth) m.tree layers (create file source options) log parsed
      calls step)
    (hparsed : parsed.Valid) (hvariables : options.importVariables = []) (hcall : call ∈ calls)
    {pending : Pending} (hout : call.outcome = .ok (.needsResolution pending))
    (hvisited : call.job.frontier.isVisited pending.importer = true) :
    calls.getLast? = some call ∧
      step.result = .error (Memory.refusal options.dialect pending) := by
  have hunder := h.underway hparsed call hcall
  obtain ⟨last, hlast, hverdict, -⟩ := h.verdict (guessing_create file source options)
  obtain ⟨before, rfl⟩ := List.getLast?_eq_some_iff.1 hlast
  obtain rfl : call = last := by
    rcases List.mem_append.1 hcall with hretry | hretry
    · have hunvisited := h.unvisited hparsed hvariables (by simpa using hretry) hout
      simp [hvisited] at hunvisited
    · exact List.mem_singleton.1 hretry
  obtain ⟨importer, name, found, rfl, hreported⟩ := h.reported hparsed hcall hout
  exact ⟨hlast, (hverdict.refusal hunder hout hreported.lacks).2⟩

/-- No retry is due to the document of the job, and no two are due to one document. -/
theorem Runs.retries
    (h : Runs m.host (Inline.renderer depth) m.tree layers (create file source options) log parsed
      calls step)
    (hparsed : parsed.Valid) (hon : options.prefetch = true)
    (hvariables : options.importVariables = []) :
    (options.dialect.isDialectFile file = true → ∀ call ∈ calls.dropLast, ∀ pending,
      call.outcome = .ok (.needsResolution pending) → (pending.importer == file) = false) ∧
    calls.dropLast.Pairwise fun a b => ∀ pending pending',
      a.outcome = .ok (.needsResolution pending) → b.outcome = .ok (.needsResolution pending') →
      options.dialect.isDialectFile pending.importer = true →
      (pending.importer == pending'.importer) = false := by
  have hg := m.constant_importGraph options file source
  have hguessing := guessing_create file source options
  have hroot : ∀ call ∈ calls, call.job.frontier.wantsVisit file = false := fun call hcall =>
    (Runs.explored hg rfl h call hcall).1.root
  constructor
  · intro hfile call hcall pending hout
    have hmem := List.mem_of_mem_dropLast hcall
    obtain ⟨hexplored, hidle⟩ := Runs.explored hg rfl h call hmem
    have hvisited : call.job.frontier.isVisited file = true := by
      refine Frontier.isVisited_of_not_wanted (Frontier.hasPending_eq_false.1 hidle).1 ?_ ?_
        (hroot call hmem)
      · rw [hexplored.options]
        exact hon
      · rw [hexplored.options]
        exact hfile
    refine Bool.eq_false_iff.2 fun heq => ?_
    have hunvisited := h.unvisited hparsed hvariables hcall hout
    rw [call.job.frontier.isVisited_congr heq, hvisited] at hunvisited
    cases hunvisited
  · have hsurveys : calls.dropLast.Pairwise (Surveys options.dialect) := by
      refine List.Pairwise.sublist (List.dropLast_sublist calls) ?_
      refine ((h.isChain hguessing).imp_of_mem_imp fun a b ha _ hab => ?_).pairwise
      exact hab.surveys (h.underway hparsed a ha) hon (hroot a ha)
    refine hsurveys.imp_of_mem fun {a b} _ hb hab pending pending' hout hout' hdialect => ?_
    refine Bool.eq_false_iff.2 fun heq => ?_
    have hvisited := hab pending.importer hdialect (Or.inr ⟨pending, hout, BEq.refl _⟩)
    have hunvisited := h.unvisited hparsed hvariables hb hout'
    rw [← b.job.frontier.isVisited_congr heq, hvisited] at hunvisited
    cases hunvisited

/-- A job that scans ahead misses imports of scanned documents only if the host cannot resolve them:
if an attempt needs a reference for a document that was visited when it started, the host fails for
all candidates of the reference and the run ends with that import unresolved. So the document of the
job is never the cause of a retry, and no other document of the dialect is the cause of two. -/
theorem prefetch_misses_nothing {limits : Limits} (hon : options.prefetch = true)
    (hvariables : options.importVariables = []) (hdepth : m.targets.length < depth)
    (hlayers : m.targets.length + 1 < limits.layers)
    (hrenders : (m.references options file source).length < limits.renders)
    (hparsed : parsed.Valid) (log : Memory.Log) :
    ∃ (step : JobStep Memory.Log ParseCache Output) (calls : List (Call Memory.Log ParseCache)),
      (create file source options).run m.host (Inline.renderer depth) m.tree limits log parsed =
        some step ∧
      Runs m.host (Inline.renderer depth) m.tree limits.layers (create file source options) log
        parsed calls step ∧
      step.job.attempts = calls.length ∧
      (∀ call ∈ calls, ∀ pending, call.outcome = .ok (.needsResolution pending) →
        call.job.frontier.isVisited pending.importer = true →
        calls.getLast? = some call ∧
        (∀ request ∈ options.dialect.candidates pending.key.request,
          ∃ failure, m.resolve ⟨pending.key.context, request⟩ = .error failure) ∧
        step.result = .error (Memory.refusal options.dialect pending)) ∧
      (options.dialect.isDialectFile file = true → ∀ call ∈ calls.dropLast, ∀ pending,
        call.outcome = .ok (.needsResolution pending) → (pending.importer == file) = false) ∧
      calls.dropLast.Pairwise fun a b => ∀ pending pending',
        a.outcome = .ok (.needsResolution pending) → b.outcome = .ok (.needsResolution pending') →
        options.dialect.isDialectFile pending.importer = true →
        (pending.importer == pending'.importer) = false := by
  obtain ⟨step, calls, hrun, hruns, hattempts⟩ := exists_run hdepth hlayers hrenders hparsed log
  obtain ⟨hentry, hretries⟩ := hruns.retries hparsed hon hvariables
  refine ⟨step, calls, hrun, hruns, hattempts, ?_, hentry, hretries⟩
  intro call hcall pending hout hvisited
  have hnone := hruns.refused hparsed hvariables hcall hout hvisited
  obtain ⟨hlast, hresult⟩ := hruns.ended hparsed hvariables hcall hout hvisited
  exact ⟨hlast, Host.granted?_eq_none_iff.1 hnone, hresult⟩

/-- A file that a render finds in a search directory, and a package that has a missing import. -/
def searchedLibrary : Memory where
  files := [(⟨"/l/a.styl"⟩, "@import '~p'\n"), (⟨"/n/p.styl"⟩, "@import '~q'\n")]
  moduleDirs := [⟨"/n"⟩]

/-- Options with that search directory. -/
def librarySearch : Options where
  paths := [⟨"/l"⟩]
  moduleDirs := []

/-- The first attempt needs the package, and a second one is made. That one needs what the package
imports, which is scanned by then. -/
theorem prefetch_misses_nothing_searchedLibrary :
    ∃ (step : JobStep Memory.Log ParseCache Output) (first last : Call Memory.Log ParseCache)
      (pending : Pending),
      (create ⟨"/m.styl"⟩ "@import 'a'\n" librarySearch).run searchedLibrary.host
        (Inline.renderer 3) searchedLibrary.tree ⟨4, 10⟩ {} {} = some step ∧
      Runs searchedLibrary.host (Inline.renderer 3) searchedLibrary.tree 4
        (create ⟨"/m.styl"⟩ "@import 'a'\n" librarySearch) {} {} [first, last] step ∧
      last.outcome = .ok (.needsResolution pending) ∧ pending.name = "~q" ∧
      last.job.frontier.isVisited pending.importer = true ∧
      step.result = .error (Memory.refusal librarySearch.dialect pending) := by
  have hdepth : searchedLibrary.targets.length < 3 := by decide +kernel
  have hlayers : searchedLibrary.targets.length + 1 < (⟨4, 10⟩ : Limits).layers := by
    decide +kernel
  have hrenders : (searchedLibrary.references librarySearch ⟨"/m.styl"⟩
      "@import 'a'\n").length < (⟨4, 10⟩ : Limits).renders := by
    decide +kernel
  have hparsed := Inline.ParseCache.valid_empty
  obtain ⟨step, calls, hrun, hruns, -, hmisses, -, -⟩ :=
    prefetch_misses_nothing rfl rfl hdepth hlayers hrenders hparsed {}
  -- The first two attempts, with the reference that is resolved between them.
  have hsecond : ((create ⟨"/m.styl"⟩ "@import 'a'\n" librarySearch).enqueueEntry.drain
      searchedLibrary.host 4 {}).bind (fun a =>
        (a.2.1.attempt (Inline.renderer 3) searchedLibrary.tree {}).bind fun b =>
        (missing? b.1).bind fun pending =>
        (resolvePending searchedLibrary.host 4 pending
          { b.2.1 with stage := .awaitingResolution } a.2.2).bind fun c =>
        c.1.toOption.bind fun _ =>
        (c.2.1.attempt (Inline.renderer 3) searchedLibrary.tree b.2.2).bind fun d =>
        (missing? d.1).map fun pending =>
          (pending.name, c.2.1.frontier.isVisited pending.importer)) = some ("~q", true) := by
    decide +kernel
  obtain ⟨job₁, s₁, step₁, hdrain, hcalls, -⟩ := id hruns
  rw [hdrain, Option.bind_some] at hsecond
  cases hcalls with
  | failed call => simp [call, missing?] at hsecond
  | rendered call => simp [call, missing?] at hsecond
  | missing call resolve => simp [call, missing?, resolve, Except.toOption] at hsecond
  | retry call resolve others =>
    obtain ⟨outcome, rest, rfl⟩ := others.head
    obtain ⟨job₂, r₂, hattempt⟩ := others.attempted _ List.mem_cons_self
    dsimp only at hattempt
    rw [call, Option.bind_some] at hsecond
    dsimp only [missing?] at hsecond
    rw [Option.bind_some, resolve, Option.bind_some] at hsecond
    dsimp only [Except.toOption] at hsecond
    rw [Option.bind_some, hattempt, Option.bind_some] at hsecond
    obtain ⟨pending, hpending, hseen⟩ := Option.map_eq_some_iff.1 hsecond
    obtain ⟨hname, hvisited⟩ := Prod.mk.inj hseen
    have hout := eq_of_missing? hpending
    have hlast := hmisses _ (List.mem_cons_of_mem _ List.mem_cons_self) pending hout hvisited
    cases rest with
    | nil => exact ⟨step, _, _, pending, hrun, hruns, hout, hname, hvisited, hlast.2.2⟩
    | cons next rest =>
      exfalso
      have hunvisited := hruns.unvisited hparsed rfl
        (List.mem_cons_of_mem _ List.mem_cons_self) hout
      rw [hvisited] at hunvisited
      cases hunvisited

end

end Job

end StyleWeave
