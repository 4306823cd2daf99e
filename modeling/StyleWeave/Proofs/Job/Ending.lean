import StyleWeave.Proofs.Host.Finite
import StyleWeave.Proofs.Job.Limits
import StyleWeave.Proofs.Job.Progress

/-!
# Runs over hosts in memory end

A host in memory leads to finitely many files. So with enough layers every drain of a job ends, and
with enough depth every render does. Each render but the last needs a reference that was not needed
before, and the references that imports of the files make are finitely many. So a run ends
(`run_isSome`), if its limits exceed these numbers.

The same holds when a job is run again, after runs that have ended in any way. And a run that ends
does so alike within higher limits, so what a run comes to is told without limits (`run_ends`): it
is the end of all runs whose limits are at least those that are computed from the files.
-/

namespace StyleWeave

namespace Inline

variable {σ : Type}

theorem outcome_isSome {options : Options} {file : Path} {p : Pass σ} {result : Except Halt Unit}
    (h : result ≠ .error .tooDeep) : (outcome options file p result).isSome = true := by
  rcases result with (pending | failure | _) | ⟨⟩
  · rfl
  · rfl
  · exact absurd rfl h
  · rfl

/-- If imports lead only to some files, a render that may go deeper than there are files ends. What
it finds are such files, and a reference that it needs is that of an import which it reaches. -/
theorem exists_render {l : Lookup} {files : List Path} (hknown : Finder.LeadsInto l.known? files)
    {depth : Nat} (hdepth : files.length < depth) (file : Path) (source : String)
    {parsed : ParseCache} (hparsed : parsed.Valid) :
    ∃ step, (renderer depth).render parsed file source l.options l.locator .empty = some step ∧
      step.state.Valid ∧ step.found.paths ⊆ files ∧
      ∀ pending, step.outcome = .ok (.needsResolution pending) → ∃ importer name,
        pending = pendingOf l.options importer name ∧
        ReachesImport l.options l.tree l.known? file source importer name := by
  have hfound := found_of_passThrough hknown depth file source hparsed
  have hrender := render_eq depth parsed file source l.options l.locator .empty
  have hresult := (passThrough_over l.options l.tree l.cache l.options.prefetch depth file source
    .empty hparsed).1
  dsimp only at hfound hrender hresult
  generalize passThrough (.ofLocator l.options l.locator) depth file source .empty parsed = pass
    at *
  have hdeep : pass.1 ≠ .error .tooDeep := by
    rw [hresult]
    exact passOver_ne_tooDeep hknown hdepth
  have hsome : (outcome l.options file pass.2 pass.1).isSome = true := outcome_isSome hdeep
  obtain ⟨outcome, houtcome⟩ := Option.isSome_iff_exists.1 hsome
  rw [houtcome, Option.map_some] at hrender
  refine ⟨_, hrender, valid_of_render hparsed hrender, hfound, fun pending hout => ?_⟩
  obtain rfl : outcome = .ok (.needsResolution pending) := hout
  rw [outcome_eq_needsResolution_iff, hresult] at houtcome
  obtain ⟨importer, name, heq, hreaches, -⟩ := lacks_of_passOver houtcome
  exact ⟨importer, name, heq, hreaches⟩

end Inline

namespace Job

open Inline (ParseCache)

variable {m : Memory} {options : Options} {layers depth : Nat} {file : Path} {source : String}
  {keys : List Reference} {job : Job} {log : Memory.Log} {parsed : ParseCache}

/-- How a job stands in a run over a host in memory, when its document and options are these. All
references that its renders have needed are among the keys. -/
structure Ready (m : Memory) (options : Options) (file : Path) (source : String)
    (keys : List Reference) (job : Job) : Prop where
  path : job.file = file
  text : job.source = source
  grown : Frontier.Extends m.host (create file source options).frontier job.frontier
  listed : job.frontier.Listed (file :: m.targets)
  differ : job.attempted.Pairwise fun a b => (a == b) = false
  needed : job.attempted ⊆ keys

theorem Ready.create (m : Memory) (options : Options) (file : Path) (source : String)
    (keys : List Reference) : Ready m options file source keys (create file source options) :=
  ⟨rfl, rfl, ⟨rfl, .refl⟩, ⟨by simp [Job.create], by simp [Job.create], by simp [Job.create]⟩,
    List.Pairwise.nil, List.nil_subset _⟩

theorem Ready.withStage (h : Ready m options file source keys job) (stage : Stage) :
    Ready m options file source keys { job with stage } :=
  ⟨h.path, h.text, h.grown, h.listed, h.differ, h.needed⟩

theorem Ready.settle {step : JobStep Memory.Log ParseCache Output}
    (h : Ready m options file source keys step.job) :
    Ready m options file source keys (settle step).job := by
  obtain ⟨stage, hstage⟩ := settle_job step
  rw [hstage]
  exact h.withStage stage

theorem leadsInto_cons (m : Memory) (file : Path) : m.host.LeadsInto (file :: m.targets) :=
  fun log key target log' h => List.mem_cons_of_mem _ (m.leadsInto_targets log key target log' h)

/-- An attempt ends if it may go deeper than there are files. It keeps a job ready, and a reference
that it needs is one of those that imports make. -/
theorem Ready.attempt (h : Ready m options file source keys job)
    (hkeys : m.Lists options file source keys) (hparsed : parsed.Valid)
    (hdepth : m.targets.length < depth) :
    ∃ outcome job' parsed', job.attempt (Inline.renderer depth) m.tree parsed =
        some (outcome, job', parsed') ∧
      Ready m options file source keys job' ∧ parsed'.Valid ∧
      job'.attempted = job.attempted ∧ job'.frontier.queries = job.frontier.queries ∧
      ∀ pending, outcome = .ok (.needsResolution pending) → pending.key ∈ keys := by
  have hopt : job.frontier.options = options := h.grown.options
  have hknown : Inline.Finder.LeadsInto (job.lookup m.tree).known? m.targets := by
    rw [lookup, hopt]
    exact Memory.known?_leadsInto h.grown.cache
  obtain ⟨step, hrender, hvalid, hfound, hneeds⟩ :=
    Inline.exists_render hknown hdepth job.file job.source hparsed
  refine ⟨step.outcome, _, step.state, attempt_eq_some_iff.2 ⟨step.found, hrender, rfl⟩, ?_, hvalid,
    rfl, by simp, ?_⟩
  · refine ⟨h.path, h.text, ⟨?_, ?_⟩, ?_, h.differ, h.needed⟩
    · simpa using h.grown.options
    · simpa using h.grown.cache
    · exact h.listed.addDependencies fun p hp => List.mem_cons_of_mem _ (hfound hp)
  · intro pending hout
    obtain ⟨importer, name, rfl, hreaches⟩ := hneeds pending hout
    have hlookup : (job.lookup m.tree).options = options := hopt
    rw [h.path, h.text, hlookup] at hreaches
    rw [hlookup]
    exact hkeys _ importer name hknown hreaches

/-- Resolving a reference that a render needs ends, and keeps a job ready. If it succeeds, the job
has needed one reference more. -/
theorem Ready.resolvePending (h : Ready m options file source keys job)
    (hq : job.frontier.queries = []) (hlayers : m.targets.length + 1 < layers) {pending : Pending}
    (hkey : pending.key ∈ keys) (log : Memory.Log) :
    ∃ result job' log', job.resolvePending m.host layers pending log = some (result, job', log') ∧
      Ready m options file source keys job' ∧
      (result = .ok () → job'.frontier.queries = [] ∧
        job'.attempted.length = job.attempted.length + 1) := by
  by_cases hs : job.Spent pending.key
  · refine ⟨.error (.consistency pending.key), job, log, ?_, h, by simp⟩
    unfold Job.resolvePending
    rw [if_pos (by simpa [Spent] using hs)]
  · have hlisted : Frontier.Listed (file :: m.targets)
        { job.frontier with queries := [⟨pending.key, false⟩] } := h.listed.congr rfl rfl
    have hsome : (Frontier.drain m.host layers
        { job.frontier with queries := [⟨pending.key, false⟩] } log).isSome = true := by
      refine Frontier.drain_isSome (leadsInto_cons m file) hlisted log (Or.inl ?_)
      rw [List.length_cons]
      omega
    obtain ⟨⟨result, frontier, log'⟩, hdrain⟩ := Option.isSome_iff_exists.1 hsome
    obtain ⟨he, -, hend⟩ := Frontier.drain_of_required rfl hdrain
    refine ⟨_, _, _, by rw [resolvePending_of_not_spent hq hs, hdrain]; rfl, ?_, fun hok => ?_⟩
    · exact ⟨h.path, h.text, h.grown.trans ⟨he.options, he.cache⟩,
        hlisted.drain (leadsInto_cons m file) hdrain, pairwise_cons_attempted hs h.differ,
        List.cons_subset.2 ⟨hkey, h.needed⟩⟩
    · rcases hend with ⟨-, hidle, -⟩ | ⟨failures, s₁, rfl, -, -⟩
      · exact ⟨(Frontier.hasPending_eq_false.1 hidle).2, rfl⟩
      · cases hok

/-- The loop of a run ends if it has more renders than there are references that may be needed
yet, and it keeps a job ready. -/
theorem Ready.converge (h : Ready m options file source keys job)
    (hkeys : m.Lists options file source keys) (hq : job.frontier.queries = [])
    (hparsed : parsed.Valid) (hdepth : m.targets.length < depth)
    (hlayers : m.targets.length + 1 < layers) {renders : Nat}
    (hrenders : keys.length < renders + job.attempted.length) (log : Memory.Log) :
    ∃ step, job.converge m.host (Inline.renderer depth) m.tree layers renders log parsed =
      some step ∧ Ready m options file source keys step.job := by
  induction renders generalizing job log parsed with
  | zero =>
    exfalso
    have hle := Reference.length_le_of_subset h.differ h.needed
    omega
  | succ renders ih =>
    obtain ⟨outcome, job₁, parsed₁, hattempt, h₁, hparsed₁, hatt, hqueries, hneeds⟩ :=
      h.attempt hkeys hparsed hdepth
    unfold Job.converge
    rw [hattempt]
    rcases outcome with failure | rendered | pending
    · exact ⟨_, rfl, h₁⟩
    · exact ⟨_, rfl, h₁.withStage .done⟩
    · have h₂ := h₁.withStage .awaitingResolution
      obtain ⟨result, job₃, log₃, hresolve, h₃, hresolved⟩ := h₂.resolvePending
        (hqueries.trans hq) hlayers (hneeds pending rfl) log
      dsimp only [Option.bind_eq_bind, Option.bind_some]
      rw [hresolve]
      cases result with
      | error failure => exact ⟨_, rfl, h₃⟩
      | ok done =>
        obtain ⟨hq₃, hlen⟩ := hresolved rfl
        refine ih h₃ hq₃ hparsed₁ ?_ log₃
        dsimp only at hlen
        rw [hlen, hatt]
        omega

/-- A run ends within limits that exceed the numbers of the files and of the references that imports
make, and it keeps a job ready. -/
theorem Ready.run (h : Ready m options file source keys job)
    (hkeys : m.Lists options file source keys) (hg : job.frontier.Guessing)
    (hparsed : parsed.Valid) {limits : Limits} (hdepth : m.targets.length < depth)
    (hlayers : m.targets.length + 1 < limits.layers) (hrenders : keys.length < limits.renders)
    (log : Memory.Log) :
    ∃ step, job.run m.host (Inline.renderer depth) m.tree limits log parsed = some step ∧
      Ready m options file source keys step.job := by
  have hlisted : job.enqueueEntry.frontier.Listed (file :: m.targets) := by
    have hentry : job.file ∈ file :: m.targets := by
      rw [h.path]
      exact List.mem_cons_self
    exact (h.listed.enqueueVisit hentry (some job.source)).addDependency hentry
  have hsome : (job.enqueueEntry.frontier.drain m.host limits.layers log).isSome = true := by
    refine Frontier.drain_isSome (leadsInto_cons m file) hlisted log (Or.inl ?_)
    rw [List.length_cons]
    omega
  obtain ⟨⟨result, frontier, log₁⟩, hdrain⟩ := Option.isSome_iff_exists.1 hsome
  have hd := drain_eq_some_iff.2 ⟨frontier, hdrain, rfl⟩
  obtain ⟨rfl, hidle, hgrown, -⟩ := drain_enqueueEntry hg hd
  have hready : Ready m options file source keys { job.enqueueEntry with frontier } :=
    ⟨h.path, h.text, h.grown.trans hgrown, hlisted.drain (leadsInto_cons m file) hdrain, h.differ,
      h.needed⟩
  obtain ⟨step, hconverge, hstep⟩ := hready.converge hkeys
    (Frontier.hasPending_eq_false.1 hidle).2 hparsed hdepth hlayers
    (Nat.lt_add_right _ hrenders) log₁
  refine ⟨Job.settle step, ?_, hstep.settle⟩
  unfold Job.run compile
  refine Option.map_eq_some_iff.2 ⟨step, ?_, rfl⟩
  rw [hd]
  exact hconverge

/-- A first run over a host in memory ends, if its limits exceed the numbers of the files and of the
references that imports make. -/
theorem run_isSome {limits : Limits} (hdepth : m.targets.length < depth)
    (hlayers : m.targets.length + 1 < limits.layers)
    (hrenders : (m.references options file source).length < limits.renders)
    (hparsed : parsed.Valid) (log : Memory.Log) :
    ((create file source options).run m.host (Inline.renderer depth) m.tree limits log
      parsed).isSome = true := by
  obtain ⟨step, hrun, -⟩ := (Ready.create m options file source _).run
    (m.lists_references options file source) (guessing_create file source options) hparsed hdepth
    hlayers hrenders log
  exact Option.isSome_iff_exists.2 ⟨step, hrun⟩

/-- Such a run has made as many attempts as calls. -/
theorem exists_run {limits : Limits} (hdepth : m.targets.length < depth)
    (hlayers : m.targets.length + 1 < limits.layers)
    (hrenders : (m.references options file source).length < limits.renders)
    (hparsed : parsed.Valid) (log : Memory.Log) :
    ∃ (step : JobStep Memory.Log ParseCache Output) (calls : List (Call Memory.Log ParseCache)),
      (create file source options).run m.host (Inline.renderer depth) m.tree limits log parsed =
        some step ∧
      Runs m.host (Inline.renderer depth) m.tree limits.layers (create file source options) log
        parsed calls step ∧
      step.job.attempts = calls.length := by
  have hsome := run_isSome hdepth hlayers hrenders hparsed log
  obtain ⟨step, hrun⟩ := Option.isSome_iff_exists.1 hsome
  have hg := guessing_create file source options
  obtain ⟨calls, hcalls, -⟩ := (run_eq_some_iff hg).1 hrun
  refine ⟨step, calls, hrun, hcalls, ?_⟩
  rw [(hcalls.kept hg List.Pairwise.nil).attempts]
  exact Nat.zero_add _

/-! ## Any number of runs -/

/-- A job over the files in memory, after any number of runs with the inlining renderer. Each may
have had limits of its own, and the host may have been in any state when it started. -/
inductive Rerun (m : Memory) : Job → Prop where
  | create (file : Path) (source : String) (options : Options) :
      Rerun m (Job.create file source options)
  | run {depth : Nat} {limits : Limits} {job : Job} {log : Memory.Log} {parsed : ParseCache}
      {step : JobStep Memory.Log ParseCache Output} (before : Rerun m job)
      (valid : parsed.Valid)
      (ran : job.run m.host (Inline.renderer depth) m.tree limits log parsed = some step) :
      Rerun m step.job

/-- Before each run a job is ready, and what is queued is only guessed. -/
theorem Rerun.ready (h : Rerun m job) :
    job.frontier.Guessing ∧ ∃ options file source,
      Ready m options file source (m.documentReferences options file source) job := by
  induction h with
  | create file source options =>
    have hready := Ready.create m options file source
    exact ⟨guessing_create file source options, options, file, source, hready _⟩
  | @run depth limits job log parsed step _ valid ran ih =>
    obtain ⟨hg, options, file, source, hready⟩ := ih
    obtain ⟨calls, hcalls, -⟩ := (run_eq_some_iff hg).1 ran
    refine ⟨(hcalls.kept hg hready.differ).guessing, options, file, source, ?_⟩
    -- The run may have had little room. It ends like one with room for all that is known to end.
    have hkeys := m.lists_documentReferences options file source
    generalize m.documentReferences options file source = keys at hready hkeys ⊢
    let enough : Limits :=
      ⟨max limits.layers (m.targets.length + 2), max limits.renders (keys.length + 1)⟩
    have hdepth : m.targets.length < max depth (m.targets.length + 1) := Nat.le_max_right _ _
    have hlayers : m.targets.length + 1 < enough.layers := Nat.le_max_right _ _
    have hrenders : keys.length < enough.renders := Nat.le_max_right _ _
    obtain ⟨step', hrun, hready'⟩ := hready.run hkeys hg valid hdepth hlayers hrenders log
    have hlayers' : limits.layers ≤ enough.layers := Nat.le_max_left _ _
    have hrenders' : limits.renders ≤ enough.renders := Nat.le_max_left _ _
    obtain ⟨parsed', -, hmore⟩ := run_mono valid valid (Nat.le_max_left depth _) hlayers' hrenders'
      ran
    rw [hmore] at hrun
    obtain rfl := Option.some.inj hrun
    exact hready'

/-- Every run over the files in memory ends. It comes to the same end within all limits that are at
least those computed from the files, with every renderer that may inline as many documents as they
say, and whatever was parsed before. It makes fewer attempts than the files have characters. -/
theorem run_ends (h : Rerun m job) (log : Memory.Log) :
    ∃ (result : Except Failure Output) (job' : Job) (log' : Memory.Log),
      job'.attempts < job.attempts + m.importBound job.source ∧
      ∀ (depth : Nat) (limits : Limits) (parsed : ParseCache), parsed.Valid → m.reach ≤ depth →
        (m.limits job.source).layers ≤ limits.layers →
        (m.limits job.source).renders ≤ limits.renders →
        ∃ (parsed' : ParseCache) (calls : List (Call Memory.Log ParseCache)),
          job.run m.host (Inline.renderer depth) m.tree limits log parsed =
            some ⟨result, job', log', parsed'⟩ ∧
          Runs m.host (Inline.renderer depth) m.tree limits.layers job log parsed calls
            ⟨result, job', log', parsed'⟩ ∧
          job'.attempts = job.attempts + calls.length ∧ parsed'.Valid := by
  obtain ⟨hg, options, file, source, hready⟩ := h.ready
  have hkeys := m.lists_documentReferences options file source
  have hcount := m.length_documentReferences_lt options file source
  rw [← hready.text] at hcount
  rw [← hready.text] at hkeys hready
  generalize m.documentReferences options file job.source = keys at hready hkeys hcount
  have htargets : m.targets.length + 2 = m.reach := by
    simp [Memory.targets, Memory.reach]
  have hvalid := Inline.ParseCache.valid_empty
  have hreach : m.targets.length < m.reach := by omega
  have hlayers : m.targets.length + 1 < (m.limits job.source).layers := by
    show m.targets.length + 1 < m.reach
    omega
  have hrenders : keys.length < (m.limits job.source).renders := by
    show keys.length < m.importBound job.source
    omega
  -- The run with just these limits.
  obtain ⟨step, hrun, hready'⟩ := hready.run hkeys hg hvalid hreach hlayers hrenders log
  obtain ⟨calls, hcalls, -⟩ := (run_eq_some_iff hg).1 hrun
  have hkept := hcalls.kept hg hready.differ
  have hneeded := Reference.length_le_of_subset hready'.differ hready'.needed
  refine ⟨step.result, step.job, step.host, ?_, ?_⟩
  · have hattempts := hkept.attempts
    have hgrown := hkept.grown
    omega
  · intro depth limits parsed hparsed hdepth hlayers' hrenders'
    obtain ⟨parsed', hvalid', hrun'⟩ := run_mono hvalid hparsed hdepth hlayers' hrenders' hrun
    obtain ⟨calls', hcalls', -⟩ := (run_eq_some_iff hg).1 hrun'
    exact ⟨parsed', calls', hrun', hcalls', (hcalls'.kept hg hready.differ).attempts, hvalid'⟩

/-- A file that imports itself, by another spelling of its path. -/
def respelled : Memory where
  files := [(⟨"/m.styl"⟩, "@import '~p'\n")]
  routes := [(⟨⟨"/"⟩, "p.styl"⟩, ⟨"/x/../m.styl"⟩), (⟨⟨"/x/.."⟩, "p.styl"⟩, ⟨"/x/../m.styl"⟩)]

/-- The first run ends with the third attempt, when the file is found around itself. The job is run
again, and ends after one attempt more. -/
theorem run_ends_respelled :
    ∃ first second : JobStep Memory.Log ParseCache Output,
      (create ⟨"/m.styl"⟩ "@import '~p'\n" { prefetch := false }).run respelled.host
        (Inline.renderer 5) respelled.tree ⟨5, 54⟩ {} {} = some first ∧
      Rerun respelled first.job ∧ first.job.attempts = 3 ∧
      first.job.run respelled.host (Inline.renderer 5) respelled.tree ⟨5, 54⟩ first.host {} =
        some second ∧ second.job.attempts = 4 ∧
      second.job.attempts < first.job.attempts + respelled.importBound first.job.source := by
  have htwice : ((create ⟨"/m.styl"⟩ "@import '~p'\n" { prefetch := false }).run respelled.host
      (Inline.renderer 5) respelled.tree ⟨5, 54⟩ {} {}).bind (fun first =>
        (first.job.run respelled.host (Inline.renderer 5) respelled.tree ⟨5, 54⟩ first.host {}).map
          fun second => (first.job.attempts, second.job.attempts,
            decide (respelled.importBound first.job.source = 54))) = some (3, 4, true) := by
    decide +kernel
  obtain ⟨first, hfirst, hmore⟩ := Option.bind_eq_some_iff.1 htwice
  obtain ⟨second, hsecond, heq⟩ := Option.map_eq_some_iff.1 hmore
  obtain ⟨hthree, hrest⟩ := Prod.mk.inj heq
  obtain ⟨hfour, hbound⟩ := Prod.mk.inj hrest
  have hbound' : respelled.importBound first.job.source = 54 := of_decide_eq_true hbound
  have hvalid := Inline.ParseCache.valid_empty
  have hrerun : Rerun respelled first.job :=
    (Rerun.create ⟨"/m.styl"⟩ "@import '~p'\n" { prefetch := false }).run hvalid hfirst
  obtain ⟨result, job', log', hattempts, hends⟩ := run_ends hrerun first.host
  have hreach : respelled.reach ≤ 5 := by decide
  obtain ⟨parsed', calls, hrun, -⟩ := hends 5 ⟨5, 54⟩ {} hvalid hreach hreach
    (Nat.le_of_eq hbound')
  rw [hsecond] at hrun
  obtain rfl := Option.some.inj hrun
  exact ⟨first, _, hfirst, hrerun, hthree, hsecond, hfour, hattempts⟩

end Job

end StyleWeave
