import StyleWeave.Proofs.Job.Verdict

/-!
# Which references a job does not wait for

A job fails instead of rendering again when the reference that a render needs is cached, or was
needed before (`Job.Spent`). Within a run a reference that was needed before is cached, because the
job renders again only when it has resolved it. What a job keeps of a run that the host ended by
refusing a reference is that the reference was needed, but nothing is cached for it. So over many
runs the references that a job does not wait for are those that are cached, and those that a run
before has ended with (`Chronicle.spent_iff`).
-/

namespace StyleWeave.Job

variable {σ ρ : Type} {host : Host σ} {renderer : Renderer ρ} {tree : SourceTree} {layers : Nat}
  {job job' : Job} {s s' : σ} {r : ρ} {calls : List (Call σ ρ)} {step : JobStep σ ρ Output}

/-- The reference that the host has refused at the end of a run, when the last call needed it. -/
def refusal? (calls : List (Call σ ρ)) (step : JobStep σ ρ Output) : Option Reference :=
  match calls.getLast?.bind Call.reported?, step.result with
  | some key, .error (.unresolvedImport _ _ _ _) => some key
  | _, _ => none

theorem refusal?_cons {call : Call σ ρ} (h : calls ≠ []) :
    refusal? (call :: calls) step = refusal? calls step := by
  obtain ⟨next, rest, rfl⟩ := List.exists_cons_of_ne_nil h
  rw [refusal?, refusal?, List.getLast?_cons_cons]

theorem refusal?_settle (calls : List (Call σ ρ)) (step : JobStep σ ρ Output) :
    refusal? calls (settle step) = refusal? calls step := by
  obtain ⟨result, job, s, r⟩ := step
  cases result <;> rfl

/-- A job of a host after any number of runs, in which the host has refused the references
`refused`, each at the end of a run. Each run may have another renderer, another source tree and
other limits, and the host may be in any state when it starts. -/
inductive Chronicle (host : Host σ) : List Reference → Job → Prop where
  | create (file : Path) (source : String) (options : Options) :
      Chronicle host [] (Job.create file source options)
  | run {ρ : Type} {renderer : Renderer ρ} {tree : SourceTree} {limits : Limits}
      {refused : List Reference} {job : Job} {s : σ} {r : ρ} {calls : List (Call σ ρ)}
      {step : JobStep σ ρ Output} (before : Chronicle host refused job)
      (ran : job.run host renderer tree limits s r = some step)
      (called : Runs host renderer tree limits.layers job s r calls step) :
      Chronicle host ((refusal? calls step).toList ++ refused) step.job

theorem Chronicle.exists_history {refused : List Reference} (h : Chronicle host refused job) :
    ∃ n reported, History host n reported job := by
  induction h with
  | create file source options => exact ⟨0, [], .create file source options⟩
  | run _ ran called ih =>
    obtain ⟨n, reported, history⟩ := ih
    exact ⟨n + 1, _, history.run ran called⟩

/-- The references that the job does not wait for are the cached and the refused ones. -/
def Remembers (refused : List Reference) (job : Job) : Prop :=
  ∀ key, job.Spent key ↔ job.frontier.cache.contains key = true ∨ refused.contains key = true

/-- A job remembers on: it has needed the references `needed` since, and of these it remembers
`new` where they are not cached. -/
theorem Remembers.extend {refused : List Reference} (h : job.Remembers refused)
    (needed new : List Reference)
    (hcache : ∀ key, job.frontier.cache.contains key = true →
      job'.frontier.cache.contains key = true)
    (hatt : job'.attempted = needed ++ job.attempted)
    (hneeded : ∀ key, needed.contains key = true →
      job'.frontier.cache.contains key = true ∨ new.contains key = true)
    (hnew : ∀ key, new.contains key = true → needed.contains key = true) :
    job'.Remembers (new ++ refused) := by
  intro key
  unfold Spent
  rw [hatt, List.contains_append, List.contains_append, Bool.or_eq_true, Bool.or_eq_true]
  constructor
  · rintro (hc | hn | ha)
    · exact Or.inl hc
    · rcases hneeded key hn with hc | hn
      · exact Or.inl hc
      · exact Or.inr (Or.inl hn)
    · rcases (h key).1 (Or.inr ha) with hc | hr
      · exact Or.inl (hcache key hc)
      · exact Or.inr (Or.inr hr)
  · rintro (hc | hn | hr)
    · exact Or.inl hc
    · exact Or.inr (Or.inl (hnew key hn))
    · rcases (h key).2 (Or.inr hr) with hc | ha
      · exact Or.inl (hcache key hc)
      · exact Or.inr (Or.inr ha)

/-- What a job does not wait for depends on what it has attempted, and a cache that only grows. -/
theorem Remembers.mono {refused : List Reference} (h : job.Remembers refused)
    (hcache : ∀ key, job.frontier.cache.contains key = true →
      job'.frontier.cache.contains key = true)
    (hatt : job'.attempted = job.attempted) : job'.Remembers refused :=
  h.extend [] [] hcache hatt (by simp) (by simp)

theorem Remembers.congr {refused : List Reference} (h : job.Remembers refused)
    (hcache : job'.frontier.cache = job.frontier.cache) (hatt : job'.attempted = job.attempted) :
    job'.Remembers refused :=
  h.mono (fun key hc => by rwa [hcache]) hatt

/-- Through the loop of a run the job remembers what it did before, and at its end also the
reference that the host has refused. A run that ends because the last call needed a reference in
vain leaves the cache of that call. -/
theorem Converges.remembers (h : Converges host renderer tree layers job s r calls step)
    (hq : job.frontier.queries = []) {refused : List Reference} (hr : job.Remembers refused) :
    ∃ last, calls.getLast? = some last ∧ last.job.Remembers refused ∧
      step.job.Remembers ((refusal? calls step).toList ++ refused) ∧
      ∀ key, step.result = .error (.consistency key) →
        step.job.frontier.cache = last.job.frontier.cache := by
  induction h with
  | failed call =>
    obtain ⟨-, hatt, -, -, hcache⟩ := attempt_spent call
    exact ⟨_, rfl, hr, hr.congr hcache hatt, fun _ _ => hcache⟩
  | rendered call =>
    obtain ⟨-, hatt, -, -, hcache⟩ := attempt_spent call
    exact ⟨_, rfl, hr, hr.congr hcache hatt, fun _ _ => hcache⟩
  | @missing job₀ job₁ _ s _ r _ pending _ call resolve =>
    obtain ⟨hq₁, hatt, -, -, hcache⟩ := attempt_spent call
    have hr₁ : Remembers refused { job₁ with stage := .awaitingResolution } :=
      hr.congr hcache hatt
    have ha := resolvePending_answer (by simpa [hq₁] using hq) resolve
    refine ⟨_, rfl, hr, ?_⟩
    cases ha with
    | spent => exact ⟨hr₁, fun _ _ => hcache⟩
    | refused fresh grown guessing reads refuses =>
      refine ⟨?_, fun key hkey => by cases hkey⟩
      exact hr₁.extend [pending.key] [pending.key] (fun key hc => grown.cache.contains hc) rfl
        (fun key hn => Or.inr hn) fun key hn => hn
  | @retry job₀ job₁ _ _ _ _ _ pending _ _ call resolve others ih =>
    obtain ⟨hq₁, hatt, -, -, hcache⟩ := attempt_spent call
    have hr₁ : Remembers refused { job₁ with stage := .awaitingResolution } :=
      hr.congr hcache hatt
    have ha := resolvePending_answer (by simpa [hq₁] using hq) resolve
    cases ha with
    | @resolved frontier _ fresh grown idle cached =>
      -- The reference that was needed is cached now, so it need not be remembered.
      have hr₂ : Remembers refused
          { job₁ with
            stage := .awaitingResolution
            attempted := pending.key :: job₁.attempted
            frontier } := by
        refine hr₁.extend [pending.key] [] (fun key hc => grown.cache.contains hc) rfl
          (fun key hn => Or.inl ?_) (by simp)
        have heq : key == pending.key := by simpa using hn
        exact (frontier.cache.contains_congr heq).trans cached
      obtain ⟨last, hlast, hrest⟩ := ih (Frontier.hasPending_eq_false.1 idle).2 hr₂
      obtain ⟨outcome, rest, rfl⟩ := others.head
      refine ⟨last, by rwa [List.getLast?_cons_cons], ?_⟩
      rwa [refusal?_cons (List.cons_ne_nil _ _)]

theorem Runs.remembers (h : Runs host renderer tree layers job s r calls step)
    (hg : job.frontier.Guessing) {refused : List Reference} (hr : job.Remembers refused) :
    ∃ last, calls.getLast? = some last ∧ last.job.Remembers refused ∧
      step.job.Remembers ((refusal? calls step).toList ++ refused) ∧
      ∀ key, step.result = .error (.consistency key) →
        step.job.frontier.cache = last.job.frontier.cache := by
  obtain ⟨job₁, s₁, step₁, hdrain, hcalls, rfl⟩ := h
  obtain ⟨-, hidle, hgrown, hjob⟩ := drain_enqueueEntry hg hdrain
  -- The drain ahead of the first call only adds to the cache.
  have hr₁ : job₁.Remembers refused :=
    hr.mono (fun key hc => hgrown.cache.contains hc) (by rw [hjob]; rfl)
  obtain ⟨last, hlast, hbefore, hafter, hcache⟩ :=
    hcalls.remembers (Frontier.hasPending_eq_false.1 hidle).2 hr₁
  obtain ⟨stage, hs⟩ := settle_job step₁
  rw [refusal?_settle, hs, result_settle]
  exact ⟨last, hlast, hbefore, hafter.congr rfl rfl, hcache⟩

/-- A job does not wait for what is cached or was refused before, and waits for all else. -/
theorem Chronicle.remembers {refused : List Reference} (h : Chronicle host refused job) :
    job.Remembers refused := by
  induction h with
  | create file source options =>
    intro key
    exact Iff.rfl
  | run before _ called ih =>
    obtain ⟨n, reported, history⟩ := before.exists_history
    obtain ⟨-, -, -, hafter, -⟩ := called.remembers history.steady.guessing ih
    exact hafter

/-- A run fails for a reference that is needed again exactly if its renderer fails in these words,
or its last call needed the reference while that was cached or had ended a run before. What is
cached when it fails is what was cached at that call. -/
theorem consistency_iff_cached_or_refused {refused : List Reference}
    (chronicle : Chronicle host refused job) {ρ : Type} (renderer : Renderer ρ) (tree : SourceTree)
    (limits : Limits) (s : σ) (r : ρ) (step : JobStep σ ρ Output)
    (ran : job.run host renderer tree limits s r = some step) :
    ∃ calls last, Runs host renderer tree limits.layers job s r calls step ∧
      calls.getLast? = some last ∧
      ∀ key, (step.result = .error (.consistency key) ↔
          last.outcome = .error (.consistency key) ∨
            ∃ pending, last.outcome = .ok (.needsResolution pending) ∧ pending.key = key ∧
              (last.job.frontier.cache.contains key = true ∨ refused.contains key = true)) ∧
        (step.result = .error (.consistency key) →
          step.job.frontier.cache = last.job.frontier.cache) := by
  obtain ⟨n, reported, history⟩ := chronicle.exists_history
  have hg := history.steady.guessing
  obtain ⟨calls, hcalls, -⟩ := (run_eq_some_iff hg).1 ran
  obtain ⟨last, hlast, hremembers, -, hcache⟩ := hcalls.remembers hg chronicle.remembers
  obtain ⟨last', hlast', hverdict, -⟩ := hcalls.verdict hg
  obtain rfl : last' = last := Option.some.inj (hlast'.symm.trans hlast)
  refine ⟨calls, last', hcalls, hlast, fun key => ⟨?_, hcache key⟩⟩
  unfold Verdict at hverdict
  rcases houtcome : last'.outcome with failure | rendered | pending
  · rw [houtcome] at hverdict
    simp [show step.result = .error failure from hverdict]
  · rw [houtcome] at hverdict
    obtain ⟨output, hresult, -⟩ := hverdict
    simp [hresult]
  · rw [houtcome] at hverdict
    dsimp only at hverdict
    split at hverdict
    · next hspent =>
      rw [hverdict]
      constructor
      · intro heq
        obtain rfl : pending.key = key := by simpa using heq
        exact Or.inr ⟨pending, rfl, rfl, (hremembers pending.key).1 hspent⟩
      · rintro (heq | ⟨pending', heq, rfl, -⟩)
        · cases heq
        · obtain rfl : pending = pending' := by simpa using heq
          rfl
    · next hfresh =>
      obtain ⟨s₁, failures, -, -, hresult⟩ := hverdict
      rw [hresult]
      constructor
      · intro heq
        simp at heq
      · rintro (heq | ⟨pending', heq, rfl, hknown⟩)
        · cases heq
        · obtain rfl : pending = pending' := by simpa using heq
          exact absurd ((hremembers pending.key).2 hknown) hfresh

/-- A renderer that needs one package at each call. -/
def insisting : Script.State where
  entries := [⟨[], fun file => .ok (.needsResolution ⟨⟨⟨"/app"⟩, "pkg"⟩, "~pkg", file⟩)⟩]

/-- Two runs of a job over a host that has no package. -/
def runTwice :
    Option (JobStep Memory.Log Script.State Output × JobStep Memory.Log Script.State Output) := do
  let host := Memory.host {}
  let tree := Memory.tree {}
  let first ← (Job.create ⟨"/app/main.styl"⟩ "" {}).run host Script.renderer tree ⟨2, 2⟩ {}
    insisting
  let second ← first.job.run host Script.renderer tree ⟨2, 2⟩ first.host first.renderer
  return (first, second)

/-- A step fails for a reference that was needed again, although nothing is cached for it. -/
def blamesUncached (step : JobStep σ ρ Output) : Bool :=
  match step.result with
  | .error (.consistency key) => !step.job.frontier.cache.contains key
  | _ => false

theorem exists_of_blamesUncached (h : blamesUncached step = true) :
    ∃ key, step.result = .error (.consistency key) ∧
      step.job.frontier.cache.contains key = false := by
  unfold blamesUncached at h
  split at h
  · next key hresult => exact ⟨key, hresult, by simpa using h⟩
  · cases h

theorem exists_runTwice :
    ∃ first second : JobStep Memory.Log Script.State Output,
      (Job.create ⟨"/app/main.styl"⟩ "" {}).run (Memory.host {}) Script.renderer (Memory.tree {})
        ⟨2, 2⟩ {} insisting = some first ∧
      first.job.run (Memory.host {}) Script.renderer (Memory.tree {}) ⟨2, 2⟩ first.host
        first.renderer = some second ∧ blamesUncached second = true := by
  have htwice : runTwice.map (fun steps => blamesUncached steps.2) = some true := by
    decide +kernel
  obtain ⟨⟨first, second⟩, hrun, hblames⟩ := Option.map_eq_some_iff.1 htwice
  simp only [runTwice, Option.bind_eq_bind, Option.bind_eq_some_iff, Option.pure_def,
    Option.some.injEq, Prod.mk.injEq] at hrun
  obtain ⟨first', hfirst, second', hsecond, rfl, rfl⟩ := hrun
  exact ⟨first', second', hfirst, hsecond, hblames⟩

/-- The second run fails because the first one was refused the package, not because it is cached. -/
theorem consistency_iff_runTwice :
    ∃ (refused : List Reference) (first second : JobStep Memory.Log Script.State Output)
      (last : Call Memory.Log Script.State) (key : Reference),
      Chronicle (Memory.host {}) refused first.job ∧
      first.job.run (Memory.host {}) Script.renderer (Memory.tree {}) ⟨2, 2⟩ first.host
        first.renderer = some second ∧
      second.result = .error (.consistency key) ∧
      (last.outcome = .error (.consistency key) ∨ refused.contains key = true) := by
  obtain ⟨first, second, hfirst, hsecond, hblames⟩ := exists_runTwice
  obtain ⟨key, hresult, huncached⟩ := exists_of_blamesUncached hblames
  have hcreate : Chronicle (Memory.host {}) [] _ := .create ⟨"/app/main.styl"⟩ "" {}
  obtain ⟨calls, hcalls, -⟩ :=
    (run_eq_some_iff (guessing_create ⟨"/app/main.styl"⟩ "" {})).1 hfirst
  have hchronicle := hcreate.run hfirst hcalls
  obtain ⟨calls', last, -, -, hiff⟩ := consistency_iff_cached_or_refused hchronicle _ _ _ _ _ _
    hsecond
  refine ⟨_, first, second, last, key, hchronicle, hsecond, hresult, ?_⟩
  rcases (hiff key).1.1 hresult with hout | ⟨-, -, -, hcached | hrefused⟩
  · exact Or.inl hout
  · rw [(hiff key).2 hresult, hcached] at huncached
    cases huncached
  · exact Or.inr hrefused

/-- It is not so that a run which fails for a reference that is needed again has it cached. -/
theorem uncached_runTwice :
    ¬ ∀ (refused : List Reference) (job : Job) (limits : Limits) (log : Memory.Log)
      (script : Script.State) (step : JobStep Memory.Log Script.State Output) (key : Reference),
      Chronicle (Memory.host {}) refused job →
      job.run (Memory.host {}) Script.renderer (Memory.tree {}) limits log script = some step →
      step.result = .error (.consistency key) →
      step.job.frontier.cache.contains key = true := by
  intro htrue
  obtain ⟨first, second, hfirst, hsecond, hblames⟩ := exists_runTwice
  obtain ⟨key, hresult, huncached⟩ := exists_of_blamesUncached hblames
  have hcreate : Chronicle (Memory.host {}) [] _ := .create ⟨"/app/main.styl"⟩ "" {}
  obtain ⟨calls, hcalls, -⟩ :=
    (run_eq_some_iff (guessing_create ⟨"/app/main.styl"⟩ "" {})).1 hfirst
  have hcached := htrue _ _ _ _ _ _ key (hcreate.run hfirst hcalls) hsecond hresult
  rw [huncached] at hcached
  cases hcached

end StyleWeave.Job
