import Mathlib.Data.List.Chain
import StyleWeave.Job
import StyleWeave.Proofs.Frontier.Drain

/-!
# The render calls of a run

`converge` says how a run goes on from one render call to the next, but not which calls it makes.
`Converges` is the same loop as a relation, with the list of the calls: each with the job at the
time, the states of the host and the renderer, and how the call ended. `converge_eq_some_iff` and
`run_eq_some_iff` tie the relation to the functions, so a statement about all calls of a run is one
about `Converges`.

What is queued decides how a drain ends. Between runs only speculative references are queued, and at
a render call none is, so the only reference that can make a drain fail is the one that the call
before it reported.
-/

namespace StyleWeave

variable {σ ρ : Type}

/-- A call of a renderer by a job. -/
structure Call (σ ρ : Type) where
  job : Job
  host : σ
  renderer : ρ
  outcome : Except Failure Outcome

namespace Call

/-- The reference that a call reported as missing. -/
def reported? (call : Call σ ρ) : Option Reference :=
  match call.outcome with
  | .ok (.needsResolution pending) => some pending.key
  | _ => none

theorem reported?_eq_some_iff {call : Call σ ρ} {key : Reference} :
    call.reported? = some key ↔
      ∃ pending, call.outcome = .ok (.needsResolution pending) ∧ pending.key = key := by
  obtain ⟨job, s, r, failure | rendered | pending⟩ := call <;> simp [reported?]

end Call

namespace Job

/-- What the renders of a job look imports up in. -/
def lookup (tree : SourceTree) (job : Job) : Lookup :=
  ⟨tree, job.frontier.cache, job.frontier.options⟩

/-- The import that an attempt reports as missing. -/
def missing? : Except Failure Outcome → Option Pending
  | .ok (.needsResolution pending) => some pending
  | _ => none

theorem eq_of_missing? {outcome : Except Failure Outcome} {pending : Pending}
    (h : missing? outcome = some pending) : outcome = .ok (.needsResolution pending) := by
  unfold missing? at h
  split at h
  · rw [Option.some.inj h]
  · cases h

section

variable {host : Host σ} {renderer : Renderer ρ} {tree : SourceTree} {layers : Nat}
  {job job' : Job} {s s' : σ} {r r' : ρ}

/-! ## One call -/

/-- An attempt is one call of the renderer; all that it changes is the number of attempts and what
the frontier knows of files. -/
theorem attempt_eq_some_iff {outcome : Except Failure Outcome} :
    job.attempt renderer tree r = some (outcome, job', r') ↔
      ∃ found, renderer.render r job.file job.source job.frontier.options (job.lookup tree).locator
          .empty = some ⟨outcome, found, r'⟩ ∧
        job' = { job with
          stage := .rendering
          attempts := job.attempts + 1
          frontier := job.frontier.addDependencies found.paths } := by
  simp only [attempt, lookup, Option.bind_eq_bind, Option.bind_eq_some_iff, Option.pure_def,
    Option.some.injEq, Prod.mk.injEq]
  constructor
  · rintro ⟨⟨outcome', found, r''⟩, hr, rfl, rfl, rfl⟩
    exact ⟨found, hr, rfl⟩
  · rintro ⟨found, hr, rfl⟩
    exact ⟨_, hr, rfl, rfl, rfl⟩

/-- A reference that cannot be waited for: it is cached, or renders needed it before. -/
def Spent (job : Job) (key : Reference) : Prop :=
  job.frontier.cache.contains key = true ∨ job.attempted.contains key = true

instance (job : Job) (key : Reference) : Decidable (job.Spent key) :=
  inferInstanceAs (Decidable (_ ∨ _))

/-- What resolving the reference that a render needs can give, if nothing is queued. -/
inductive Answer (host : Host σ) (pending : Pending) (job : Job) (s : σ) :
    Except Failure Unit → Job → σ → Prop where
  | spent (spent : job.Spent pending.key) :
      Answer host pending job s (.error (.consistency pending.key)) job s
  | resolved {frontier : Frontier} {s' : σ} (fresh : ¬ job.Spent pending.key)
      (grown : Frontier.Extends host job.frontier frontier)
      (idle : frontier.hasPending = false)
      (cached : frontier.cache.contains pending.key = true) :
      Answer host pending job s (.ok ())
        { job with attempted := pending.key :: job.attempted, frontier } s'
  | refused {frontier : Frontier} {failures : List Failure} {s₁ s₂ : σ}
      (fresh : ¬ job.Spent pending.key) (grown : Frontier.Extends host job.frontier frontier)
      (guessing : frontier.Guessing) (reads : host.Reads s s₁)
      (refuses : host.Refuses pending.key.context
        (job.frontier.options.dialect.candidates pending.key.request) s₁ failures s₂) :
      Answer host pending job s
        (.error (.unresolvedImport pending.importer pending.name pending.key
          ("; ".intercalate (failures.map Frontier.reason))))
        { job with attempted := pending.key :: job.attempted, frontier } s₂

theorem blame_unresolved (pending : Pending) (failures : List Failure) :
    blame pending (Frontier.unresolved pending.key failures) =
      .unresolvedImport pending.importer pending.name pending.key
        ("; ".intercalate (failures.map Frontier.reason)) := by
  simp [blame, Frontier.unresolved]

/-- If nothing is queued, a reference that may be waited for is resolved by one drain. -/
theorem resolvePending_of_not_spent {pending : Pending} (hq : job.frontier.queries = [])
    (hs : ¬ job.Spent pending.key) :
    job.resolvePending host layers pending s =
      (Frontier.drain host layers { job.frontier with queries := [⟨pending.key, false⟩] } s).map
        fun answer => (answer.1.mapError (blame pending),
          { job with attempted := pending.key :: job.attempted, frontier := answer.2.1 },
          answer.2.2) := by
  have hc : job.frontier.cache.contains pending.key = false := by
    simpa using fun hc => hs (Or.inl hc)
  have hw : job.frontier.wantsQuery pending.key = true := by simp [Frontier.wantsQuery, hc, hq]
  unfold resolvePending
  rw [if_neg (by simpa [Spent] using hs), Frontier.enqueueQuery_of_wanted hw, hq]
  unfold drain
  dsimp only [List.nil_append]
  cases Frontier.drain host layers { job.frontier with queries := [⟨pending.key, false⟩] } s <;> rfl

theorem resolvePending_answer {pending : Pending} {result : Except Failure Unit}
    (hq : job.frontier.queries = [])
    (h : job.resolvePending host layers pending s = some (result, job', s')) :
    Answer host pending job s result job' s' := by
  by_cases hs : job.Spent pending.key
  · unfold resolvePending at h
    rw [if_pos (by simpa [Spent] using hs)] at h
    obtain ⟨rfl, rfl, rfl⟩ := by simpa using h
    exact .spent hs
  · rw [resolvePending_of_not_spent hq hs] at h
    obtain ⟨⟨result', frontier, s₁⟩, hd, heq⟩ := Option.map_eq_some_iff.1 h
    obtain ⟨rfl, rfl, rfl⟩ := by simpa using heq
    obtain ⟨he, hg, ⟨rfl, hidle, hcached⟩ | ⟨failures, s₁, rfl, reads, refuses⟩⟩ :=
      Frontier.drain_of_required rfl hd
    · exact .resolved hs ⟨he.options, he.cache⟩ hidle hcached
    · have hr : Answer host pending job s _ _ _ :=
        .refused hs ⟨he.options, he.cache⟩ hg reads refuses
      show Answer host pending job s
        (.error (blame pending (Frontier.unresolved pending.key failures))) _ _
      rw [blame_unresolved]
      exact hr

/-! ## All calls of a run -/

/-- The loop of a run as a relation: from `job` on, the renderer is called as `calls` say, and the
run ends with `step`. -/
inductive Converges (host : Host σ) (renderer : Renderer ρ) (tree : SourceTree) (layers : Nat) :
    Job → σ → ρ → List (Call σ ρ) → JobStep σ ρ Output → Prop where
  /-- The renderer fails. -/
  | failed {job job' : Job} {s : σ} {r r' : ρ} {failure : Failure}
      (call : job.attempt renderer tree r = some (.error failure, job', r')) :
      Converges host renderer tree layers job s r [⟨job, s, r, .error failure⟩]
        ⟨.error failure, job', s, r'⟩
  /-- The document is rendered. -/
  | rendered {job job' : Job} {s : σ} {r r' : ρ} {rendered : Rendered}
      (call : job.attempt renderer tree r = some (.ok (.rendered rendered), job', r')) :
      Converges host renderer tree layers job s r [⟨job, s, r, .ok (.rendered rendered)⟩]
        ⟨.ok (job'.finish host rendered s).1, (job'.finish host rendered s).2.1,
          (job'.finish host rendered s).2.2, r'⟩
  /-- A reference is missing, and cannot be resolved. -/
  | missing {job job' job'' : Job} {s s' : σ} {r r' : ρ} {pending : Pending} {failure : Failure}
      (call : job.attempt renderer tree r = some (.ok (.needsResolution pending), job', r'))
      (resolve : resolvePending host layers pending { job' with stage := .awaitingResolution } s =
        some (.error failure, job'', s')) :
      Converges host renderer tree layers job s r [⟨job, s, r, .ok (.needsResolution pending)⟩]
        ⟨.error failure, job'', s', r'⟩
  /-- A reference is missing and gets resolved, and the renderer is called again. -/
  | retry {job job' job'' : Job} {s s' : σ} {r r' : ρ} {pending : Pending} {calls : List (Call σ ρ)}
      {step : JobStep σ ρ Output}
      (call : job.attempt renderer tree r = some (.ok (.needsResolution pending), job', r'))
      (resolve : resolvePending host layers pending { job' with stage := .awaitingResolution } s =
        some (.ok (), job'', s'))
      (others : Converges host renderer tree layers job'' s' r' calls step) :
      Converges host renderer tree layers job s r
        (⟨job, s, r, .ok (.needsResolution pending)⟩ :: calls) step

theorem converge_eq_some_iff {renders : Nat} {step : JobStep σ ρ Output} :
    converge host renderer tree layers renders job s r = some step ↔
      ∃ calls, Converges host renderer tree layers job s r calls step ∧ calls.length ≤ renders := by
  constructor
  · intro h
    induction renders generalizing job s r with
    | zero => simp [converge] at h
    | succ renders ih =>
      simp only [converge, Option.bind_eq_bind, Option.bind_eq_some_iff] at h
      obtain ⟨⟨outcome, job₁, r₁⟩, hcall, h⟩ := h
      rcases outcome with failure | rendered | pending
      · obtain rfl := by simpa using h
        exact ⟨_, .failed hcall, by simp⟩
      · obtain rfl := by simpa using h
        exact ⟨_, .rendered hcall, by simp⟩
      · simp only [Option.bind_eq_some_iff] at h
        obtain ⟨⟨result, job₂, s₂⟩, hresolve, h⟩ := h
        rcases result with failure | ⟨⟩
        · obtain rfl := by simpa using h
          exact ⟨_, .missing hcall hresolve, by simp⟩
        · obtain ⟨calls, hcalls, hlen⟩ := ih h
          exact ⟨_, .retry hcall hresolve hcalls, by simpa using hlen⟩
  · rintro ⟨calls, h, hlen⟩
    induction h generalizing renders with
    | failed call | rendered call =>
      obtain ⟨n, rfl⟩ := Nat.exists_eq_add_of_le' (by simpa using hlen : 1 ≤ renders)
      simp [converge, call]
    | missing call resolve =>
      obtain ⟨n, rfl⟩ := Nat.exists_eq_add_of_le' (by simpa using hlen : 1 ≤ renders)
      simp [converge, call, resolve]
    | retry call resolve _ ih =>
      obtain ⟨n, rfl⟩ :=
        Nat.exists_eq_add_of_le' ((by simp at hlen; omega) : 1 ≤ renders)
      simp only [converge, call, resolve, Option.bind_eq_bind, Option.bind_some]
      exact ih (by simpa using hlen)

theorem Converges.head {calls : List (Call σ ρ)} {step : JobStep σ ρ Output}
    (h : Converges host renderer tree layers job s r calls step) :
    ∃ outcome rest, calls = ⟨job, s, r, outcome⟩ :: rest := by
  cases h <;> exact ⟨_, _, rfl⟩

/-- Two calls follow each other: the first one reports a missing reference, which is resolved before
the second one is made. Nothing waits when a call is made. -/
structure Follows (host : Host σ) (renderer : Renderer ρ) (tree : SourceTree) (layers : Nat)
    (a b : Call σ ρ) : Prop where
  idle : a.job.frontier.hasPending = false
  step : ∃ pending job, a.outcome = .ok (.needsResolution pending) ∧
    a.job.attempt renderer tree a.renderer = some (a.outcome, job, b.renderer) ∧
    resolvePending host layers pending { job with stage := .awaitingResolution } a.host =
      some (.ok (), b.job, b.host)

/-- `job'` is `job` once a reference is resolved that was neither cached nor attempted before. -/
structure Retried (host : Host σ) (pending : Pending) (job job' : Job) : Prop where
  file : job'.file = job.file
  source : job'.source = job.source
  fresh : ¬ job.Spent pending.key
  attempted : job'.attempted = pending.key :: job.attempted
  grown : Frontier.Extends host job.frontier job'.frontier
  cached : job'.frontier.cache.contains pending.key = true
  waits : job'.frontier.hasPending = false

theorem Follows.retried {a b : Call σ ρ} (h : Follows host renderer tree layers a b) :
    ∃ pending, a.outcome = .ok (.needsResolution pending) ∧ Retried host pending a.job b.job := by
  obtain ⟨hq, pending, job, hout, hcall, hresolve⟩ := h
  obtain ⟨found, -, rfl⟩ := attempt_eq_some_iff.1 hcall
  have ha := resolvePending_answer (by simpa using (Frontier.hasPending_eq_false.1 hq).2) hresolve
  generalize b.job = job' at ha ⊢
  cases ha with
  | resolved fresh grown idle cached =>
    refine ⟨pending, hout, rfl, rfl, by simpa [Spent] using fresh, rfl, ⟨?_, ?_⟩, cached, idle⟩
    · simpa using grown.options
    · simpa using grown.cache

/-- Between two calls that follow each other, one drain resolves the reference that the first one
reported, once the files that it found are queued. -/
theorem Follows.drained {a b : Call σ ρ} (h : Follows host renderer tree layers a b) :
    ∃ pending found, a.outcome = .ok (.needsResolution pending) ∧
      renderer.render a.renderer a.job.file a.job.source a.job.frontier.options
        (a.job.lookup tree).locator .empty = some ⟨a.outcome, found, b.renderer⟩ ∧
      a.job.frontier.cache.find? pending.key = none ∧
      Frontier.drain host layers { a.job.frontier.addDependencies found.paths with
        queries := [⟨pending.key, false⟩] } a.host = some (.ok (), b.job.frontier, b.host) := by
  obtain ⟨pending', hout', hretried⟩ := h.retried
  obtain ⟨hidle, pending, job, hout, hcall, hresolve⟩ := h
  obtain rfl : pending' = pending := by simpa [hout] using hout'.symm
  obtain ⟨found, hrender, rfl⟩ := attempt_eq_some_iff.1 hcall
  obtain ⟨-, hqueries⟩ := Frontier.hasPending_eq_false.1 hidle
  rw [resolvePending_of_not_spent (by simpa using hqueries)
    (by simpa [Spent] using hretried.fresh)] at hresolve
  obtain ⟨⟨result, frontier, s₁⟩, hd, hanswer⟩ := Option.map_eq_some_iff.1 hresolve
  obtain ⟨hresult, hjob, rfl⟩ := by simpa using hanswer
  obtain rfl : result = .ok () := by
    rcases result with failure | ⟨⟩
    · cases hresult
    · rfl
  have hfresh : a.job.frontier.cache.find? pending'.key = none :=
    Cache.contains_eq_false.1 (by simpa using fun hc => hretried.fresh (Or.inl hc))
  refine ⟨pending', found, hout, hrender, hfresh, ?_⟩
  rw [← hjob]
  exact hd

/-- Without scanning ahead, the second of two calls that follow each other finds cached what the
host granted for the reference that the first one reported, and what was cached before. -/
theorem Follows.learns {a b : Call σ ρ} (h : Follows host renderer tree layers a b)
    (hoff : a.job.frontier.options.prefetch = false) :
    ∃ pending request target, a.outcome = .ok (.needsResolution pending) ∧
      host.Grants pending.key.context
        (a.job.frontier.options.dialect.candidates pending.key.request) a.host request target
        b.host ∧
      b.job.frontier.cache = a.job.frontier.cache.learn pending.key request target := by
  obtain ⟨pending, found, hout, -, hfresh, hd⟩ := h.drained
  obtain ⟨hvisits, -⟩ := Frontier.hasPending_eq_false.1 h.idle
  have hstill : (a.job.frontier.addDependencies found.paths).Still :=
    Frontier.Still.addDependencies ⟨hoff, hvisits⟩ _
  obtain ⟨request, target, grants, hcache⟩ :=
    Frontier.Still.drain (f := { a.job.frontier.addDependencies found.paths with
      queries := [⟨pending.key, false⟩] }) hstill rfl (by simpa using hfresh) hd
  refine ⟨pending, request, target, hout, by simpa using grants, ?_⟩
  simpa using hcache

theorem Converges.isChain {calls : List (Call σ ρ)} {step : JobStep σ ρ Output}
    (h : Converges host renderer tree layers job s r calls step)
    (hq : job.frontier.hasPending = false) : calls.IsChain (Follows host renderer tree layers) := by
  induction h with
  | failed | rendered | missing => exact .singleton _
  | @retry job₀ job₁ job₂ s₀ s₂ r₀ r₂ pending _ _ call resolve others ih =>
    obtain ⟨outcome, rest, rfl⟩ := others.head
    have hfollows : Follows host renderer tree layers
        ⟨job₀, s₀, r₀, .ok (.needsResolution pending)⟩ ⟨job₂, s₂, r₂, outcome⟩ :=
      ⟨hq, pending, job₁, rfl, call, resolve⟩
    obtain ⟨_, -, hretried⟩ := hfollows.retried
    exact List.isChain_cons_cons.2 ⟨hfollows, ih hretried.waits⟩

/-- What holds of the first call of some that follow each other, and is handed on from call to call,
holds of all of them. -/
theorem forall_of_follows {P : Call σ ρ → Prop} {call : Call σ ρ} {rest : List (Call σ ρ)}
    (h : (call :: rest).IsChain (Follows host renderer tree layers)) (hfirst : P call)
    (hstep : ∀ a b, Follows host renderer tree layers a b → P a → P b) :
    ∀ c ∈ call :: rest, P c := by
  induction rest generalizing call with
  | nil => simpa using hfirst
  | cons next rest ih =>
    obtain ⟨hfollows, hrest⟩ := List.isChain_cons_cons.1 h
    intro c hc
    rcases List.mem_cons.1 hc with rfl | hc
    · exact hfirst
    · exact ih hrest (hstep _ _ hfollows hfirst) c hc

theorem exists_follows {calls : List (Call σ ρ)}
    (h : calls.IsChain (Follows host renderer tree layers)) {a : Call σ ρ}
    (ha : a ∈ calls.dropLast) : ∃ b ∈ calls, Follows host renderer tree layers a b := by
  induction h with
  | nil | singleton => simp at ha
  | @cons_cons first next rest hfollows _ ih =>
    rcases List.mem_cons.1 ha with rfl | ha
    · exact ⟨next, by simp, hfollows⟩
    · obtain ⟨b, hb, hab⟩ := ih ha
      exact ⟨b, List.mem_cons_of_mem _ hb, hab⟩

/-- What holds of the first call and not of the last one ends to hold from one call to the next. -/
theorem exists_turn {P : Call σ ρ → Prop} {first last : Call σ ρ} {rest : List (Call σ ρ)}
    (h : (first :: rest).IsChain (Follows host renderer tree layers)) (hfirst : P first)
    (hlast : (first :: rest).getLast? = some last) (hnot : ¬ P last) :
    ∃ a ∈ (first :: rest).dropLast, ∃ b, Follows host renderer tree layers a b ∧ P a ∧ ¬ P b := by
  induction rest generalizing first with
  | nil =>
    obtain rfl : first = last := by simpa using hlast
    exact absurd hfirst hnot
  | cons next rest ih =>
    obtain ⟨hfollows, hrest⟩ := List.isChain_cons_cons.1 h
    by_cases hnext : P next
    · obtain ⟨a, ha, b, hab⟩ := ih hrest hnext (by rwa [List.getLast?_cons_cons] at hlast)
      exact ⟨a, List.mem_cons_of_mem _ ha, b, hab⟩
    · exact ⟨first, by simp, next, hfollows, hfirst, hnext⟩

theorem Converges.attempted {calls : List (Call σ ρ)} {step : JobStep σ ρ Output}
    (h : Converges host renderer tree layers job s r calls step) :
    ∀ call ∈ calls, ∃ job' r',
      call.job.attempt renderer tree call.renderer = some (call.outcome, job', r') := by
  induction h with
  | failed call | rendered call | missing call =>
    intro c hc
    obtain rfl := List.mem_singleton.1 hc
    exact ⟨_, _, call⟩
  | retry call _ _ ih =>
    intro c hc
    rcases List.mem_cons.1 hc with rfl | hc
    · exact ⟨_, _, call⟩
    · exact ih c hc

/-- The run of a job, with the calls that it makes. Its first drain succeeds. -/
def Runs (host : Host σ) (renderer : Renderer ρ) (tree : SourceTree) (layers : Nat) (job : Job)
    (s : σ) (r : ρ) (calls : List (Call σ ρ)) (step : JobStep σ ρ Output) : Prop :=
  ∃ job₁ s₁ step₁, job.enqueueEntry.drain host layers s = some (.ok (), job₁, s₁) ∧
    Converges host renderer tree layers job₁ s₁ r calls step₁ ∧ step = settle step₁

theorem drain_eq_some_iff {result : Except Failure Unit} :
    job.drain host layers s = some (result, job', s') ↔
      ∃ frontier, job.frontier.drain host layers s = some (result, frontier, s') ∧
        job' = { job with frontier } := by
  simp only [drain, Option.bind_eq_bind, Option.bind_eq_some_iff, Option.pure_def,
    Option.some.injEq, Prod.mk.injEq]
  constructor
  · rintro ⟨⟨result₁, frontier, s₁⟩, h, rfl, rfl, rfl⟩
    exact ⟨frontier, h, rfl⟩
  · rintro ⟨frontier, h, rfl⟩
    exact ⟨_, h, rfl, rfl, rfl⟩

@[simp] theorem enqueueEntry_queries (job : Job) :
    job.enqueueEntry.frontier.queries = job.frontier.queries := by
  simp [enqueueEntry]

@[simp] theorem enqueueEntry_cache (job : Job) :
    job.enqueueEntry.frontier.cache = job.frontier.cache := by
  simp [enqueueEntry]

@[simp] theorem enqueueEntry_options (job : Job) :
    job.enqueueEntry.frontier.options = job.frontier.options := by
  simp [enqueueEntry]

/-- If only speculative references are queued, the drain ahead of the first call never fails. -/
theorem drain_enqueueEntry {result : Except Failure Unit} (hg : job.frontier.Guessing)
    (h : job.enqueueEntry.drain host layers s = some (result, job', s')) :
    result = .ok () ∧ job'.frontier.hasPending = false ∧
      Frontier.Extends host job.frontier job'.frontier ∧
      job' = { job.enqueueEntry with frontier := job'.frontier } := by
  obtain ⟨frontier, hd, rfl⟩ := drain_eq_some_iff.1 h
  have hg' : job.enqueueEntry.frontier.Guessing := by
    simpa [Frontier.Guessing] using hg
  obtain ⟨hr, hidle, he⟩ := Frontier.drain_of_guesses hg' hd
  exact ⟨hr, hidle, ⟨by simpa using he.options, by simpa using he.cache⟩, rfl⟩

theorem guessing_create (file : Path) (source : String) (options : Options) :
    (create file source options).frontier.Guessing := by
  simp [create, Frontier.Guessing]

theorem Runs.isChain {calls : List (Call σ ρ)} {step : JobStep σ ρ Output}
    (h : Runs host renderer tree layers job s r calls step) (hg : job.frontier.Guessing) :
    calls.IsChain (Follows host renderer tree layers) := by
  obtain ⟨job₁, s₁, step₁, hdrain, hcalls, -⟩ := h
  obtain ⟨-, hidle, -, -⟩ := drain_enqueueEntry hg hdrain
  exact hcalls.isChain hidle

theorem Runs.exists_head {calls : List (Call σ ρ)} {step : JobStep σ ρ Output}
    (h : Runs host renderer tree layers job s r calls step) :
    ∃ first rest, calls = first :: rest := by
  obtain ⟨job₁, s₁, step₁, -, hcalls, -⟩ := h
  obtain ⟨outcome, rest, rfl⟩ := hcalls.head
  exact ⟨_, rest, rfl⟩

/-- Without scanning ahead, the first call of a first run finds nothing cached. -/
theorem Runs.head_cache {file : Path} {source : String} {options : Options}
    {calls : List (Call σ ρ)} {step : JobStep σ ρ Output}
    (h : Runs host renderer tree layers (create file source options) s r calls step)
    (hoff : options.prefetch = false) :
    ∃ first rest, calls = first :: rest ∧ first.job.frontier.cache = {} := by
  obtain ⟨job₁, s₁, step₁, hdrain, hcalls, -⟩ := h
  obtain ⟨outcome, rest, rfl⟩ := hcalls.head
  refine ⟨_, rest, rfl, ?_⟩
  obtain ⟨frontier, hd, rfl⟩ := drain_eq_some_iff.1 hdrain
  have hstill : (create file source options).frontier.Still := ⟨hoff, rfl⟩
  have hentry : (create file source options).enqueueEntry.frontier =
      (create file source options).frontier.addDependencies [file] := by
    show ((create file source options).frontier.enqueueVisit file (some source)).addDependency
      file = _
    rw [hstill.enqueueVisit]
    rfl
  have hidle : (create file source options).enqueueEntry.frontier.hasPending = false := by
    rw [Frontier.hasPending_eq_false, hentry]
    exact ⟨(hstill.addDependencies [file]).2, by simp [create]⟩
  rw [Frontier.drain_of_idle hidle] at hd
  obtain rfl : (create file source options).enqueueEntry.frontier = frontier :=
    congrArg (fun answer => answer.2.1) (Option.some.inj hd)
  rw [enqueueEntry_cache]
  rfl

theorem run_eq_some_iff (hg : job.frontier.Guessing) {limits : Limits}
    {step : JobStep σ ρ Output} :
    job.run host renderer tree limits s r = some step ↔
      ∃ calls, Runs host renderer tree limits.layers job s r calls step ∧
        calls.length ≤ limits.renders := by
  simp only [run, compile, Option.map_eq_some_iff, Option.bind_eq_bind, Option.bind_eq_some_iff]
  constructor
  · rintro ⟨step₁, ⟨⟨result, job₁, s₁⟩, hd, h⟩, rfl⟩
    obtain ⟨rfl, -⟩ := drain_enqueueEntry hg hd
    obtain ⟨calls, hcalls, hlen⟩ := converge_eq_some_iff.1 h
    exact ⟨calls, ⟨job₁, s₁, step₁, hd, hcalls, rfl⟩, hlen⟩
  · rintro ⟨calls, ⟨job₁, s₁, step₁, hd, hcalls, rfl⟩, hlen⟩
    exact ⟨step₁, ⟨_, hd, converge_eq_some_iff.2 ⟨calls, hcalls, hlen⟩⟩, rfl⟩

end

end Job

end StyleWeave
