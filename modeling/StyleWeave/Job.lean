import StyleWeave.Frontier
import StyleWeave.Render.Lookup

/-!
# Compile jobs

A job renders one document. Before the first render it scans the document and those it imports, so
that most references are resolved by then. A render that needs a reference which is not resolved
ends with it; the job resolves that reference, with whatever else the scans turn up, and renders
again from the start.

A reference may be needed once. When it is needed again, or was resolved before it was needed, the
renderer does not use what it is given, and the job fails instead of trying for ever.

Neither hosts nor renderers need to come to an end. So a run is given `Limits`, and answers nothing
if they do not suffice.
-/

namespace StyleWeave

/-- How far a run may go. -/
structure Limits where
  /-- The layers of each drain. -/
  layers : Nat
  renders : Nat
  deriving Repr, Inhabited

/-- What a job is doing. -/
inductive Stage where
  | created
  /-- It looks ahead at the documents imported. -/
  | prefetching
  | rendering
  /-- A reference is being resolved that a render needs. -/
  | awaitingResolution
  | done
  | failed
  deriving DecidableEq, Repr, Inhabited

/-- The result of a job. -/
structure Output where
  rendered : Rendered
  /-- The files that the result depends on, in order. -/
  dependencies : List Path
  attempts : Nat
  deriving Repr, Inhabited

/-- A job. -/
structure Job where
  file : Path
  source : String
  frontier : Frontier
  /-- The references that renders have needed. -/
  attempted : List Reference := []
  stage : Stage := .created
  attempts : Nat := 0
  deriving Repr, Inhabited

/-- The answer of an operation of a job, with the states of all that take part. -/
structure JobStep (σ ρ α : Type) where
  result : Except Failure α
  job : Job
  host : σ
  renderer : ρ

namespace Job

variable {σ ρ : Type}

/-- A job for a document. -/
def create (file : Path) (source : String) (options : Options) : Job where
  file
  source
  frontier := { options }

/-- Queue the document itself. -/
def enqueueEntry (job : Job) : Job :=
  { job with
    stage := .prefetching
    frontier := (job.frontier.enqueueVisit job.file (some job.source)).addDependency job.file }

/-- Drain the frontier of a job. -/
def drain (host : Host σ) (layers : Nat) (job : Job) (s : σ) :
    Option (Except Failure Unit × Job × σ) := do
  let (result, frontier, s) ← job.frontier.drain host layers s
  return (result, { job with frontier }, s)

/-- The failure of an import whose reference could not be resolved. A failure to resolve another
reference stays as it is. -/
def blame (pending : Pending) : Failure → Failure
  | .resolve key message =>
    if pending.key == key then .unresolvedImport pending.importer pending.name key message
    else .resolve key message
  | failure => failure

/-- Resolve the reference that a render needs. -/
def resolvePending (host : Host σ) (layers : Nat) (pending : Pending) (job : Job) (s : σ) :
    Option (Except Failure Unit × Job × σ) :=
  if job.frontier.cache.contains pending.key || job.attempted.contains pending.key then
    some (.error (.consistency pending.key), job, s)
  else do
    let job := { job with
      attempted := pending.key :: job.attempted
      frontier := job.frontier.enqueueQuery pending.key false }
    let (result, job, s) ← job.drain host layers s
    return (result.mapError (blame pending), job, s)

/-- Finish with a rendered document: tell the host what it depends on. -/
def finish (host : Host σ) (rendered : Rendered) (job : Job) (s : σ) : Output × Job × σ :=
  let dependencies := job.frontier.dependencies.paths
  (⟨rendered, dependencies, job.attempts⟩, { job with stage := .done },
    host.dependAll s dependencies)

/-- Render the document once. The files that were found count as dependencies, however the render
ends. -/
def attempt (renderer : Renderer ρ) (tree : SourceTree) (job : Job) (r : ρ) :
    Option (Except Failure Outcome × Job × ρ) := do
  let job := { job with stage := .rendering, attempts := job.attempts + 1 }
  let lookup : Lookup := ⟨tree, job.frontier.cache, job.frontier.options⟩
  let step ← renderer.render r job.file job.source job.frontier.options lookup.locator .empty
  let frontier := job.frontier.addDependencies step.found.paths
  return (step.outcome, { job with frontier }, step.state)

/-- Render, and resolve what a render needs, until one ends or fails. -/
def converge (host : Host σ) (renderer : Renderer ρ) (tree : SourceTree) (layers : Nat) :
    Nat → Job → σ → ρ → Option (JobStep σ ρ Output)
  | 0, _, _, _ => none
  | renders + 1, job, s, r => do
    let (outcome, job, r) ← job.attempt renderer tree r
    match outcome with
    | .error failure => return ⟨.error failure, job, s, r⟩
    | .ok (.rendered rendered) =>
      let (output, job, s) := job.finish host rendered s
      return ⟨.ok output, job, s, r⟩
    | .ok (.needsResolution pending) =>
      let job := { job with stage := .awaitingResolution }
      let (result, job, s) ← job.resolvePending host layers pending s
      match result with
      | .error failure => return ⟨.error failure, job, s, r⟩
      | .ok () => converge host renderer tree layers renders job s r

/-- Prefetch, then render until the document is done. -/
def compile (host : Host σ) (renderer : Renderer ρ) (tree : SourceTree) (limits : Limits)
    (job : Job) (s : σ) (r : ρ) : Option (JobStep σ ρ Output) := do
  let (result, job, s) ← job.enqueueEntry.drain host limits.layers s
  match result with
  | .error failure => return ⟨.error failure, job, s, r⟩
  | .ok () => job.converge host renderer tree limits.layers limits.renders s r

/-- A step after which a job that failed says so. -/
def settle (step : JobStep σ ρ Output) : JobStep σ ρ Output :=
  match step.result with
  | .ok _ => step
  | .error _ => { step with job := { step.job with stage := .failed } }

/-- Run a job. It may be run again, and keeps what it knows. -/
def run (host : Host σ) (renderer : Renderer ρ) (tree : SourceTree) (limits : Limits) (job : Job)
    (s : σ) (r : ρ) : Option (JobStep σ ρ Output) :=
  (job.compile host renderer tree limits s r).map settle

end Job

end StyleWeave
