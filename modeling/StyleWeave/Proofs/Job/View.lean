import StyleWeave.Proofs.Frontier.View
import StyleWeave.Proofs.Job.Rounds

/-!
# Jobs and renderers seen through a view

A renderer may keep more in its states than another one and do just as it does, as hosts may. Then
the one is the other seen through a view of its states (`Renderer.Shows`). A job cannot tell such
hosts and renderers apart: its run with the ones is its run with the others, seen through the views
(`Job.run_shows`).
-/

namespace StyleWeave

variable {σ τ ρ ρ' : Type}

/-- Seen through `look`, the renderer `fine` is `renderer` in all states that satisfy `I`, and its
states keep to that. -/
structure Renderer.Shows (I : ρ' → Prop) (look : ρ' → ρ) (fine : Renderer ρ')
    (renderer : Renderer ρ) : Prop where
  render : ∀ r file source options locator found, I r →
    renderer.render (look r) file source options locator found =
      (fine.render r file source options locator found).map fun step =>
        ⟨step.outcome, step.found, look step.state⟩
  keeps : ∀ r file source options locator found step, I r →
    fine.render r file source options locator found = some step → I step.state

theorem Renderer.shows_self (renderer : Renderer ρ) :
    Renderer.Shows (fun _ => True) id renderer renderer where
  render r file source options locator found _ := by
    cases hrender : renderer.render r file source options locator found <;> simp [hrender]
  keeps _ _ _ _ _ _ _ _ _ := trivial

/-! ## Jobs -/

/-- The answer of an operation of a job, with other states. -/
def JobStep.map {α : Type} (view : τ → σ) (look : ρ' → ρ) (step : JobStep τ ρ' α) :
    JobStep σ ρ α :=
  ⟨step.result, step.job, view step.host, look step.renderer⟩

namespace Job

variable {view : τ → σ} {fine : Host τ} {host : Host σ} {I : ρ' → Prop} {look : ρ' → ρ}
  {fine' : Renderer ρ'} {renderer : Renderer ρ}

section

variable (h : Host.Shows view fine host)

include h

theorem drain_shows (layers : Nat) (job : Job) (t : τ) :
    job.drain host layers (view t) =
      (job.drain fine layers t).map (Prod.map id (Prod.map id view)) := by
  unfold drain
  rw [Frontier.drain_shows h]
  cases job.frontier.drain fine layers t <;> rfl

theorem resolvePending_shows (layers : Nat) (pending : Pending) (job : Job) (t : τ) :
    job.resolvePending host layers pending (view t) =
      (job.resolvePending fine layers pending t).map (Prod.map id (Prod.map id view)) := by
  unfold resolvePending
  split
  · rfl
  · dsimp only
    rw [drain_shows h]
    cases drain fine layers { job with
      attempted := pending.key :: job.attempted
      frontier := job.frontier.enqueueQuery pending.key false } t <;> rfl

theorem finish_shows (rendered : Rendered) (job : Job) (t : τ) :
    job.finish host rendered (view t) =
      (job.finish fine rendered t).map id (Prod.map id view) := by
  unfold finish
  dsimp only
  rw [h.dependAll]
  rfl

end

theorem attempt_shows (h : Renderer.Shows I look fine' renderer) (tree : SourceTree) (job : Job)
    {r : ρ'} (hr : I r) :
    job.attempt renderer tree (look r) =
      (job.attempt fine' tree r).map (Prod.map id (Prod.map id look)) := by
  unfold attempt
  dsimp only
  rw [h.render _ _ _ _ _ _ hr]
  cases fine'.render r job.file job.source job.frontier.options _ .empty <;> rfl

theorem keeps_of_attempt (h : Renderer.Shows I look fine' renderer) {tree : SourceTree}
    {job job' : Job} {r r' : ρ'} {outcome : Except Failure Outcome} (hr : I r)
    (hattempt : job.attempt fine' tree r = some (outcome, job', r')) : I r' := by
  unfold attempt at hattempt
  obtain ⟨step, hrender, hanswer⟩ := Option.bind_eq_some_iff.1 hattempt
  obtain rfl : step.state = r' := congrArg (fun answer => answer.2.2) (Option.some.inj hanswer)
  exact h.keeps _ _ _ _ _ _ step hr hrender

theorem converge_shows (h : Host.Shows view fine host) (h' : Renderer.Shows I look fine' renderer)
    (tree : SourceTree) (layers renders : Nat) (job : Job) (t : τ) {r : ρ'} (hr : I r) :
    job.converge host renderer tree layers renders (view t) (look r) =
        (job.converge fine fine' tree layers renders t r).map (JobStep.map view look) ∧
      ∀ step, job.converge fine fine' tree layers renders t r = some step → I step.renderer := by
  induction renders generalizing job t r with
  | zero => exact ⟨rfl, fun step hstep => by cases hstep⟩
  | succ renders ih =>
    unfold converge
    rw [attempt_shows h' tree job hr]
    rcases hattempt : job.attempt fine' tree r with _ | ⟨outcome, job₁, r₁⟩
    · exact ⟨rfl, fun step hstep => by cases hstep⟩
    · have hr₁ : I r₁ := keeps_of_attempt h' hr hattempt
      rcases outcome with failure | rendered | pending
      · refine ⟨rfl, fun step hstep => ?_⟩
        obtain rfl := Option.some.inj hstep
        exact hr₁
      · simp only [Option.map_some, Option.bind_eq_bind, Option.bind_some, Prod.map_apply, id]
        rw [finish_shows h]
        refine ⟨rfl, fun step hstep => ?_⟩
        obtain rfl := Option.some.inj hstep
        exact hr₁
      · simp only [Option.map_some, Option.bind_eq_bind, Option.bind_some, Prod.map_apply, id]
        rw [resolvePending_shows h]
        rcases resolvePending fine layers pending { job₁ with stage := .awaitingResolution } t with
          _ | ⟨failure | done, job₂, t₂⟩
        · exact ⟨rfl, fun step hstep => by cases hstep⟩
        · refine ⟨rfl, fun step hstep => ?_⟩
          obtain rfl := Option.some.inj hstep
          exact hr₁
        · exact ih job₂ t₂ hr₁

theorem settle_map (step : JobStep τ ρ' Output) :
    settle (step.map view look) = (settle step).map view look := by
  obtain ⟨result, job, t, r⟩ := step
  cases result <;> rfl

theorem host_settle (step : JobStep τ ρ' Output) : (settle step).host = step.host := by
  obtain ⟨result, job, t, r⟩ := step
  cases result <;> rfl

theorem renderer_settle (step : JobStep τ ρ' Output) :
    (settle step).renderer = step.renderer := by
  obtain ⟨result, job, t, r⟩ := step
  cases result <;> rfl

/-- A run of a job with a host and a renderer is its run with others that show them, seen through
the views. -/
theorem run_shows (h : Host.Shows view fine host) (h' : Renderer.Shows I look fine' renderer)
    (tree : SourceTree) (limits : Limits) (job : Job) (t : τ) {r : ρ'} (hr : I r) :
    job.run host renderer tree limits (view t) (look r) =
        (job.run fine fine' tree limits t r).map (JobStep.map view look) ∧
      ∀ step, job.run fine fine' tree limits t r = some step → I step.renderer := by
  have hcompile : job.compile host renderer tree limits (view t) (look r) =
        (job.compile fine fine' tree limits t r).map (JobStep.map view look) ∧
      ∀ step, job.compile fine fine' tree limits t r = some step → I step.renderer := by
    unfold compile
    rw [drain_shows h]
    rcases job.enqueueEntry.drain fine limits.layers t with _ | ⟨failure | done, job₁, t₁⟩
    · exact ⟨rfl, fun step hstep => by cases hstep⟩
    · refine ⟨rfl, fun step hstep => ?_⟩
      obtain rfl := Option.some.inj hstep
      exact hr
    · exact converge_shows h h' tree limits.layers limits.renders job₁ t₁ hr
  unfold run
  rw [hcompile.1, Option.map_map, Option.map_map]
  refine ⟨congrArg (Option.map · _) (funext settle_map), fun step hstep => ?_⟩
  obtain ⟨step', hstep', rfl⟩ := Option.map_eq_some_iff.1 hstep
  rw [renderer_settle]
  exact hcompile.2 step' hstep'

end Job

/-! ## Calls -/

/-- A call of a renderer, with other states. -/
def Call.map (view : τ → σ) (look : ρ' → ρ) (call : Call τ ρ') : Call σ ρ :=
  ⟨call.job, view call.host, look call.renderer, call.outcome⟩

namespace Job

theorem exists_attempt (h : Renderer.Shows I look fine' renderer) {tree : SourceTree}
    {job job' : Job} {r : ρ'} {r' : ρ} {outcome : Except Failure Outcome} (hr : I r)
    (hattempt : job.attempt renderer tree (look r) = some (outcome, job', r')) :
    ∃ r₁, job.attempt fine' tree r = some (outcome, job', r₁) ∧ r' = look r₁ ∧ I r₁ := by
  rw [attempt_shows h tree job hr] at hattempt
  obtain ⟨⟨outcome₁, job₁, r₁⟩, hfine, hanswer⟩ := Option.map_eq_some_iff.1 hattempt
  obtain ⟨rfl, hrest⟩ := Prod.mk.inj hanswer
  obtain ⟨rfl, rfl⟩ := Prod.mk.inj hrest
  exact ⟨r₁, hfine, rfl, keeps_of_attempt h hr hfine⟩

theorem exists_resolvePending (h : Host.Shows view fine host) {layers : Nat} {pending : Pending}
    {job job' : Job} {t : τ} {s' : σ} {result : Except Failure Unit}
    (hresolve : job.resolvePending host layers pending (view t) = some (result, job', s')) :
    ∃ t₁, job.resolvePending fine layers pending t = some (result, job', t₁) ∧ s' = view t₁ := by
  rw [resolvePending_shows h] at hresolve
  obtain ⟨⟨result₁, job₁, t₁⟩, hfine, hanswer⟩ := Option.map_eq_some_iff.1 hresolve
  obtain ⟨rfl, hrest⟩ := Prod.mk.inj hanswer
  obtain ⟨rfl, rfl⟩ := Prod.mk.inj hrest
  exact ⟨t₁, hfine, rfl⟩

theorem Converges.lift (h : Host.Shows view fine host) (h' : Renderer.Shows I look fine' renderer)
    {tree : SourceTree} {layers : Nat} {job : Job} {s : σ} {t : τ} {r : ρ} {r' : ρ'}
    {calls : List (Call σ ρ)} {step : JobStep σ ρ Output}
    (hc : Converges host renderer tree layers job s r calls step) (hs : s = view t)
    (hr : r = look r') (hi : I r') :
    ∃ calls' step', Converges fine fine' tree layers job t r' calls' step' ∧
      calls = calls'.map (Call.map view look) ∧ step = step'.map view look := by
  induction hc generalizing t r' with
  | failed call =>
    subst hs hr
    obtain ⟨r₁, call', rfl, -⟩ := exists_attempt h' hi call
    exact ⟨_, _, .failed call', rfl, rfl⟩
  | @rendered _ job₁ _ _ _ rendered call =>
    subst hs hr
    obtain ⟨r₁, call', rfl, -⟩ := exists_attempt h' hi call
    refine ⟨_, _, .rendered call', rfl, ?_⟩
    rw [finish_shows h]
    rfl
  | missing call resolve =>
    subst hs hr
    obtain ⟨r₁, call', rfl, -⟩ := exists_attempt h' hi call
    obtain ⟨t₁, resolve', rfl⟩ := exists_resolvePending h resolve
    exact ⟨_, _, .missing call' resolve', rfl, rfl⟩
  | retry call resolve others ih =>
    subst hs hr
    obtain ⟨r₁, call', rfl, hi₁⟩ := exists_attempt h' hi call
    obtain ⟨t₁, resolve', rfl⟩ := exists_resolvePending h resolve
    obtain ⟨calls', step', others', rfl, rfl⟩ := ih rfl rfl hi₁
    exact ⟨_, _, .retry call' resolve' others', rfl, rfl⟩

/-- The calls of a run are those of the run with a host and a renderer that show the others, seen
through the views. -/
theorem Runs.lift (h : Host.Shows view fine host) (h' : Renderer.Shows I look fine' renderer)
    {tree : SourceTree} {layers : Nat} {job : Job} {t : τ} {r : ρ'} {calls : List (Call σ ρ)}
    {step : JobStep σ ρ Output}
    (hruns : Runs host renderer tree layers job (view t) (look r) calls step) (hi : I r) :
    ∃ calls' step', Runs fine fine' tree layers job t r calls' step' ∧
      calls = calls'.map (Call.map view look) ∧ step = step'.map view look := by
  obtain ⟨job₁, s₁, step₁, hdrain, hcalls, rfl⟩ := hruns
  rw [drain_shows h] at hdrain
  obtain ⟨⟨result, job₂, t₁⟩, hfine, hanswer⟩ := Option.map_eq_some_iff.1 hdrain
  obtain ⟨rfl, hrest⟩ := Prod.mk.inj hanswer
  obtain ⟨rfl, rfl⟩ := Prod.mk.inj hrest
  obtain ⟨calls', step', hcalls', rfl, rfl⟩ := hcalls.lift h h' rfl rfl hi
  exact ⟨calls', settle step', ⟨job₂, t₁, step', hfine, hcalls', rfl⟩, rfl, settle_map step'⟩

end Job

end StyleWeave
