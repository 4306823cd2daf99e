import StyleWeave.Proofs.Job.Progress

/-!
# How a run ends

The last render call of a run settles how the run ends. If it rendered the document, that is the
result; if it failed, its failure is. If it reported a missing reference, the run fails as well: the
reference was resolved or needed before, or the host has refused it, and then the failure names what
was to be imported and tells what the host said. No other failure of the host gets out of a run,
because between two runs only speculative references are queued, and at a render call none is.
-/

namespace StyleWeave.Job

variable {σ ρ : Type} {host : Host σ} {renderer : Renderer ρ} {tree : SourceTree} {layers : Nat}
  {job : Job} {s : σ} {r : ρ} {calls : List (Call σ ρ)} {step : JobStep σ ρ Output}

/-- What the last call of a run makes of its result. If the call needed a reference that may be
waited for, the host has read some documents and then refused all candidates of the reference, and
was asked nothing since. -/
def Verdict (host : Host σ) (last : Call σ ρ) (step : JobStep σ ρ Output) : Prop :=
  match last.outcome with
  | .ok (.rendered rendered) => ∃ output, step.result = .ok output ∧ output.rendered = rendered
  | .error failure => step.result = .error failure
  | .ok (.needsResolution pending) =>
    if last.job.Spent pending.key then step.result = .error (.consistency pending.key)
    else ∃ s failures, host.Reads last.host s ∧
      host.Refuses pending.key.context
        (last.job.frontier.options.dialect.candidates pending.key.request) s failures step.host ∧
      step.result = .error (.unresolvedImport pending.importer pending.name pending.key
        ("; ".intercalate (failures.map Frontier.reason)))

/-- The loop of a run ends as its last call says, and a job that has a result is done. -/
theorem Converges.verdict (h : Converges host renderer tree layers job s r calls step)
    (hq : job.frontier.queries = []) :
    ∃ last, calls.getLast? = some last ∧ Verdict host last step ∧
      ∀ output, step.result = .ok output → step.job.stage = .done := by
  induction h with
  | failed call =>
    refine ⟨_, rfl, rfl, fun output ho => ?_⟩
    simp at ho
  | rendered call => exact ⟨_, rfl, ⟨_, rfl, rfl⟩, fun _ _ => rfl⟩
  | @missing job₀ job₁ _ s _ r _ pending _ call resolve =>
    obtain ⟨hq₁, hatt, -, hopt, hcache⟩ := attempt_spent call
    have hspent : Spent { job₁ with stage := .awaitingResolution } pending.key ↔
        job₀.Spent pending.key := by
      simp [Spent, hatt, hcache]
    refine ⟨⟨job₀, s, r, .ok (.needsResolution pending)⟩, rfl, ?_, fun output ho => by simp at ho⟩
    have ha := resolvePending_answer (by simpa [hq₁] using hq) resolve
    cases ha with
    | spent hs =>
      show if job₀.Spent pending.key then _ else _
      rw [if_pos (hspent.1 hs)]
    | refused fresh grown guessing reads refuses =>
      show if job₀.Spent pending.key then _ else _
      rw [if_neg (mt hspent.2 fresh)]
      exact ⟨_, _, reads, by simpa [hopt] using refuses, rfl⟩
  | retry call resolve others ih =>
    obtain ⟨hq₁, -⟩ := attempt_spent call
    have ha := resolvePending_answer (by simpa [hq₁] using hq) resolve
    cases ha with
    | resolved fresh grown idle cached =>
      obtain ⟨last, hlast, hrest⟩ := ih (Frontier.hasPending_eq_false.1 idle).2
      obtain ⟨outcome, rest, rfl⟩ := others.head
      exact ⟨last, by rwa [List.getLast?_cons_cons], hrest⟩

/-- A verdict is a result exactly if the last call has rendered the document. -/
theorem Verdict.ok_iff {last : Call σ ρ} (h : Verdict host last step) :
    (∃ output, step.result = .ok output) ↔ ∃ rendered, last.outcome = .ok (.rendered rendered) := by
  unfold Verdict at h
  rcases last with ⟨job, s, r, failure | rendered | pending⟩
  · have hr : step.result = .error failure := h
    simp [hr]
  · obtain ⟨output, ho, -⟩ := h
    simp [ho]
  · dsimp only at h
    split at h
    · simp [h]
    · obtain ⟨s, failures, -, -, hr⟩ := h
      simp [hr]

theorem Verdict.rendered {last : Call σ ρ} (h : Verdict host last step) {rendered : Rendered}
    (hr : last.outcome = .ok (.rendered rendered)) :
    step.result.map Output.rendered = .ok rendered := by
  unfold Verdict at h
  rw [hr] at h
  obtain ⟨output, ho, rfl⟩ := h
  rw [ho]
  rfl

theorem Verdict.failed {last : Call σ ρ} (h : Verdict host last step) {failure : Failure}
    (hr : last.outcome = .error failure) : step.result = .error failure := by
  unfold Verdict at h
  rwa [hr] at h

theorem result_settle (step : JobStep σ ρ Output) : (settle step).result = step.result := by
  unfold settle
  split <;> rfl

theorem stage_settle (h : ∀ output, step.result = .ok output → step.job.stage = .done) :
    (settle step).job.stage = match step.result with
      | .ok _ => .done
      | .error _ => .failed := by
  unfold settle
  rcases hr : step.result with failure | output
  · rfl
  · exact h output hr

theorem Verdict.settle {last : Call σ ρ} (h : Verdict host last step) :
    Verdict host last (Job.settle step) := by
  obtain ⟨result, job, s, r⟩ := step
  cases result <;> exact h

/-- A run ends as its last call says. -/
theorem Runs.verdict (h : Runs host renderer tree layers job s r calls step)
    (hg : job.frontier.Guessing) :
    ∃ last, calls.getLast? = some last ∧ Verdict host last step ∧
      step.job.stage = match step.result with
        | .ok _ => .done
        | .error _ => .failed := by
  obtain ⟨job₁, s₁, step₁, hdrain, hconv, rfl⟩ := h
  obtain ⟨-, hidle, -, -⟩ := drain_enqueueEntry hg hdrain
  obtain ⟨last, hlast, hverdict, hdone⟩ :=
    hconv.verdict (Frontier.hasPending_eq_false.1 hidle).2
  refine ⟨last, hlast, hverdict.settle, ?_⟩
  rw [stage_settle hdone, result_settle]

/-- However often a job is run, its last render call settles how each run ends, and the drain ahead
of the first call never fails. -/
theorem run_verdict {n : Nat} {reported : List Reference} (history : History host n reported job) :
    (∀ (layers : Nat) (s s' : σ) (result : Except Failure Unit) (job' : Job),
      job.enqueueEntry.drain host layers s = some (result, job', s') → result = .ok ()) ∧
    ∀ {ρ : Type} (renderer : Renderer ρ) (tree : SourceTree) (limits : Limits) (s : σ) (r : ρ)
      (step : JobStep σ ρ Output), job.run host renderer tree limits s r = some step →
      ∃ calls last, Runs host renderer tree limits.layers job s r calls step ∧
        calls.getLast? = some last ∧ Verdict host last step ∧
        ((∃ output, step.result = .ok output) ↔
          ∃ rendered, last.outcome = .ok (.rendered rendered)) ∧
        step.job.stage = match step.result with
          | .ok _ => .done
          | .error _ => .failed := by
  have hg := history.steady.guessing
  constructor
  · intro layers s s' result job' hdrain
    exact (drain_enqueueEntry hg hdrain).1
  · intro ρ renderer tree limits s r step hrun
    obtain ⟨calls, hcalls, -⟩ := (run_eq_some_iff hg).1 hrun
    obtain ⟨last, hlast, hverdict, hstage⟩ := hcalls.verdict hg
    exact ⟨calls, last, hcalls, hlast, hverdict, hverdict.ok_iff, hstage⟩

/-- A run that fails because the host has no package. -/
theorem run_verdict_of_noPackage :
    ∃ step, ∃ calls : List (Call Memory.Log Script.State), ∃ last,
      (Job.create ⟨"/app/main.styl"⟩ "" {}).run (Memory.host {}) Script.renderer (Memory.tree {})
        ⟨2, 2⟩ {} needingPackage = some step ∧
      calls.getLast? = some last ∧ Verdict (Memory.host {}) last step ∧
      step.job.stage = .failed := by
  have hrun : ((Job.create ⟨"/app/main.styl"⟩ "" {}).run (Memory.host {}) Script.renderer
      (Memory.tree {}) ⟨2, 2⟩ {} needingPackage).map (fun step => step.job.stage) =
        some .failed := by
    decide +kernel
  obtain ⟨step, ran, hstage⟩ := Option.map_eq_some_iff.1 hrun
  have hcreate : History (Memory.host {}) 0 [] _ := .create ⟨"/app/main.styl"⟩ "" {}
  obtain ⟨calls, last, -, hlast, hverdict, -⟩ := (run_verdict hcreate).2 _ _ _ _ _ _ ran
  exact ⟨step, calls, last, ran, hlast, hverdict, hstage⟩

end StyleWeave.Job
