import StyleWeave.Proofs.Frontier.Layers
import StyleWeave.Proofs.Job.Inlining
import StyleWeave.Proofs.Render.Depth

/-!
# What limits do

Limits only say how far a run may go. A run that ends within some limits ends alike within higher
ones, and with a renderer that may go deeper (`run_mono`). So it is the same run for all limits that
suffice, and the limits do not show in its end.
-/

namespace StyleWeave.Job

open Inline (ParseCache)

variable {σ : Type} {host : Host σ} {tree : SourceTree} {depth depth' layers layers' : Nat}
  {job job' : Job} {s s' : σ} {parsed parsed' : ParseCache}

theorem drain_mono {answer : Except Failure Unit × Job × σ} (hle : layers ≤ layers')
    (h : job.drain host layers s = some answer) : job.drain host layers' s = some answer := by
  obtain ⟨result, job', s'⟩ := answer
  obtain ⟨frontier, hdrain, rfl⟩ := drain_eq_some_iff.1 h
  exact drain_eq_some_iff.2 ⟨frontier, Frontier.drain_mono hle hdrain, rfl⟩

theorem resolvePending_mono {pending : Pending} {answer : Except Failure Unit × Job × σ}
    (hle : layers ≤ layers') (h : job.resolvePending host layers pending s = some answer) :
    job.resolvePending host layers' pending s = some answer := by
  unfold resolvePending at h ⊢
  split
  · next hspent => rwa [if_pos hspent] at h
  · next hfresh =>
    rw [if_neg hfresh] at h
    obtain ⟨drained, hdrain, hanswer⟩ := Option.bind_eq_some_iff.1 h
    exact Option.bind_eq_some_iff.2 ⟨drained, drain_mono hle hdrain, hanswer⟩

theorem attempt_mono {outcome : Except Failure Outcome} (hparsed : parsed.Valid)
    (hparsed' : parsed'.Valid) (hle : depth ≤ depth') {parsed₁ : ParseCache}
    (h : job.attempt (Inline.renderer depth) tree parsed = some (outcome, job', parsed₁)) :
    ∃ parsed₂ : ParseCache, parsed₂.Valid ∧
      job.attempt (Inline.renderer depth') tree parsed' = some (outcome, job', parsed₂) := by
  obtain ⟨found, hrender, rfl⟩ := attempt_eq_some_iff.1 h
  obtain ⟨parsed₂, hvalid, hdeeper⟩ := Inline.render_mono hparsed hparsed' hle hrender
  exact ⟨parsed₂, hvalid, attempt_eq_some_iff.2 ⟨found, hdeeper, rfl⟩⟩

theorem valid_of_attempt {outcome : Except Failure Outcome} (hparsed : parsed.Valid)
    (h : job.attempt (Inline.renderer depth) tree parsed = some (outcome, job', parsed')) :
    parsed'.Valid := by
  obtain ⟨found, hrender, -⟩ := attempt_eq_some_iff.1 h
  exact Inline.valid_of_render hparsed hrender

theorem converge_mono {renders renders' : Nat} {step : JobStep σ ParseCache Output}
    (hparsed : parsed.Valid) (hparsed' : parsed'.Valid) (hdepth : depth ≤ depth')
    (hlayers : layers ≤ layers') (hrenders : renders ≤ renders')
    (h : job.converge host (Inline.renderer depth) tree layers renders s parsed = some step) :
    ∃ parsed'' : ParseCache, parsed''.Valid ∧
      job.converge host (Inline.renderer depth') tree layers' renders' s parsed' =
        some { step with renderer := parsed'' } := by
  obtain ⟨calls, hcalls, hlen⟩ := converge_eq_some_iff.1 h
  suffices ∃ (parsed'' : ParseCache) (calls' : List (Call σ ParseCache)), parsed''.Valid ∧
      Converges host (Inline.renderer depth') tree layers' job s parsed' calls'
        { step with renderer := parsed'' } ∧ calls'.length = calls.length by
    obtain ⟨parsed'', calls', hvalid, hcalls', hlen'⟩ := this
    refine ⟨parsed'', hvalid, converge_eq_some_iff.2 ⟨calls', hcalls', ?_⟩⟩
    rw [hlen']
    exact hlen.trans hrenders
  clear h hlen
  induction hcalls generalizing parsed' with
  | failed call =>
    obtain ⟨parsed₂, hvalid, call'⟩ := attempt_mono hparsed hparsed' hdepth call
    exact ⟨parsed₂, _, hvalid, .failed call', rfl⟩
  | rendered call =>
    obtain ⟨parsed₂, hvalid, call'⟩ := attempt_mono hparsed hparsed' hdepth call
    exact ⟨parsed₂, _, hvalid, .rendered call', rfl⟩
  | missing call resolve =>
    obtain ⟨parsed₂, hvalid, call'⟩ := attempt_mono hparsed hparsed' hdepth call
    exact ⟨parsed₂, _, hvalid, .missing call' (resolvePending_mono hlayers resolve), rfl⟩
  | retry call resolve _ ih =>
    obtain ⟨parsed₂, hvalid, call'⟩ := attempt_mono hparsed hparsed' hdepth call
    have hafter := valid_of_attempt hparsed call
    obtain ⟨parsed'', calls', hvalid'', hcalls', hlen⟩ := ih hafter hvalid
    refine ⟨parsed'', _, hvalid'', .retry call' (resolvePending_mono hlayers resolve) hcalls', ?_⟩
    rw [List.length_cons, List.length_cons, hlen]

theorem settle_renderer (step : JobStep σ ParseCache Output) (parsed : ParseCache) :
    settle { step with renderer := parsed } = { settle step with renderer := parsed } := by
  obtain ⟨result, job, s, r⟩ := step
  cases result <;> rfl

/-- A run that ends does so alike if it may go further, whatever texts were parsed before. -/
theorem run_mono {limits limits' : Limits} {step : JobStep σ ParseCache Output}
    (hparsed : parsed.Valid) (hparsed' : parsed'.Valid) (hdepth : depth ≤ depth')
    (hlayers : limits.layers ≤ limits'.layers) (hrenders : limits.renders ≤ limits'.renders)
    (h : job.run host (Inline.renderer depth) tree limits s parsed = some step) :
    ∃ parsed'' : ParseCache, parsed''.Valid ∧
      job.run host (Inline.renderer depth') tree limits' s parsed' =
        some { step with renderer := parsed'' } := by
  unfold run compile at h ⊢
  obtain ⟨step₁, hcompile, rfl⟩ := Option.map_eq_some_iff.1 h
  obtain ⟨⟨result, job₁, s₁⟩, hdrain, hrest⟩ := Option.bind_eq_some_iff.1 hcompile
  have hdrain' := drain_mono hlayers hdrain
  cases result with
  | error failure =>
    obtain rfl := Option.some.inj hrest
    have hsettle := settle_renderer ⟨.error failure, job₁, s₁, parsed⟩ parsed'
    refine ⟨parsed', hparsed', Option.map_eq_some_iff.2 ⟨_, ?_, hsettle⟩⟩
    exact Option.bind_eq_some_iff.2 ⟨_, hdrain', rfl⟩
  | ok done =>
    obtain ⟨parsed'', hvalid, hconverge⟩ :=
      converge_mono hparsed hparsed' hdepth hlayers hrenders hrest
    refine ⟨parsed'', hvalid, Option.map_eq_some_iff.2 ⟨_, ?_, settle_renderer step₁ parsed''⟩⟩
    exact Option.bind_eq_some_iff.2 ⟨_, hdrain', hconverge⟩

end StyleWeave.Job
