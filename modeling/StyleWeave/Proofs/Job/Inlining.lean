import StyleWeave.Proofs.Job.Verdict
import StyleWeave.Proofs.Render.Finder
import StyleWeave.Proofs.Render.Watch

/-!
# First runs with the inlining renderer

What holds at every render call of a job that is run for the first time, with the inlining renderer:
all that renders have needed so far is cached, the cache has grown out of an empty one, and what the
renderer keeps of parsed documents is true. So a call never needs a reference that was resolved or
needed before, and a missing reference ends the run only if the host refuses it.
-/

namespace StyleWeave

namespace Inline

theorem valid_of_render {depth : Nat} {parsed : ParseCache} {file : Path} {source : String}
    {options : Options} {locator : Locator PathSet} {found : PathSet}
    {step : RenderStep ParseCache} (hparsed : parsed.Valid)
    (h : (renderer depth).render parsed file source options locator found = some step) :
    step.state.Valid := by
  rw [render_eq] at h
  obtain ⟨result, -, rfl⟩ := Option.map_eq_some_iff.1 h
  exact (passThrough_watch (.ofLocator options locator) depth file source found hparsed).2.state.2.2

end Inline

namespace Job

open Inline (ParseCache)

variable {σ : Type} {host : Host σ} {tree : SourceTree} {layers depth : Nat} {job : Job}
  {file : Path} {source : String} {options : Options} {s : σ} {parsed : ParseCache}
  {calls : List (Call σ ParseCache)} {step : JobStep σ ParseCache Output}

/-- How things stand at a call of the first run of a job. -/
structure Underway (host : Host σ) (job : Job) (call : Call σ ParseCache) : Prop where
  file : call.job.file = job.file
  source : call.job.source = job.source
  grown : Frontier.Extends host job.frontier call.job.frontier
  /-- All that renders have needed is cached. -/
  known : ∀ key ∈ call.job.attempted, call.job.frontier.cache.contains key = true
  parsed : call.renderer.Valid

theorem Underway.follows {a b : Call σ ParseCache}
    (hf : Follows host (Inline.renderer depth) tree layers a b) (h : Underway host job a) :
    Underway host job b := by
  obtain ⟨pending, -, hr⟩ := hf.retried
  obtain ⟨-, _, job', -, hcall, -⟩ := hf
  obtain ⟨found, hrender, -⟩ := attempt_eq_some_iff.1 hcall
  refine ⟨hr.file.trans h.file, hr.source.trans h.source, h.grown.trans hr.grown, ?_,
    Inline.valid_of_render h.parsed hrender⟩
  intro key hkey
  rw [hr.attempted] at hkey
  rcases List.mem_cons.1 hkey with rfl | hkey
  · exact hr.cached
  · exact hr.grown.cache.contains (h.known key hkey)

theorem Runs.underway
    (h : Runs host (Inline.renderer depth) tree layers (create file source options) s parsed calls
      step) (hparsed : parsed.Valid) :
    ∀ call ∈ calls, Underway host (create file source options) call := by
  obtain ⟨job₁, s₁, step₁, hdrain, hcalls, -⟩ := h
  have hg := guessing_create file source options
  obtain ⟨-, hidle, hgrown, hjob⟩ := drain_enqueueEntry hg hdrain
  have hchain := hcalls.isChain hidle
  obtain ⟨outcome, rest, rfl⟩ := hcalls.head
  refine forall_of_follows hchain ?_ fun a b hf ha => ha.follows hf
  refine ⟨by rw [hjob]; rfl, by rw [hjob]; rfl, hgrown, ?_, hparsed⟩
  intro key hkey
  rw [hjob] at hkey
  simp [enqueueEntry, create] at hkey

/-- A reference that is not cached was never needed before. -/
theorem Underway.not_spent {call : Call σ ParseCache} (h : Underway host job call)
    {key : Reference} (hkey : call.job.frontier.cache.find? key = none) : ¬ call.job.Spent key := by
  have hcontains : call.job.frontier.cache.contains key = false := Cache.contains_eq_false.2 hkey
  rintro (hcached | hattempted)
  · simp [hcontains] at hcached
  · obtain ⟨key', hmem, heq⟩ := List.contains_iff_exists_mem_beq.1 hattempted
    have hknown := h.known key' hmem
    rw [← Cache.contains_congr _ heq, hcontains] at hknown
    simp at hknown

/-- Each call of a run with the inlining renderer is a pass. -/
theorem Runs.pass (h : Runs host (Inline.renderer depth) tree layers job s parsed calls step) :
    ∀ call ∈ calls,
      let pass := Inline.passThrough
        (.ofLocator call.job.frontier.options (call.job.lookup tree).locator)
        depth call.job.file call.job.source .empty call.renderer
      Inline.outcome call.job.frontier.options call.job.file pass.2 pass.1 = some call.outcome := by
  obtain ⟨job₁, s₁, step₁, -, hcalls, -⟩ := h
  intro call hcall
  obtain ⟨job', r', hattempt⟩ := hcalls.attempted call hcall
  obtain ⟨found, hrender, -⟩ := attempt_eq_some_iff.1 hattempt
  rw [Inline.render_eq] at hrender
  obtain ⟨result, hresult, heq⟩ := Option.map_eq_some_iff.1 hrender
  have hout : result = call.outcome := congrArg RenderStep.outcome heq
  rw [hout] at hresult
  exact hresult

/-- Each call of a first run is a pass by what is known from the tree and the cache. -/
theorem Runs.passOver {prefetch : Bool}
    (h : Runs host (Inline.renderer depth) tree layers
      (create file source { options with prefetch }) s parsed calls step)
    (hparsed : parsed.Valid) {call : Call σ ParseCache} (hcall : call ∈ calls) :
    let pass := Inline.passOver options tree
      (Lookup.known? ⟨tree, call.job.frontier.cache, options⟩) depth file source
    Inline.outcome options file pass.2 pass.1 = some call.outcome := by
  intro pass
  have hunder := h.underway hparsed call hcall
  have hpass := h.pass call hcall
  rw [lookup, hunder.file, hunder.source, hunder.grown.options] at hpass
  obtain ⟨hresult, hfinish⟩ := Inline.passThrough_over options tree call.job.frontier.cache prefetch
    depth file source .empty hunder.parsed
  rw [← hpass]
  exact (Inline.outcome_congr hresult hfinish).symm

end Job

end StyleWeave
