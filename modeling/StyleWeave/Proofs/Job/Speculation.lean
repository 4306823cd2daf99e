import StyleWeave.Proofs.Job.Inlining
import StyleWeave.Proofs.Render.Listening

/-!
# Speculation never shows

Ahead of the first render, a job may have resolved any references and scanned any documents. If the
pass through its document asks for nothing that only the host can resolve, none of this makes a
difference: the first attempt settles the run, and comes to what it comes to with nothing cached. So
the results of a job are the same over all hosts (`speculation_never_shows`).
-/

namespace StyleWeave.Job

open Inline (ParseCache Native listenedPass)

variable {σ ρ : Type} {host : Host σ} {renderer : Renderer ρ} {tree : SourceTree}
  {options : Options} {depth : Nat} {file : Path} {source : String} {limits : Limits}

/-- If the first attempt of a run renders the document or fails, that is the result of the run. -/
theorem exists_run_of_attempt {job job₁ job₂ : Job} {s s₁ : σ} {r r₁ : ρ}
    {result : Except Failure Rendered} (hg : job.frontier.Guessing)
    (hdrain : job.enqueueEntry.drain host limits.layers s = some (.ok (), job₁, s₁))
    (hattempt : job₁.attempt renderer tree r = some (result.map .rendered, job₂, r₁))
    (hrenders : 0 < limits.renders) :
    ∃ step, job.run host renderer tree limits s r = some step ∧
      step.result.map Output.rendered = result ∧ step.job.attempts = job.attempts + 1 := by
  obtain ⟨-, -, -, hjob⟩ := drain_enqueueEntry hg hdrain
  obtain ⟨found, -, hjob₂⟩ := attempt_eq_some_iff.1 hattempt
  have hattempts : job₂.attempts = job.attempts + 1 := by
    rw [hjob₂, hjob]
    rfl
  cases result with
  | error failure =>
    have hruns := (run_eq_some_iff hg).2
      ⟨_, ⟨job₁, s₁, _, hdrain, .failed hattempt, rfl⟩, hrenders⟩
    exact ⟨_, hruns, rfl, hattempts⟩
  | ok rendered =>
    have hruns := (run_eq_some_iff hg).2
      ⟨_, ⟨job₁, s₁, _, hdrain, .rendered hattempt, rfl⟩, hrenders⟩
    exact ⟨_, hruns, rfl, hattempts⟩

/-- If the pass is native, a first run over any host comes to what the pass comes to with nothing
cached, after one attempt. -/
theorem run_of_native {s : σ} {parsed : ParseCache}
    (h : Native options tree depth file source) (hparsed : parsed.Valid)
    (hdrain : ((create file source options).enqueueEntry.drain host limits.layers s).isSome = true)
    (hrenders : 0 < limits.renders) {result : Except Failure Rendered}
    (houtcome : Inline.outcome options file (listenedPass options tree depth file source).2
      (listenedPass options tree depth file source).1 = some (result.map .rendered)) :
    ∃ step, (create file source options).run host (Inline.renderer depth) tree limits s parsed =
        some step ∧
      step.result.map Output.rendered = result ∧ step.job.attempts = 1 := by
  have hg := guessing_create file source options
  obtain ⟨⟨done, job₁, s₁⟩, hdrain⟩ := Option.isSome_iff_exists.1 hdrain
  obtain ⟨rfl, -, hgrown, hjob⟩ := drain_enqueueEntry hg hdrain
  have hoptions : job₁.frontier.options = options := hgrown.options
  have hfile : job₁.file = file := by
    rw [hjob]
    rfl
  have hsource : job₁.source = source := by
    rw [hjob]
    rfl
  -- What the drain has cached makes no difference to the attempt.
  obtain ⟨hended, hfinish, -⟩ := h.passThrough_eq job₁.frontier.cache .empty hparsed
  have hsame := (Inline.outcome_congr hended hfinish).trans houtcome
  obtain ⟨found, parsed', hrender⟩ : ∃ found parsed',
      (Inline.renderer depth).render parsed job₁.file job₁.source job₁.frontier.options
        (job₁.lookup tree).locator .empty = some ⟨result.map .rendered, found, parsed'⟩ := by
    rw [hfile, hsource, lookup, hoptions, Inline.render_eq]
    dsimp only
    rw [hsame]
    exact ⟨_, _, rfl⟩
  exact exists_run_of_attempt hg hdrain (attempt_eq_some_iff.2 ⟨found, hrender, rfl⟩) hrenders

/-- If a render with nothing cached asks for nothing that only the host can resolve, the host makes
no difference: over all hosts whose drains end, first runs come to the same result or the same
failure, that of the render with nothing cached, after one attempt. -/
theorem speculation_never_shows {σ' : Type} {host' : Host σ'} {limits' : Limits} {s : σ} {s' : σ'}
    {parsed parsed' : ParseCache} (h : Native options tree depth file source)
    (hparsed : parsed.Valid) (hparsed' : parsed'.Valid)
    (hdrain : ((create file source options).enqueueEntry.drain host limits.layers s).isSome = true)
    (hdrain' : ((create file source options).enqueueEntry.drain host' limits'.layers s').isSome =
      true)
    (hrenders : 0 < limits.renders) (hrenders' : 0 < limits'.renders) :
    ∃ (result : Except Failure Rendered) (step : JobStep σ ParseCache Output)
      (step' : JobStep σ' ParseCache Output),
      Inline.outcome options file (listenedPass options tree depth file source).2
        (listenedPass options tree depth file source).1 = some (result.map .rendered) ∧
      (create file source options).run host (Inline.renderer depth) tree limits s parsed =
        some step ∧
      (create file source options).run host' (Inline.renderer depth) tree limits' s' parsed' =
        some step' ∧
      step.result.map Output.rendered = result ∧ step'.result.map Output.rendered = result ∧
      step.job.attempts = 1 ∧ step'.job.attempts = 1 := by
  obtain ⟨result, houtcome⟩ := h.exists_result
  obtain ⟨step, hrun, hresult, hattempts⟩ := run_of_native h hparsed hdrain hrenders houtcome
  obtain ⟨step', hrun', hresult', hattempts'⟩ := run_of_native h hparsed' hdrain' hrenders' houtcome
  exact ⟨result, step, step', houtcome, hrun, hrun', hresult, hresult', hattempts, hattempts'⟩

/-- A host that leads all references to one document, and reads the same text everywhere. -/
def singleMinded : Host Unit where
  resolve _ _ := (.ok ⟨"/other/b.styl"⟩, ())
  read _ _ := (.ok "@import '~c'\n", ())
  depend _ _ := ()

/-- A tree with one file. -/
def oneFile : Memory where
  files := [(⟨"/app/a.styl"⟩, "a\n")]

theorem native_oneFile : Native {} oneFile.tree 2 ⟨"/app/main.styl"⟩ "@import 'a'\n" where
  ends hdeep := by
    have hsome : (Inline.outcome {} ⟨"/app/main.styl"⟩
        (listenedPass {} oneFile.tree 2 ⟨"/app/main.styl"⟩ "@import 'a'\n").2
        (listenedPass {} oneFile.tree 2 ⟨"/app/main.styl"⟩ "@import 'a'\n").1).isSome = true := by
      decide +kernel
    rw [hdeep] at hsome
    cases hsome
  unmarked := by decide +kernel

/-- Over a host with nothing in it, and over one that resolves what the document imports to another
file than the tree has, the document comes to the same. -/
theorem speculation_never_shows_oneFile :
    ∃ (step : JobStep Memory.Log ParseCache Output) (step' : JobStep Unit ParseCache Output),
      (create ⟨"/app/main.styl"⟩ "@import 'a'\n" {}).run (Memory.host {}) (Inline.renderer 2)
        oneFile.tree ⟨3, 1⟩ {} {} = some step ∧
      (create ⟨"/app/main.styl"⟩ "@import 'a'\n" {}).run singleMinded (Inline.renderer 2)
        oneFile.tree ⟨4, 2⟩ () {} = some step' ∧
      step.result.map Output.rendered = step'.result.map Output.rendered ∧
      step.job.attempts = 1 ∧ step'.job.attempts = 1 := by
  have hdrain : ((create ⟨"/app/main.styl"⟩ "@import 'a'\n" {}).enqueueEntry.drain
      (Memory.host {}) (⟨3, 1⟩ : Limits).layers {}).isSome = true := by
    decide +kernel
  have hdrain' : ((create ⟨"/app/main.styl"⟩ "@import 'a'\n" {}).enqueueEntry.drain
      singleMinded (⟨4, 2⟩ : Limits).layers ()).isSome = true := by
    decide +kernel
  have hrenders : 0 < (⟨3, 1⟩ : Limits).renders := by decide
  have hrenders' : 0 < (⟨4, 2⟩ : Limits).renders := by decide
  obtain ⟨result, step, step', -, hrun, hrun', hresult, hresult', hattempts, hattempts'⟩ :=
    speculation_never_shows native_oneFile Inline.ParseCache.valid_empty
      Inline.ParseCache.valid_empty hdrain hdrain' hrenders hrenders'
  exact ⟨step, step', hrun, hrun', hresult.trans hresult'.symm, hattempts, hattempts'⟩

end StyleWeave.Job
