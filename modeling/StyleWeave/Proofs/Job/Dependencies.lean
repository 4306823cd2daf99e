import StyleWeave.Proofs.Frontier.Dependencies
import StyleWeave.Proofs.Job.Inlining
import StyleWeave.Proofs.Job.View
import StyleWeave.Proofs.Render.Questions

/-!
# The dependencies that a job reports

A run that fails tells the host of no dependency. A run that succeeds tells it of each dependency in
its output once, in the order of paths: the document itself, the files that the locator has named to
a render of the job, those that the host has resolved a reference to, and the documents that were
scanned. No run of the job, successful or not, is left out of that, and nothing else is in it
(`run_dependencies`).

What the host and the locator have answered is not part of a job. So the runs are watched: the host
keeps an account of what it does (`Host.audited`), and each call of a renderer comes with the
questions that it has put to the locator (`Call.Puts`).
-/

namespace StyleWeave

open Frontier (Accounted)
open Script (Question)

variable {σ ρ : Type}

theorem Host.audited_shows (host : Host σ) : Host.Shows Prod.fst host.audited host where
  resolve t key := by
    unfold Host.audited
    dsimp only
    rcases host.resolve t.1 key with ⟨failure | target, s⟩ <;> rfl
  read t file := by
    unfold Host.audited
    dsimp only
    rcases host.read t.1 file with ⟨failure | text, s⟩ <;> rfl
  depend t file := rfl

theorem Host.audited_dependAll (host : Host σ) (t : σ × Audit) (files : List Path) :
    (host.audited.dependAll t files).2 = { t.2 with told := t.2.told ++ files } := by
  unfold Host.dependAll
  induction files generalizing t with
  | nil => simp
  | cons file rest ih =>
    rw [List.foldl_cons, ih]
    simp [Host.audited]

namespace Call

/-- The call of the renderer has put these questions to its locator. -/
def Puts (renderer : Renderer ρ) (tree : SourceTree) (call : Call σ ρ)
    (questions : List Question) : Prop :=
  ∃ found r, renderer.render call.renderer call.job.file call.job.source call.job.frontier.options
      (call.job.lookup tree).locator .empty = some ⟨call.outcome, found, r⟩ ∧
    found = (Script.askAll (call.job.lookup tree).locator .empty questions).2

end Call

namespace Job

/-- The files that the locator has named to some calls. -/
def heard (tree : SourceTree) (calls : List (Call σ ρ)) (questions : List (List Question)) :
    List Path :=
  (List.zipWith (fun call => Script.named (call.job.lookup tree).locator) calls questions).flatten

/-- The files that the host is told of behind a run. -/
def announced : Except Failure Output → List Path
  | .ok output => output.dependencies
  | .error _ => []

theorem heard_nil (tree : SourceTree) : heard tree ([] : List (Call σ ρ)) [] = [] := rfl

theorem heard_cons (tree : SourceTree) (call : Call σ ρ) (calls : List (Call σ ρ))
    (asked : List Question) (questions : List (List Question)) :
    heard tree (call :: calls) (asked :: questions) =
      Script.named (call.job.lookup tree).locator asked ++ heard tree calls questions := rfl

variable {host : Host σ} {renderer : Renderer ρ} {tree : SourceTree} {layers : Nat}
  {job job' : Job} {t t' : σ × Audit} {r r' : ρ} {known told : List Path}
  {calls : List (Call (σ × Audit) ρ)} {questions : List (List Question)}
  {step : JobStep (σ × Audit) ρ Output}

/-! ## One call -/

theorem accounted_attempt {outcome : Except Failure Outcome} {asked : List Question}
    (ha : Accounted known told job.frontier t.2)
    (hattempt : job.attempt renderer tree r = some (outcome, job', r'))
    (hputs : (⟨job, t, r, outcome⟩ : Call (σ × Audit) ρ).Puts renderer tree asked) :
    Accounted (Script.named (job.lookup tree).locator asked ++ known) told job'.frontier t.2 ∧
      job'.file = job.file := by
  obtain ⟨found, hrender, rfl⟩ := attempt_eq_some_iff.1 hattempt
  obtain ⟨found', r₁, hrender', hfound⟩ := hputs
  obtain rfl : found = found' :=
    congrArg RenderStep.found (Option.some.inj (hrender.symm.trans hrender'))
  refine ⟨(ha.addDependencies found.paths).congr_known fun p => ?_, rfl⟩
  have hnamed : found.contains p = (Script.named (job.lookup tree).locator asked).contains p := by
    rw [hfound]
    exact Script.contains_named (job.lookup tree) asked p
  rw [List.contains_append, List.contains_append, List.contains_reverse, ← hnamed]
  rfl

theorem accounted_resolvePending {pending : Pending} {result : Except Failure Unit}
    (ha : Accounted known told job.frontier t.2)
    (h : resolvePending host.audited layers pending { job with stage := .awaitingResolution } t =
      some (result, job', t')) :
    Accounted known told job'.frontier t'.2 ∧ job'.file = job.file := by
  unfold resolvePending at h
  split at h
  · obtain ⟨rfl, rfl, rfl⟩ := by simpa using h
    exact ⟨ha, rfl⟩
  · obtain ⟨⟨drained, job₁, t₁⟩, hdrain, hanswer⟩ := Option.bind_eq_some_iff.1 h
    obtain ⟨rfl, rfl, rfl⟩ := by simpa using hanswer
    obtain ⟨frontier, hfrontier, rfl⟩ := drain_eq_some_iff.1 hdrain
    obtain ⟨queries, hqueries, -⟩ := job.frontier.enqueueQuery_spec pending.key false
    have hqueued : Accounted known told (job.frontier.enqueueQuery pending.key false) t.2 := by
      rw [hqueries]
      exact ha.congr rfl (List.Subset.refl _)
    exact ⟨hqueued.drain hfrontier, rfl⟩

/-! ## Whole runs -/

/-- From a call on, the host is told of nothing before the run succeeds, and then of what it depends
on. -/
theorem Converges.accounted
    (h : Converges host.audited renderer tree layers job t r calls step)
    (ha : Accounted known told job.frontier t.2)
    (hputs : List.Forall₂ (Call.Puts renderer tree) calls questions) :
    Accounted (heard tree calls questions ++ known) (told ++ announced step.result)
        step.job.frontier step.host.2 ∧
      step.job.file = job.file ∧
      ∀ output, step.result = .ok output →
        output.dependencies = step.job.frontier.dependencies.paths := by
  induction h generalizing known questions with
  | failed call =>
    obtain ⟨asked, _, hput, hrest, rfl⟩ := List.forall₂_cons_left_iff.1 hputs
    obtain rfl := List.forall₂_nil_left_iff.1 hrest
    obtain ⟨hcall, hfile⟩ := accounted_attempt ha call hput
    refine ⟨?_, hfile, fun output hok => by cases hok⟩
    rw [heard_cons, heard_nil, List.append_nil, announced, List.append_nil]
    exact hcall
  | @rendered _ job₁ t₁ _ _ rendered call =>
    obtain ⟨asked, _, hput, hrest, rfl⟩ := List.forall₂_cons_left_iff.1 hputs
    obtain rfl := List.forall₂_nil_left_iff.1 hrest
    obtain ⟨hcall, hfile⟩ := accounted_attempt ha call hput
    refine ⟨?_, hfile, fun output hok => ?_⟩
    · rw [heard_cons, heard_nil, List.append_nil]
      have htold := Host.audited_dependAll host t₁ job₁.frontier.dependencies.paths
      exact hcall.announce htold
    · obtain rfl := Except.ok.inj hok
      rfl
  | missing call resolve =>
    obtain ⟨asked, _, hput, hrest, rfl⟩ := List.forall₂_cons_left_iff.1 hputs
    obtain rfl := List.forall₂_nil_left_iff.1 hrest
    obtain ⟨hcall, hfile⟩ := accounted_attempt ha call hput
    obtain ⟨hresolved, hfile'⟩ := accounted_resolvePending hcall resolve
    refine ⟨?_, hfile'.trans hfile, fun output hok => by cases hok⟩
    rw [heard_cons, heard_nil, List.append_nil, announced, List.append_nil]
    exact hresolved
  | retry call resolve others ih =>
    obtain ⟨asked, rest, hput, hrest, rfl⟩ := List.forall₂_cons_left_iff.1 hputs
    obtain ⟨hcall, hfile⟩ := accounted_attempt ha call hput
    obtain ⟨hresolved, hfile'⟩ := accounted_resolvePending hcall resolve
    obtain ⟨hstep, hfile'', houtput⟩ := ih hresolved hrest
    refine ⟨hstep.congr_known fun p => ?_, hfile''.trans (hfile'.trans hfile), houtput⟩
    rw [heard_cons]
    simp only [List.contains_append]
    rw [Bool.or_left_comm, Bool.or_assoc]

theorem Runs.accounted (h : Runs host.audited renderer tree layers job t r calls step)
    (ha : Accounted known told job.frontier t.2)
    (hputs : List.Forall₂ (Call.Puts renderer tree) calls questions) :
    Accounted (heard tree calls questions ++ job.file :: known) (told ++ announced step.result)
        step.job.frontier step.host.2 ∧
      step.job.file = job.file ∧
      ∀ output, step.result = .ok output →
        output.dependencies = step.job.frontier.dependencies.paths := by
  obtain ⟨job₁, t₁, step₁, hdrain, hcalls, rfl⟩ := h
  obtain ⟨frontier, hfrontier, rfl⟩ := drain_eq_some_iff.1 hdrain
  have hentered : Accounted (job.file :: known) told job.enqueueEntry.frontier t.2 :=
    ha.enter job.file (some job.source)
  have hrun := hcalls.accounted (hentered.drain hfrontier) hputs
  obtain ⟨stage, hstage⟩ := settle_job step₁
  rw [hstage, result_settle, host_settle]
  exact hrun

/-! ## Histories -/

/-- A job of a host after some runs, each with any renderer, source tree and limits, and with the
host in any state. `named` holds what the locator has named to all their calls, and the account is
that of all of them. -/
inductive Dossier (host : Host σ) : List Path → Audit → Job → Prop where
  | create (file : Path) (source : String) (options : Options) :
      Dossier host [] {} (create file source options)
  | run {ρ : Type} {renderer : Renderer ρ} {tree : SourceTree} {limits : Limits}
      {named : List Path} {audit : Audit} {job : Job} {s : σ} {r : ρ}
      {calls : List (Call (σ × Audit) ρ)} {questions : List (List Question)}
      {step : JobStep (σ × Audit) ρ Output} (before : Dossier host named audit job)
      (ran : job.run host.audited renderer tree limits (s, audit) r = some step)
      (called : Runs host.audited renderer tree limits.layers job (s, audit) r calls step)
      (asked : List.Forall₂ (Call.Puts renderer tree) calls questions) :
      Dossier host (named ++ heard tree calls questions) step.host.2 step.job

variable {named : List Path} {audit : Audit}

theorem Dossier.history (h : Dossier host named audit job) :
    ∃ n reported, History host.audited n reported job := by
  induction h with
  | create file source options => exact ⟨0, [], .create file source options⟩
  | run _ ran called _ ih =>
    obtain ⟨n, reported, hhistory⟩ := ih
    exact ⟨n + 1, _, hhistory.run ran called⟩

theorem Dossier.accounted (h : Dossier host named audit job) :
    ∃ known, Accounted known audit.told job.frontier audit ∧
      ∀ p, (p == job.file || known.contains p) = (p == job.file || named.contains p) := by
  induction h with
  | create file source options => exact ⟨[], Frontier.accounted_create options, fun p => rfl⟩
  | @run _ _ tree _ named _ job _ _ calls questions step _ ran called asked ih =>
    obtain ⟨known, hknown, hsame⟩ := ih
    obtain ⟨hstep, hfile, -⟩ := called.accounted hknown asked
    have htold := hstep.told
    rw [← htold] at hstep
    refine ⟨_, hstep, fun p => ?_⟩
    have hp := hsame p
    rw [hfile]
    simp only [List.contains_append, List.contains_cons]
    generalize (heard tree calls questions).contains p = a
    cases hroot : (p == job.file) with
    | true => simp
    | false =>
      rw [hroot, Bool.false_or, Bool.false_or] at hp
      rw [hp, Bool.false_or, Bool.false_or, Bool.false_or, Bool.or_comm]

/-- A renderer that asks for what it finds has put questions at each of its calls. -/
theorem exists_puts {host : Host σ} {s : σ} {calls : List (Call σ ρ)} {step : JobStep σ ρ Output}
    (hasks : renderer.Asks) (h : Runs host renderer tree layers job s r calls step) :
    ∃ questions, List.Forall₂ (Call.Puts renderer tree) calls questions := by
  obtain ⟨job₁, s₁, step₁, -, hcalls, -⟩ := h
  have hall := hcalls.attempted
  clear hcalls
  induction calls with
  | nil => exact ⟨[], .nil⟩
  | cons call rest ih =>
    obtain ⟨questions, hrest⟩ := ih fun c hc => hall c (List.mem_cons_of_mem _ hc)
    obtain ⟨job', r', hattempt⟩ := hall call List.mem_cons_self
    obtain ⟨found, hrender, -⟩ := attempt_eq_some_iff.1 hattempt
    obtain ⟨asked, hasked⟩ := hasks _ _ _ _ _ _ _ hrender
    exact ⟨asked :: questions, .cons ⟨found, r', hrender, hasked⟩ hrest⟩

theorem exists_asked {calls : List (Call σ ρ)}
    (h : List.Forall₂ (Call.Puts renderer tree) calls questions) {call : Call σ ρ}
    (hcall : call ∈ calls) :
    ∃ asked, call.Puts renderer tree asked ∧
      Script.named (call.job.lookup tree).locator asked ⊆ heard tree calls questions := by
  induction h with
  | nil => cases hcall
  | @cons first asked rest questions hputs _ ih =>
    rw [heard_cons]
    rcases List.mem_cons.1 hcall with rfl | hcall
    · exact ⟨asked, hputs, List.subset_append_left _ _⟩
    · obtain ⟨asked', hputs', hsub⟩ := ih hcall
      exact ⟨asked', hputs', List.Subset.trans hsub (List.subset_append_right _ _)⟩

theorem Runs.file {host : Host σ} {s : σ} {calls : List (Call σ ρ)} {step : JobStep σ ρ Output}
    (h : Runs host renderer tree layers job s r calls step) (hg : job.frontier.Guessing) :
    ∀ call ∈ calls, call.job.file = job.file := by
  have hchain := h.isChain hg
  obtain ⟨job₁, s₁, step₁, hdrain, hcalls, -⟩ := h
  obtain ⟨-, -, -, hjob⟩ := drain_enqueueEntry hg hdrain
  obtain ⟨outcome, rest, rfl⟩ := hcalls.head
  refine forall_of_follows hchain ?_ fun a b hf ha => ?_
  · rw [hjob]
    rfl
  · obtain ⟨_, -, hretried⟩ := hf.retried
    exact hretried.file.trans ha

/-- A run of the job has told its host of nothing if it fails, and if it succeeds of its
dependencies in turn. These are in order, and they are the document, the files that the locator has
named and those that the host has mentioned. -/
def Tells (job : Job) (named : List Path) (before behind : Audit) : Except Failure Output → Prop
  | .error _ => behind.told = before.told
  | .ok output => behind.told = before.told ++ output.dependencies ∧
    PathSet.Increasing output.dependencies ∧
    ∀ p, output.dependencies.contains p =
      (p == job.file || named.contains p || behind.mentions p)

theorem Dossier.tells (dossier : Dossier host named audit job) {s : σ}
    (called : Runs host.audited renderer tree layers job (s, audit) r calls step)
    (asked : List.Forall₂ (Call.Puts renderer tree) calls questions) :
    Tells job (named ++ heard tree calls questions) audit step.host.2 step.result := by
  obtain ⟨known, hknown, hsame⟩ := dossier.accounted
  obtain ⟨hstep, -, houtput⟩ := called.accounted hknown asked
  have htold := hstep.told
  cases hresult : step.result with
  | error failure =>
    rw [hresult, announced, List.append_nil] at htold
    exact htold
  | ok output =>
    rw [hresult] at htold
    have hdependencies := houtput output hresult
    refine ⟨htold, ?_, fun p => ?_⟩
    · rw [hdependencies]
      exact hstep.increasing
    · have hcontains : output.dependencies.contains p =
          ((heard tree calls questions ++ job.file :: known).contains p ||
            step.host.2.mentions p) := by
        rw [hdependencies]
        exact hstep.contains p
      rw [hcontains]
      simp only [List.contains_append, List.contains_cons]
      rw [hsame p, Bool.or_left_comm, Bool.or_comm (List.contains named p)]

theorem heard_map {τ ρ' : Type} (tree : SourceTree) (view : τ → σ) (look : ρ' → ρ)
    (calls : List (Call τ ρ')) (questions : List (List Question)) :
    heard tree (calls.map (Call.map view look)) questions = heard tree calls questions := by
  unfold heard
  rw [List.zipWith_map_left]
  rfl

/-- A run with a renderer that asks for what it finds, with its calls and with the account. -/
theorem Dossier.exists_tells {host : Host σ} {s : σ} {limits : Limits} {step : JobStep σ ρ Output}
    (dossier : Dossier host named audit job) (hasks : renderer.Asks)
    (hrun : job.run host renderer tree limits s r = some step) :
    ∃ calls audit', Runs host renderer tree limits.layers job s r calls step ∧
      job.run host.audited renderer tree limits (s, audit) r =
        some ⟨step.result, step.job, (step.host, audit'), step.renderer⟩ ∧
      (∃ questions, List.Forall₂ (Call.Puts renderer tree) calls questions) ∧
      ∀ questions, List.Forall₂ (Call.Puts renderer tree) calls questions →
        Dossier host (named ++ heard tree calls questions) audit' step.job ∧
        Tells job (named ++ heard tree calls questions) audit audit' step.result := by
  obtain ⟨n, reported, hhistory⟩ := dossier.history
  have hg := hhistory.steady.guessing
  obtain ⟨calls, hcalls, hlen⟩ := (run_eq_some_iff hg).1 hrun
  have hputs := exists_puts hasks hcalls
  obtain ⟨calls', step', hcalls', rfl, rfl⟩ :=
    Runs.lift (t := (s, audit)) host.audited_shows renderer.shows_self hcalls trivial
  have hrun' : job.run host.audited renderer tree limits (s, audit) r = some step' :=
    (run_eq_some_iff hg).2 ⟨calls', hcalls', by simpa using hlen⟩
  refine ⟨_, step'.host.2, hcalls, hrun', hputs, fun questions hquestions => ?_⟩
  have hquestions' : List.Forall₂ (Call.Puts renderer tree) calls' questions :=
    (List.forall₂_map_left_iff.1 hquestions).imp fun _ _ hput => hput
  rw [heard_map]
  exact ⟨dossier.run hrun' hcalls' hquestions', dossier.tells hcalls' hquestions'⟩

/-- What the pass of a call has found is among the files that the locator has named. -/
theorem heard_of_pass {host : Host σ} {s : σ} {depth : Nat} {parsed : Inline.ParseCache}
    {calls : List (Call σ Inline.ParseCache)} {step : JobStep σ Inline.ParseCache Output}
    (hcalls : Runs host (Inline.renderer depth) tree layers job s parsed calls step)
    (hg : job.frontier.Guessing)
    (hquestions : List.Forall₂ (Call.Puts (Inline.renderer depth) tree) calls questions)
    {call : Call σ Inline.ParseCache} (hcall : call ∈ calls) {pass : _ × Inline.Pass PathSet}
    (hpass : Inline.passThrough
      (.ofLocator call.job.frontier.options (call.job.lookup tree).locator) depth
      call.job.file call.job.source .empty call.renderer = pass)
    (hdone : pass.1 = .ok ()) {file : Path} (hfile : file ∈ pass.2.sources) :
    (file == job.file || (heard tree calls questions).contains file) = true := by
  obtain ⟨asked, ⟨found, r', hrender, hfound⟩, hsub⟩ := exists_asked hquestions hcall
  have hsearch : pass.2.search = found := by
    rw [Inline.render_eq, hpass] at hrender
    obtain ⟨result, -, heq⟩ := Option.map_eq_some_iff.1 hrender
    exact congrArg RenderStep.found heq
  have hmet := Inline.met_of_sources (l := call.job.lookup tree) hpass hdone file hfile
  rcases hmet with hroot | ⟨p, hp, heq⟩
  · rw [← hcalls.file hg call hcall, hroot, Bool.true_or]
  · have hnamed : (Script.named (call.job.lookup tree).locator asked).contains file = true := by
      rw [← Script.contains_named, ← hfound, ← hsearch]
      exact List.contains_iff_exists_mem_beq.2 ⟨p, hp, heq⟩
    obtain ⟨q, hq, heq'⟩ := List.contains_iff_exists_mem_beq.1 hnamed
    have hheard : (heard tree calls questions).contains file = true :=
      List.contains_iff_exists_mem_beq.2 ⟨q, hsub hq, heq'⟩
    rw [hheard, Bool.or_true]

/-- Whatever runs a job has been through, its next one tells the host of nothing if it fails. If it
succeeds, it tells of each of its dependencies once and in order: they are the document, what the
locator has named to any call of any run so far, and what the host has resolved a reference to or
has read for a scan. With the inlining renderer, each document that the last pass has gone through
is one of them. -/
theorem run_dependencies {host : Host σ} (dossier : Dossier host named audit job) :
    (∀ {ρ : Type} (renderer : Renderer ρ) (tree : SourceTree) (limits : Limits) (s : σ) (r : ρ)
      (step : JobStep σ ρ Output), renderer.Asks →
      job.run host renderer tree limits s r = some step →
      ∃ calls audit', Runs host renderer tree limits.layers job s r calls step ∧
        job.run host.audited renderer tree limits (s, audit) r =
          some ⟨step.result, step.job, (step.host, audit'), step.renderer⟩ ∧
        (∃ questions, List.Forall₂ (Call.Puts renderer tree) calls questions) ∧
        ∀ questions, List.Forall₂ (Call.Puts renderer tree) calls questions →
          Dossier host (named ++ heard tree calls questions) audit' step.job ∧
          Tells job (named ++ heard tree calls questions) audit audit' step.result) ∧
    ∀ (depth : Nat) (tree : SourceTree) (limits : Limits) (s : σ) (parsed : Inline.ParseCache)
      (step : JobStep σ Inline.ParseCache Output) (output : Output),
      job.run host (Inline.renderer depth) tree limits s parsed = some step →
      step.result = .ok output →
      ∃ calls last, Runs host (Inline.renderer depth) tree limits.layers job s parsed calls step ∧
        calls.getLast? = some last ∧
        let pass := Inline.passThrough
          (.ofLocator last.job.frontier.options (last.job.lookup tree).locator) depth
          last.job.file last.job.source .empty last.renderer
        Inline.outcome last.job.frontier.options last.job.file pass.2 pass.1 =
            some (.ok (.rendered output.rendered)) ∧
          ∀ file ∈ pass.2.sources, output.dependencies.contains file = true := by
  refine ⟨fun renderer tree limits s r step hasks hrun => dossier.exists_tells hasks hrun, ?_⟩
  intro depth tree limits s parsed step output hrun hok
  obtain ⟨n, reported, hhistory⟩ := dossier.history
  have hg := hhistory.steady.guessing
  obtain ⟨calls, audit', hcalls, -, ⟨questions, hquestions⟩, hall⟩ :=
    dossier.exists_tells (Inline.renderer_asks depth) hrun
  obtain ⟨-, htells⟩ := hall questions hquestions
  rw [hok] at htells
  obtain ⟨-, -, hcontains⟩ := htells
  obtain ⟨last, hlast, hverdict, -⟩ := hcalls.verdict hg
  have hmem : last ∈ calls := List.mem_of_getLast? hlast
  obtain ⟨rendered, hrendered⟩ := hverdict.ok_iff.1 ⟨output, hok⟩
  have hresult := hverdict.rendered hrendered
  rw [hok] at hresult
  obtain rfl : output.rendered = rendered := Except.ok.inj hresult
  have hpass := hcalls.pass last hmem
  rw [hrendered] at hpass
  obtain ⟨hdone, -⟩ := Inline.outcome_eq_rendered_iff.1 hpass
  refine ⟨calls, last, hcalls, hlast, hpass, fun file hfile => ?_⟩
  have hheard := heard_of_pass hcalls hg hquestions hmem rfl hdone hfile
  rw [hcontains, List.contains_append]
  rcases Bool.or_eq_true_iff.1 hheard with hroot | hnamed
  · rw [hroot, Bool.true_or, Bool.true_or]
  · rw [hnamed, Bool.or_true, Bool.or_true, Bool.true_or]

/-- The run of a document that imports a package. -/
theorem dependencies_onePackage :
    ∃ step audit, (create ⟨"/app/main.styl"⟩ "@import '~pkg.styl'\n" {}).run
        onePackage.host.audited (Inline.renderer 2) onePackage.tree ⟨3, 2⟩ ({}, {}) {} = some step ∧
      step.host.2 = audit ∧
      audit.told.map Path.text = ["/app/main.styl", "/lib/pkg.styl"] := by
  have hrun : ((create ⟨"/app/main.styl"⟩ "@import '~pkg.styl'\n" {}).run onePackage.host
      (Inline.renderer 2) onePackage.tree ⟨3, 2⟩ {} {}).map
        (fun step => step.result.toOption.map fun output => output.dependencies.map Path.text) =
          some (some ["/app/main.styl", "/lib/pkg.styl"]) := by
    decide +kernel
  obtain ⟨step, ran, hpaths⟩ := Option.map_eq_some_iff.1 hrun
  obtain ⟨output, hok, hpaths⟩ := Option.map_eq_some_iff.1 hpaths
  have hresult : step.result = .ok output := by
    cases hstep : step.result with
    | error failure =>
      rw [hstep] at hok
      cases hok
    | ok output' =>
      rw [hstep] at hok
      exact congrArg Except.ok (Option.some.inj hok)
  have hdossier : Dossier onePackage.host [] {} _ :=
    .create ⟨"/app/main.styl"⟩ "@import '~pkg.styl'\n" {}
  obtain ⟨calls, audit, -, haudited, ⟨questions, hquestions⟩, htells⟩ :=
    (run_dependencies hdossier).1 _ _ _ _ _ _ (Inline.renderer_asks 2) ran
  have htold := (htells questions hquestions).2
  rw [hresult] at htold
  refine ⟨_, audit, haudited, rfl, ?_⟩
  rw [htold.1]
  exact hpaths

end Job

end StyleWeave
