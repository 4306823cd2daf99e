import Mathlib.Logic.Function.Basic
import StyleWeave.Proofs.Job.Progress
import StyleWeave.Proofs.Render.Recording

/-!
# Jobs that share a renderer

Jobs take turns with one renderer and one host (`runTurns`). The documents that the renderer keeps
and the log of the host go from each to the next, and show in none of them: a host that logs nothing
and a renderer that keeps nothing give the same reports (`reports_eq`). So every job comes to what
it comes to when it has the host and the renderer for itself (`runTurns_independent`).
-/

namespace StyleWeave

/-- The host that answers from memory and logs nothing. -/
def Memory.silent (m : Memory) : Host Unit where
  resolve _ key := (m.resolve key, ())
  read _ file := (m.read file, ())
  depend _ _ := ()

theorem Memory.host_shows (m : Memory) : Host.Shows (fun _ => ()) m.host m.silent where
  resolve _ _ := rfl
  read _ _ := rfl
  depend _ _ := rfl

namespace Job

open Inline (ParseCache)

variable {σ τ ρ ρ' : Type}

/-! ## Turns -/

/-- A turn of one of several jobs, which are told apart by numbers. -/
structure Turn where
  number : Nat
  limits : Limits

/-- How a job ended its turn. -/
structure Report where
  number : Nat
  result : Except Failure Output
  job : Job

/-- Run jobs in turn with one host and one renderer. A job that has several turns keeps what it
knows. -/
def runTurns (host : Host σ) (renderer : Renderer ρ) (tree : SourceTree) :
    List Turn → (Nat → Job) → σ → ρ → Option (List Report × σ × ρ)
  | [], _, s, r => some ([], s, r)
  | turn :: rest, jobs, s, r => do
    let step ← (jobs turn.number).run host renderer tree turn.limits s r
    let jobs := Function.update jobs turn.number step.job
    let (reports, s, r) ← runTurns host renderer tree rest jobs step.host step.renderer
    return (⟨turn.number, step.result, step.job⟩ :: reports, s, r)

theorem runTurns_shows {view : τ → σ} {fine : Host τ} {host : Host σ} {I : ρ' → Prop}
    {look : ρ' → ρ} {fine' : Renderer ρ'} {renderer : Renderer ρ}
    (h : Host.Shows view fine host) (h' : Renderer.Shows I look fine' renderer) (tree : SourceTree)
    (turns : List Turn) (jobs : Nat → Job) (t : τ) {r : ρ'} (hr : I r) :
    runTurns host renderer tree turns jobs (view t) (look r) =
        (runTurns fine fine' tree turns jobs t r).map (Prod.map id (Prod.map view look)) ∧
      ∀ answer, runTurns fine fine' tree turns jobs t r = some answer → I answer.2.2 := by
  induction turns generalizing jobs t r with
  | nil =>
    refine ⟨rfl, fun answer hanswer => ?_⟩
    obtain rfl := Option.some.inj hanswer
    exact hr
  | cons turn rest ih =>
    obtain ⟨hrun, hkeeps⟩ := run_shows h h' tree turn.limits (jobs turn.number) t hr
    unfold runTurns
    rw [hrun]
    cases hstep : (jobs turn.number).run fine fine' tree turn.limits t r with
    | none => exact ⟨rfl, fun answer hanswer => by cases hanswer⟩
    | some step =>
      obtain ⟨hrest, hkeeps'⟩ := ih (Function.update jobs turn.number step.job) step.host
        (hkeeps step hstep)
      simp only [Option.map_some, Option.bind_eq_bind, Option.bind_some, JobStep.map]
      rw [hrest]
      cases hmore : runTurns fine fine' tree rest (Function.update jobs turn.number step.job)
          step.host step.renderer with
      | none => exact ⟨rfl, fun answer hanswer => by cases hanswer⟩
      | some answer =>
        refine ⟨rfl, fun answer' hanswer' => ?_⟩
        obtain rfl := Option.some.inj hanswer'
        exact hkeeps' answer hmore

/-! ## Without memory -/

section

variable (host : Host Unit) (renderer : Renderer Unit) (tree : SourceTree)

/-- What the jobs report, with a host and a renderer that keep nothing. -/
def reports (turns : List Turn) (jobs : Nat → Job) : Option (List Report) :=
  (runTurns host renderer tree turns jobs () ()).map Prod.fst

theorem reports_cons (turn : Turn) (rest : List Turn) (jobs : Nat → Job) :
    reports host renderer tree (turn :: rest) jobs =
      ((jobs turn.number).run host renderer tree turn.limits () ()).bind fun step =>
        (reports host renderer tree rest (Function.update jobs turn.number step.job)).map
          (⟨turn.number, step.result, step.job⟩ :: ·) := by
  unfold reports
  rw [runTurns, Option.bind_eq_bind, Option.map_bind]
  refine congrArg (Option.bind _) (funext fun step => ?_)
  dsimp only [Function.comp_apply]
  cases runTurns host renderer tree rest (Function.update jobs turn.number step.job) () () <;> rfl

theorem reports_congr {turns : List Turn} {jobs jobs' : Nat → Job}
    (h : ∀ turn ∈ turns, jobs turn.number = jobs' turn.number) :
    reports host renderer tree turns jobs = reports host renderer tree turns jobs' := by
  induction turns generalizing jobs jobs' with
  | nil => rfl
  | cons turn rest ih =>
    rw [reports_cons, reports_cons, h turn List.mem_cons_self]
    refine congrArg (Option.bind _) (funext fun step => congrArg (Option.map _) (ih ?_))
    intro other hother
    by_cases heq : other.number = turn.number
    · rw [heq, Function.update_self, Function.update_self]
    · rw [Function.update_of_ne heq, Function.update_of_ne heq]
      exact h other (List.mem_cons_of_mem _ hother)

/-- The turns of the other jobs do not matter to a job. -/
theorem reports_filter_update (turns : List Turn) (jobs : Nat → Job) {i j : Nat} (h : i ≠ j)
    (job : Job) :
    reports host renderer tree (turns.filter (·.number = i)) (Function.update jobs j job) =
      reports host renderer tree (turns.filter (·.number = i)) jobs := by
  refine reports_congr host renderer tree fun turn hturn => ?_
  have hnumber : turn.number = i := by simpa using (List.mem_filter.1 hturn).2
  rw [hnumber, Function.update_of_ne h]

theorem reports_filter {turns : List Turn} {jobs : Nat → Job} {all : List Report}
    (h : reports host renderer tree turns jobs = some all) (i : Nat) :
    reports host renderer tree (turns.filter (·.number = i)) jobs =
      some (all.filter (·.number = i)) := by
  induction turns generalizing jobs all with
  | nil =>
    obtain rfl := Option.some.inj h
    rfl
  | cons turn rest ih =>
    rw [reports_cons] at h
    obtain ⟨step, hstep, hmore⟩ := Option.bind_eq_some_iff.1 h
    obtain ⟨others, hothers, rfl⟩ := Option.map_eq_some_iff.1 hmore
    have hrest := ih hothers
    by_cases hturn : turn.number = i
    · rw [List.filter_cons_of_pos (by simpa using hturn),
        List.filter_cons_of_pos (by simpa using hturn), reports_cons, hstep, Option.bind_some,
        hrest]
      rfl
    · rw [List.filter_cons_of_neg (by simpa using hturn),
        List.filter_cons_of_neg (by simpa using hturn), ← hrest,
        reports_filter_update host renderer tree rest jobs (Ne.symm hturn)]

theorem exists_filter_of_none {turns : List Turn} {jobs : Nat → Job}
    (h : reports host renderer tree turns jobs = none) :
    ∃ i, reports host renderer tree (turns.filter (·.number = i)) jobs = none := by
  induction turns generalizing jobs with
  | nil => cases h
  | cons turn rest ih =>
    rw [reports_cons] at h
    cases hstep : (jobs turn.number).run host renderer tree turn.limits () () with
    | none =>
      refine ⟨turn.number, ?_⟩
      rw [List.filter_cons_of_pos (by simp), reports_cons, hstep]
      rfl
    | some step =>
      rw [hstep, Option.bind_some, Option.map_eq_none_iff] at h
      obtain ⟨i, hi⟩ := ih h
      refine ⟨i, ?_⟩
      by_cases hturn : turn.number = i
      · rw [List.filter_cons_of_pos (by simpa using hturn), reports_cons, hstep, Option.bind_some,
          hi]
        rfl
      · rw [List.filter_cons_of_neg (by simpa using hturn),
          ← reports_filter_update host renderer tree rest jobs (Ne.symm hturn) step.job]
        exact hi

end

/-! ## With a log and with documents kept -/

section

variable (m : Memory) (tree : SourceTree) (depth : Nat)

/-- Neither what the host has logged nor what the renderer has kept shows in the reports. -/
theorem reports_eq (turns : List Turn) (jobs : Nat → Job) (log : Memory.Log) {parsed : ParseCache}
    (hparsed : parsed.Valid) :
    reports m.silent (Inline.forgetful depth) tree turns jobs =
      (runTurns m.host (Inline.renderer depth) tree turns jobs log parsed).map Prod.fst := by
  obtain ⟨hrun, -⟩ :=
    runTurns_shows m.host_shows (Inline.forgetful_shows depth) tree turns jobs log hparsed
  unfold reports
  rw [hrun, Option.map_map]
  rfl

theorem isSome_runTurns (turns : List Turn) (jobs : Nat → Job) (log : Memory.Log)
    {parsed : ParseCache} (hparsed : parsed.Valid) :
    (runTurns m.host (Inline.renderer depth) tree turns jobs log parsed).isSome =
      (reports m.silent (Inline.forgetful depth) tree turns jobs).isSome := by
  rw [reports_eq m tree depth turns jobs log hparsed, Option.isSome_map]

/-- What the renderer keeps after some turns is what parsing the texts in turn leaves that it handed
to the parser. -/
theorem exists_recorded {turns : List Turn} {jobs : Nat → Job} {log log' : Memory.Log}
    {all : List Report} {parsed : ParseCache}
    (h : runTurns m.host (Inline.renderer depth) tree turns jobs log {} =
      some (all, log', parsed)) :
    ∃ texts, runTurns m.host (Inline.recorder depth) tree turns jobs log ({}, []) =
        some (all, log', parsed, texts) ∧ parsed = .parseAll {} texts := by
  have hempty : (({}, []) : ParseCache × List String).1 = .parseAll {} [] := rfl
  obtain ⟨hrun, hkeeps⟩ :=
    runTurns_shows m.host.shows_self (Inline.recorder_shows depth) tree turns jobs log hempty
  have hmap := hrun.symm.trans h
  obtain ⟨⟨all', log'', parsed', texts⟩, hrecorded, hanswer⟩ := Option.map_eq_some_iff.1 hmap
  obtain ⟨rfl, hrest⟩ := Prod.mk.inj hanswer
  obtain ⟨rfl, rfl⟩ := Prod.mk.inj hrest
  exact ⟨texts, hrecorded, hkeeps _ hrecorded⟩

/-- Jobs that share a host in memory and a renderer end just if each of them ends when it has a host
and a renderer for itself, and then each of them reports the same. The renderer then keeps as many
documents as there are different texts that parse among those it handed to the parser, also if it
keeps them by a digest that tells these texts apart. -/
theorem runTurns_independent (turns : List Turn) (jobs : Nat → Job) (log : Memory.Log) :
    ((runTurns m.host (Inline.renderer depth) tree turns jobs log {}).isSome ↔
        ∀ i, (runTurns m.host (Inline.renderer depth) tree (turns.filter (·.number = i)) jobs {}
          {}).isSome) ∧
      ∀ all log' parsed,
        runTurns m.host (Inline.renderer depth) tree turns jobs log {} = some (all, log', parsed) →
        (∀ i, ∃ log'' parsed'',
          runTurns m.host (Inline.renderer depth) tree (turns.filter (·.number = i)) jobs {} {} =
            some (all.filter (·.number = i), log'', parsed'')) ∧
        ∃ texts, runTurns m.host (Inline.recorder depth) tree turns jobs log ({}, []) =
            some (all, log', parsed, texts) ∧
          parsed.size = (texts.filter fun text => ParseCache.Parses text).toFinset.card ∧
          ∀ digest, Set.InjOn digest {text | text ∈ texts} →
            (ParseCache.answersBy digest {} texts).1 =
                texts.map (fun text => StyleWeave.parse text.toList) ∧
              (ParseCache.answersBy digest {} texts).2.size = parsed.size := by
  have hvalid := Inline.ParseCache.valid_empty
  constructor
  · rw [isSome_runTurns m tree depth turns jobs log hvalid]
    constructor
    · intro hends i
      obtain ⟨all, hall⟩ := Option.isSome_iff_exists.1 hends
      rw [isSome_runTurns m tree depth _ jobs {} hvalid, reports_filter _ _ _ hall i]
      rfl
    · intro hends
      by_contra hnot
      obtain ⟨i, hi⟩ := exists_filter_of_none _ _ _ (Option.not_isSome_iff_eq_none.1 hnot)
      have hsolo := hends i
      rw [isSome_runTurns m tree depth _ jobs {} hvalid, hi] at hsolo
      cases hsolo
  · intro all log' parsed hrun
    refine ⟨fun i => ?_, ?_⟩
    · have hall := reports_eq m tree depth turns jobs log hvalid
      rw [hrun, Option.map_some] at hall
      have hsolo := reports_filter _ _ _ hall i
      rw [reports_eq m tree depth _ jobs {} hvalid] at hsolo
      obtain ⟨⟨reports, log'', parsed''⟩, hrun', rfl⟩ := Option.map_eq_some_iff.1 hsolo
      exact ⟨log'', parsed'', hrun'⟩
    · obtain ⟨texts, hrecorded, rfl⟩ := exists_recorded m tree depth hrun
      refine ⟨texts, hrecorded, ParseCache.size_parseAll texts, fun digest hdigest => ?_⟩
      exact ParseCache.answersBy_of_injOn hdigest

end

/-- A document with an import, and one that is malformed. -/
def soundAndBroken : Nat → Job
  | 0 => create ⟨"/app/main.styl"⟩ "@import '~pkg.styl'\n" { prefetch := false }
  | _ => create ⟨"/app/broken.styl"⟩ "x = (\n" {}

/-- The malformed document fails between two runs of the other one, which ends twice. -/
theorem runTurns_independent_soundAndBroken :
    ∃ all log parsed,
      runTurns onePackage.host (Inline.renderer 2) onePackage.tree
          [⟨0, ⟨2, 2⟩⟩, ⟨1, ⟨2, 2⟩⟩, ⟨0, ⟨2, 2⟩⟩] soundAndBroken {} {} = some (all, log, parsed) ∧
        all.map (·.result.isOk) = [true, false, true] ∧ parsed.size = 2 ∧
        ∃ log' parsed',
          runTurns onePackage.host (Inline.renderer 2) onePackage.tree
              [⟨0, ⟨2, 2⟩⟩, ⟨0, ⟨2, 2⟩⟩] soundAndBroken {} {} =
            some (all.filter (·.number = 0), log', parsed') := by
  have hrun : (runTurns onePackage.host (Inline.renderer 2) onePackage.tree
      [⟨0, ⟨2, 2⟩⟩, ⟨1, ⟨2, 2⟩⟩, ⟨0, ⟨2, 2⟩⟩] soundAndBroken {} {}).map
        (fun answer => (answer.1.map (·.result.isOk), answer.2.2.size)) =
      some ([true, false, true], 2) := by
    decide +kernel
  obtain ⟨⟨all, log, parsed⟩, ran, hanswer⟩ := Option.map_eq_some_iff.1 hrun
  obtain ⟨hresults, hsize⟩ := Prod.mk.inj hanswer
  obtain ⟨hsolo, -⟩ :=
    (runTurns_independent onePackage onePackage.tree 2 _ soundAndBroken {}).2 all log parsed ran
  exact ⟨all, log, parsed, ran, hresults, hsize, hsolo 0⟩

end Job

end StyleWeave
