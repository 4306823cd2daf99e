import StyleWeave.Proofs.Job.Inlining
import StyleWeave.Proofs.Render.Trace

/-!
# The guard against needing a reference twice

A job fails with an inconsistency if a render needs a reference that is cached or was needed before.
The inlining renderer looks a reference up in the cache of its job before it reports it, and by the
next call the job has resolved what was reported. So in the first run of a job the guard lets every
reference through, whatever the host answers (`run_never_inconsistent`).

A run may end with an inconsistency all the same: the source tree may give one as the reason why a
file cannot be read. And a reference that no render has needed may have been tried before, by the
scans (`inconsistent_of_tree`).
-/

namespace StyleWeave

namespace Inline

section

variable {l : Lookup} {w : Whole PathSet} {events : List Event}

/-- A pass over a lookup needs no reference that is cached. -/
theorem Ending.find?_of_pending {pending : Pending}
    (h : Ending w events (.error (.pending pending)))
    (henv : w.env = .ofLocator l.options l.locator) :
    l.cache.find? pending.key = none := by
  generalize hresult : Except.error (Halt.pending pending) = result at h
  cases h with
  | done => cases hresult
  | loop => cases hresult
  | @halted _ halt _ cause =>
    obtain rfl := Except.error.inj hresult
    cases cause with
    | @notLocated importer _ name found _ _ _ h =>
      rw [henv] at h
      have hlocated := congrArg Prod.fst (locateIn_locator l importer name found)
      rw [Lookup.search_eq] at hlocated
      obtain ⟨hlacks, rfl⟩ := located_answer_error (hlocated.symm.trans h)
      exact Cache.contains_eq_false.1 hlacks.not_cached.1
    | notRead _ h =>
      rw [henv] at h
      obtain ⟨failure, -, hfailure⟩ := read_error_of_ofLocator h
      cases hfailure

/-- A pass over a lookup ends with an inconsistency only if the tree answers one for the file that
was included last. -/
theorem Ending.read_of_inconsistent {key : Reference}
    (h : Ending w events (.error (.failed (.consistency key))))
    (henv : w.env = .ofLocator l.options l.locator) :
    ∃ before kind importer file, events = before ++ [.reference kind importer file .included] ∧
      l.tree.read file = .error (.consistency key) := by
  generalize hresult : Except.error (Halt.failed (.consistency key)) = result at h
  cases h with
  | done => cases hresult
  | loop => cases hresult
  | @halted _ halt _ cause =>
    obtain rfl := Except.error.inj hresult
    generalize hhalt : Halt.failed (.consistency key) = halt at cause
    cases cause with
    | tooDeep => cases hhalt
    | malformed => cases hhalt
    | notStatic => cases hhalt
    | notLocated _ _ h =>
      rw [henv] at h
      rcases locate_error_of_ofLocator h with ⟨pending, -, rfl⟩ | rfl <;> cases hhalt
    | @notRead before kind importer file _ _ last h =>
      rw [henv] at h
      obtain ⟨failure, hread, rfl⟩ := read_error_of_ofLocator h
      cases hhalt
      exact ⟨before, kind, importer, file, last, hread⟩

end

end Inline

namespace Job

open Inline (ParseCache)

variable {σ : Type} {host : Host σ} {tree : SourceTree} {layers depth : Nat} {file : Path}
  {source : String} {options : Options} {s : σ} {parsed : ParseCache}
  {calls : List (Call σ ParseCache)} {step : JobStep σ ParseCache Output}

/-- The events of the pass that a call of the inlining renderer makes. -/
def passEvents (tree : SourceTree) (depth : Nat) (call : Call σ ParseCache) : List Inline.Event :=
  Inline.eventsThrough (.ofLocator call.job.frontier.options (call.job.lookup tree).locator) depth
    call.job.file call.job.source .empty call.renderer

/-- How the pass of a call ends. -/
theorem ends_of_pass {call : Call σ ParseCache} {result : Except Inline.Halt Unit}
    (hpass : (Inline.passThrough
      (.ofLocator call.job.frontier.options (call.job.lookup tree).locator) depth call.job.file
      call.job.source .empty call.renderer).1 = result) :
    Inline.Ending
      ⟨.ofLocator (call.job.lookup tree).options (call.job.lookup tree).locator, call.job.file,
        call.job.source, call.renderer, depth⟩ (passEvents tree depth call) result := by
  rw [← hpass]
  exact (Inline.history_through _ depth _ _ _ _).ends Inline.loopless_nil

/-- No call of a first run needs a reference that was resolved or needed before. -/
theorem Runs.not_spent
    (h : Runs host (Inline.renderer depth) tree layers (create file source options) s parsed calls
      step) (hparsed : parsed.Valid) {call : Call σ ParseCache} (hcall : call ∈ calls)
    {pending : Pending} (hout : call.outcome = .ok (.needsResolution pending)) :
    ¬ call.job.Spent pending.key := by
  have hpass := h.pass call hcall
  dsimp only at hpass
  rw [hout, Inline.outcome_eq_needsResolution_iff] at hpass
  exact (h.underway hparsed call hcall).not_spent ((ends_of_pass hpass).find?_of_pending rfl)

/-- A call that fails with an inconsistency has it from the tree, for the file that its pass has
included last. -/
theorem Runs.read_of_inconsistent
    (h : Runs host (Inline.renderer depth) tree layers (create file source options) s parsed calls
      step) {call : Call σ ParseCache} (hcall : call ∈ calls) {key : Reference}
    (hout : call.outcome = .error (.consistency key)) :
    ∃ before kind importer read,
      passEvents tree depth call = before ++ [.reference kind importer read .included] ∧
      tree.read read = .error (.consistency key) := by
  have hpass := h.pass call hcall
  dsimp only at hpass
  rw [hout, Inline.outcome_eq_error_iff] at hpass
  exact (ends_of_pass hpass).read_of_inconsistent rfl

/-- In the first run of a job with the inlining renderer, every reference that a call reports as
missing is neither cached nor was needed before. So the job never refuses to wait for one. If the
run ends with an inconsistency, it is the tree's answer for the file that the last call has included
at its end. -/
theorem run_never_inconsistent (host : Host σ) (tree : SourceTree) (file : Path) (source : String)
    (options : Options) (depth : Nat) (limits : Limits) (s : σ) {parsed : ParseCache}
    (hparsed : parsed.Valid) {step : JobStep σ ParseCache Output}
    (hrun : (create file source options).run host (Inline.renderer depth) tree limits s parsed =
      some step) :
    ∃ calls, Runs host (Inline.renderer depth) tree limits.layers (create file source options) s
        parsed calls step ∧
      (∀ call ∈ calls, ∀ key, call.reported? = some key →
        call.job.frontier.cache.contains key = false ∧ call.job.attempted.contains key = false) ∧
      ∀ key, step.result = .error (.consistency key) →
        ∃ last before kind importer read, calls.getLast? = some last ∧
          passEvents tree depth last = before ++ [.reference kind importer read .included] ∧
          tree.read read = .error (.consistency key) := by
  have hg := guessing_create file source options
  obtain ⟨calls, hcalls, -⟩ := (run_eq_some_iff hg).1 hrun
  refine ⟨calls, hcalls, ?_, ?_⟩
  · intro call hcall key hkey
    obtain ⟨pending, hout, rfl⟩ := Call.reported?_eq_some_iff.1 hkey
    obtain ⟨hcached, hattempted⟩ := not_or.1 (hcalls.not_spent hparsed hcall hout)
    exact ⟨by simpa using hcached, by simpa using hattempted⟩
  · intro key hkey
    obtain ⟨last, hlast, hverdict, -⟩ := hcalls.verdict hg
    have hmem : last ∈ calls := List.mem_of_getLast? hlast
    cases hout : last.outcome with
    | error failure =>
      have hfail := hverdict.failed hout
      rw [hkey] at hfail
      obtain rfl := Except.error.inj hfail
      obtain ⟨before, kind, importer, read, hevents, hread⟩ :=
        hcalls.read_of_inconsistent hmem hout
      exact ⟨last, before, kind, importer, read, hlast, hevents, hread⟩
    | ok outcome =>
      unfold Verdict at hverdict
      rw [hout] at hverdict
      cases outcome with
      | rendered rendered =>
        obtain ⟨output, hok, -⟩ := hverdict
        simp [hkey] at hok
      | needsResolution pending =>
        dsimp only at hverdict
        rw [if_neg (hcalls.not_spent hparsed hmem hout)] at hverdict
        obtain ⟨-, failures, -, -, hfail⟩ := hverdict
        simp [hkey] at hfail

/-- A run that needs a package, which the host then resolves. -/
theorem run_consistent_of_package :
    ∃ step calls, (create ⟨"/app/main.styl"⟩ "@import '~pkg.styl'\n" { prefetch := false }).run
        onePackage.host (Inline.renderer 2) onePackage.tree ⟨2, 2⟩ {} {} = some step ∧
      Runs onePackage.host (Inline.renderer 2) onePackage.tree 2
        (create ⟨"/app/main.styl"⟩ "@import '~pkg.styl'\n" { prefetch := false }) {} {} calls step ∧
      step.job.attempts = 2 ∧
      (∀ call ∈ calls, ∀ key, call.reported? = some key →
        call.job.frontier.cache.contains key = false ∧ call.job.attempted.contains key = false) ∧
      ∀ key, step.result ≠ .error (.consistency key) := by
  have hrun : ((create ⟨"/app/main.styl"⟩ "@import '~pkg.styl'\n" { prefetch := false }).run
      onePackage.host (Inline.renderer 2) onePackage.tree ⟨2, 2⟩ {} {}).map
        (fun step => step.job.attempts) = some 2 := by
    decide +kernel
  obtain ⟨step, ran, hattempts⟩ := Option.map_eq_some_iff.1 hrun
  obtain ⟨calls, hcalls, hnever, htree⟩ := run_never_inconsistent onePackage.host onePackage.tree
    _ _ _ _ _ _ Inline.ParseCache.valid_empty ran
  refine ⟨step, calls, ran, hcalls, hattempts, hnever, fun key hkey => ?_⟩
  obtain ⟨last, before, kind, importer, read, -, -, hread⟩ := htree key hkey
  unfold Memory.tree at hread
  dsimp only at hread
  split at hread <;> cases hread

/-- The reference of an inconsistency. -/
def inconsistency? : Except Failure Output → Option Reference
  | .error (.consistency key) => some key
  | _ => none

theorem eq_of_inconsistency {result : Except Failure Output} {key : Reference}
    (h : inconsistency? result = some key) : result = .error (.consistency key) := by
  unfold inconsistency? at h
  split at h
  · rw [Option.some.inj h]
  · cases h

/-- A tree with one file, which it cannot read because of an inconsistency. -/
def inconsistentTree : SourceTree where
  isFile file := file == ⟨"/app/a.styl"⟩
  read _ := .error (.consistency ⟨⟨"/app"⟩, "./a"⟩)

/-- The first run of a job can end with an inconsistency: with that of the tree. And before a call
reports a reference as missing, the host may have refused its candidates to the scans. -/
theorem inconsistent_of_tree :
    (∃ step key, (create ⟨"/app/main.styl"⟩ "@import 'a'\n" { prefetch := false }).run
        (Memory.host {}) (Inline.renderer 2) inconsistentTree ⟨1, 1⟩ {} {} = some step ∧
      step.result = .error (.consistency key)) ∧
    ∃ job log outcome job' parsed pending,
      (create ⟨"/app/main.styl"⟩ "@import '~pkg'\n" {}).enqueueEntry.drain (Memory.host {}) 2 {} =
        some (.ok (), job, log) ∧
      log.resolveCalls.map Reference.request = ["pkg.styl", "pkg/index.styl"] ∧
      job.attempt (Inline.renderer 1) (Memory.tree {}) {} = some (outcome, job', parsed) ∧
      outcome = .ok (.needsResolution pending) ∧ pending.key.request = "pkg" := by
  constructor
  · have hrun : (((create ⟨"/app/main.styl"⟩ "@import 'a'\n" { prefetch := false }).run
        (Memory.host {}) (Inline.renderer 2) inconsistentTree ⟨1, 1⟩ {} {}).bind
          fun step => inconsistency? step.result).isSome = true := by
      decide +kernel
    obtain ⟨key, hkey⟩ := Option.isSome_iff_exists.1 hrun
    obtain ⟨step, ran, hresult⟩ := Option.bind_eq_some_iff.1 hkey
    exact ⟨step, key, ran, eq_of_inconsistency hresult⟩
  · have hrun : (((create ⟨"/app/main.styl"⟩ "@import '~pkg'\n" {}).enqueueEntry.drain
        (Memory.host {}) 2 {}).bind fun drained =>
          (drained.2.1.attempt (Inline.renderer 1) (Memory.tree {}) {}).map fun attempted =>
            (drained.1.isOk, drained.2.2.resolveCalls.map Reference.request,
              (missing? attempted.1).map fun pending => pending.key.request)) =
        some (true, ["pkg.styl", "pkg/index.styl"], some "pkg") := by
      decide +kernel
    obtain ⟨⟨result, job, log⟩, hdrain, hrest⟩ := Option.bind_eq_some_iff.1 hrun
    obtain ⟨⟨outcome, job', parsed⟩, hattempt, hseen⟩ := Option.map_eq_some_iff.1 hrest
    obtain ⟨hok, hlog, hmissing⟩ := by simpa only [Prod.mk.injEq] using hseen
    obtain ⟨pending, hpending, hrequest⟩ := Option.map_eq_some_iff.1 hmissing
    cases result with
    | error failure => cases hok
    | ok done =>
      exact ⟨job, log, outcome, job', parsed, pending, hdrain, hlog, hattempt,
        eq_of_missing? hpending, hrequest⟩

end Job

end StyleWeave
