import Mathlib.Data.List.Dedup
import Mathlib.Data.List.Perm.Subperm
import StyleWeave.Host.Memory
import StyleWeave.Proofs.Job.Rounds
import StyleWeave.Render.Script

/-!
# Every retry makes progress

A job calls its renderer again only if it has just resolved a reference that it had never resolved
before. So however often a job is run, and whatever its hosts and renderers do, it makes at most
one call for each run and one for each reference that renders have reported.

`Advances` says what lies between two calls of a run, `Converges.kept` what a run leaves of the
references attempted, and `History` is a job with the runs it has been through.
-/

namespace StyleWeave

variable {σ ρ : Type}

namespace Reference

/-- What makes two references equal. -/
def identity (r : Reference) : List Path.Component × String :=
  (r.context.components, r.request)

theorem beq_iff_identity {a b : Reference} : a == b ↔ a.identity = b.identity := by
  simp [beq_iff, identity]

/-- How many different references there are among some. -/
def distinct (keys : List Reference) : Nat :=
  (keys.map identity).dedup.length

/-- References of which no two are equal are at most as many as there are different ones among any
that hold equal ones to all of them. -/
theorem length_le_distinct {keys all : List Reference}
    (h : keys.Pairwise fun a b => (a == b) = false)
    (hall : ∀ k ∈ keys, ∃ k' ∈ all, k == k') : keys.length ≤ distinct all := by
  have hnd : (keys.map identity).Nodup := by
    rw [List.Nodup, List.pairwise_map]
    refine h.imp fun {a b} hab heq => ?_
    rw [← beq_iff_identity, hab] at heq
    exact absurd heq (by simp)
  have hsub : keys.map identity ⊆ (all.map identity).dedup := by
    intro i hi
    obtain ⟨k, hk, rfl⟩ := List.mem_map.1 hi
    obtain ⟨k', hk', heq⟩ := hall k hk
    rw [List.mem_dedup, beq_iff_identity.1 heq]
    exact List.mem_map_of_mem hk'
  simpa [distinct] using (List.subperm_of_subset hnd hsub).length_le

theorem length_le_of_subset {keys all : List Reference}
    (h : keys.Pairwise fun a b => (a == b) = false) (hall : keys ⊆ all) :
    keys.length ≤ all.length := by
  have hnodup : keys.Nodup := by
    refine h.imp fun {a b} hab heq => ?_
    subst heq
    simp at hab
  exact (List.subperm_of_subset hnodup hall).length_le

/-- If each element of a list holds some of the references, and no two elements hold equal ones,
then the elements are at most as many as the references. -/
theorem length_le_of_holds {α : Type} {l : List α} {keys : List Reference}
    {R : α → Reference → Prop} (hex : ∀ a ∈ l, ∃ key ∈ keys, R a key)
    (hdiffer : l.Pairwise fun a b => ∀ key key', R a key → R b key' → (key == key') = false) :
    l.length ≤ keys.length := by
  choose! key hmem hholds using hex
  have hpair : (l.map key).Pairwise fun a b => (a == b) = false := by
    rw [List.pairwise_map]
    exact hdiffer.imp_of_mem fun ha hb h => h _ _ (hholds _ ha) (hholds _ hb)
  have hle : (l.map key).length ≤ distinct keys := by
    refine length_le_distinct hpair fun k hk => ?_
    obtain ⟨a, ha, rfl⟩ := List.mem_map.1 hk
    exact ⟨key a, hmem a ha, BEq.refl _⟩
  calc l.length = (l.map key).length := (List.length_map key).symm
    _ ≤ distinct keys := hle
    _ ≤ (keys.map identity).length := (List.dedup_sublist _).length_le
    _ = keys.length := List.length_map identity

end Reference

namespace Job

section

variable {host : Host σ} {renderer : Renderer ρ} {tree : SourceTree} {layers : Nat}
  {job : Job} {s : σ} {r : ρ} {calls : List (Call σ ρ)} {step : JobStep σ ρ Output}

/-- What lies between two calls: the first one reported a reference that was neither cached nor
attempted before, and the second one finds it cached. -/
def Advances (a b : Call σ ρ) : Prop :=
  ∃ pending, a.outcome = .ok (.needsResolution pending) ∧ ¬ a.job.Spent pending.key ∧
    b.job.frontier.cache.contains pending.key = true

theorem Follows.advances {a b : Call σ ρ} (h : Follows host renderer tree layers a b) :
    Advances a b := by
  obtain ⟨pending, hout, hretried⟩ := h.retried
  exact ⟨pending, hout, hretried.fresh, hretried.cached⟩

/-- The job when the reference is to be resolved that an attempt needed. -/
theorem attempt_spent {job' : Job} {r' : ρ} {outcome : Except Failure Outcome}
    (h : job.attempt renderer tree r = some (outcome, job', r')) :
    job'.frontier.queries = job.frontier.queries ∧ job'.attempted = job.attempted ∧
      job'.attempts = job.attempts + 1 ∧ job'.frontier.options = job.frontier.options ∧
      job'.frontier.cache = job.frontier.cache := by
  obtain ⟨found, -, rfl⟩ := attempt_eq_some_iff.1 h
  simp

/-- What a run leaves of the references attempted: they differ from each other, each was attempted
before or reported by a call, and each call but the last has added one. -/
structure Kept (job job' : Job) (calls : List (Call σ ρ)) : Prop where
  guessing : job'.frontier.Guessing
  differ : job'.attempted.Pairwise fun a b => (a == b) = false
  reported : ∀ k ∈ job'.attempted, k ∈ job.attempted ∨ k ∈ calls.filterMap Call.reported?
  attempts : job'.attempts = job.attempts + calls.length
  /-- Each call but the last has added a reference. -/
  grown : job.attempted.length + calls.length ≤ job'.attempted.length + 1

theorem pairwise_cons_attempted {key : Reference} (hs : ¬ job.Spent key)
    (hd : job.attempted.Pairwise fun a b => (a == b) = false) :
    (key :: job.attempted).Pairwise fun a b => (a == b) = false := by
  refine List.pairwise_cons.2 ⟨fun k hk => ?_, hd⟩
  by_contra hne
  exact hs (Or.inr (List.contains_iff_exists_mem_beq.2 ⟨k, hk, by simpa using hne⟩))

theorem Converges.kept (h : Converges host renderer tree layers job s r calls step)
    (hq : job.frontier.queries = [])
    (hd : job.attempted.Pairwise fun a b => (a == b) = false) : Kept job step.job calls := by
  induction h with
  | failed call =>
    obtain ⟨hq₁, hatt, hn, -, -⟩ := attempt_spent call
    refine ⟨by simp [Frontier.Guessing, hq₁, hq], by rwa [hatt], fun k hk => Or.inl (hatt ▸ hk),
      hn, by simp [hatt]⟩
  | rendered call =>
    obtain ⟨hq₁, hatt, hn, -, -⟩ := attempt_spent call
    refine ⟨by simp [finish, Frontier.Guessing, hq₁, hq], by simpa [finish, hatt] using hd,
      fun k hk => Or.inl (hatt ▸ hk), hn, by simp [finish, hatt]⟩
  | @missing _ _ _ _ _ _ _ pending _ call resolve =>
    obtain ⟨hq₁, hatt, hn, -, -⟩ := attempt_spent call
    have ha := resolvePending_answer (by simpa [hq₁] using hq) resolve
    cases ha with
    | spent =>
      refine ⟨by simp [Frontier.Guessing, hq₁, hq], by simpa [hatt] using hd,
        fun k hk => Or.inl (hatt ▸ hk), hn, by simp [hatt]⟩
    | refused fresh grown guessing reads refuses =>
      refine ⟨guessing, pairwise_cons_attempted fresh (by simpa [hatt] using hd), ?_, hn,
        by simp [hatt]⟩
      intro k hk
      rcases List.mem_cons.1 hk with rfl | hk
      · exact Or.inr (by simp [Call.reported?])
      · exact Or.inl (hatt ▸ hk)
  | @retry _ _ _ _ _ _ _ pending rest _ call resolve others ih =>
    obtain ⟨hq₁, hatt, hn, -, -⟩ := attempt_spent call
    have ha := resolvePending_answer (by simpa [hq₁] using hq) resolve
    cases ha with
    | resolved fresh grown idle cached =>
      have hk := ih (Frontier.hasPending_eq_false.1 idle).2
        (pairwise_cons_attempted fresh (by simpa [hatt] using hd))
      refine ⟨hk.guessing, hk.differ, ?_, ?_, ?_⟩
      · intro k hmem
        rcases hk.reported k hmem with h | h
        · rcases List.mem_cons.1 h with rfl | h
          · exact Or.inr (by simp [Call.reported?])
          · exact Or.inl (hatt ▸ h)
        · exact Or.inr (by simp only [List.filterMap_cons, Call.reported?]; simp [h])
      · rw [hk.attempts]
        simp only [List.length_cons]
        omega
      · have hg := hk.grown
        simp only [List.length_cons, hatt] at hg ⊢
        omega

end

/-! ## Histories -/

/-- A job of a host after `n` runs, in which its renderers have reported the references
`reported`. Each run may have another renderer, another source tree and other limits, and the host
may be in any state when it starts. -/
inductive History (host : Host σ) : Nat → List Reference → Job → Prop where
  | create (file : Path) (source : String) (options : Options) :
      History host 0 [] (Job.create file source options)
  | run {ρ : Type} {renderer : Renderer ρ} {tree : SourceTree} {limits : Limits} {n : Nat}
      {reported : List Reference} {job : Job} {s : σ} {r : ρ} {calls : List (Call σ ρ)}
      {step : JobStep σ ρ Output} (before : History host n reported job)
      (ran : job.run host renderer tree limits s r = some step)
      (called : Runs host renderer tree limits.layers job s r calls step) :
      History host (n + 1) (reported ++ calls.filterMap Call.reported?) step.job

theorem settle_job (step : JobStep σ ρ Output) :
    ∃ stage, (settle step).job = { step.job with stage } := by
  unfold settle
  split
  · exact ⟨step.job.stage, rfl⟩
  · exact ⟨.failed, rfl⟩

theorem Runs.kept {host : Host σ} {renderer : Renderer ρ} {tree : SourceTree} {layers : Nat}
    {job : Job} {s : σ} {r : ρ} {calls : List (Call σ ρ)} {step : JobStep σ ρ Output}
    (h : Runs host renderer tree layers job s r calls step) (hg : job.frontier.Guessing)
    (hd : job.attempted.Pairwise fun a b => (a == b) = false) : Kept job step.job calls := by
  obtain ⟨job₁, s₁, step₁, hdrain, hcalls, rfl⟩ := h
  obtain ⟨-, hidle, -, hjob⟩ := drain_enqueueEntry hg hdrain
  have hatt : job₁.attempted = job.attempted := by rw [hjob]; rfl
  have hn : job₁.attempts = job.attempts := by rw [hjob]; rfl
  have hk := hcalls.kept (Frontier.hasPending_eq_false.1 hidle).2 (hatt ▸ hd)
  obtain ⟨stage, hs⟩ := settle_job step₁
  rw [hs]
  exact ⟨hk.guessing, hk.differ, fun k hm => hatt ▸ hk.reported k hm, hn ▸ hk.attempts,
    hatt ▸ hk.grown⟩

/-- What holds of a job after any number of runs. -/
structure Steady (n : Nat) (reported : List Reference) (job : Job) : Prop where
  guessing : job.frontier.Guessing
  differ : job.attempted.Pairwise fun a b => (a == b) = false
  reported : ∀ k ∈ job.attempted, k ∈ reported
  attempts : job.attempts ≤ n + job.attempted.length

theorem History.steady {host : Host σ} {n : Nat} {reported : List Reference} {job : Job}
    (h : History host n reported job) : Steady n reported job := by
  induction h with
  | create file source options =>
    exact ⟨guessing_create file source options, by simp [Job.create], by simp [Job.create],
      by simp [Job.create]⟩
  | run before ran called ih =>
    have hk := called.kept ih.guessing ih.differ
    refine ⟨hk.guessing, hk.differ, fun k hm => ?_, ?_⟩
    · rcases hk.reported k hm with h | h
      · exact List.mem_append_left _ (ih.reported k h)
      · exact List.mem_append_right _ h
    · have hn := hk.attempts
      have hg := hk.grown
      have ha := ih.attempts
      omega

/-- A job makes at most one call for each run and one for each different reference that renders
have reported. And within a run, each call but the last one reported a reference that was neither
cached nor attempted before by the job, and that is cached when the next call is made. -/
theorem attempts_le_runs_add_reported {host : Host σ} {n : Nat} {reported : List Reference}
    {job : Job} (history : History host n reported job) :
    job.attempts ≤ n + Reference.distinct reported ∧
      ∀ {ρ : Type} (renderer : Renderer ρ) (tree : SourceTree) (limits : Limits) (s : σ) (r : ρ)
        (step : JobStep σ ρ Output), job.run host renderer tree limits s r = some step →
        ∃ calls, Runs host renderer tree limits.layers job s r calls step ∧ calls ≠ [] ∧
          step.job.attempts = job.attempts + calls.length ∧ calls.IsChain Advances := by
  have hs := history.steady
  constructor
  · have hle := Reference.length_le_distinct hs.differ
      fun k hk => ⟨k, hs.reported k hk, BEq.refl k⟩
    have := hs.attempts
    omega
  · intro ρ renderer tree limits s r step hrun
    obtain ⟨calls, hcalls, -⟩ := (run_eq_some_iff hs.guessing).1 hrun
    refine ⟨calls, hcalls, ?_, (hcalls.kept hs.guessing hs.differ).attempts, ?_⟩
    · obtain ⟨job₁, s₁, step₁, -, hconv, -⟩ := hcalls
      obtain ⟨outcome, rest, rfl⟩ := hconv.head
      simp
    · exact (hcalls.isChain hs.guessing).imp fun a b h => h.advances

/-- A project in which the host can resolve one package. -/
def onePackage : Memory where
  files := [(⟨"/lib/pkg.styl"⟩, "a\n")]
  routes := [(⟨⟨"/app"⟩, "pkg.styl"⟩, ⟨"/lib/pkg.styl"⟩)]

/-- A renderer that needs the package once, and has nothing to render then. -/
def needingPackage : Script.State where
  entries := [
    ⟨[], fun file => .ok (.needsResolution ⟨⟨⟨"/app"⟩, "pkg.styl"⟩, "~pkg.styl", file⟩)⟩,
    ⟨[], fun _ => .ok (.rendered ⟨"", none⟩)⟩]

/-- The two calls of one run that needs one reference. -/
theorem attempts_onePackage :
    ∃ reported job, History onePackage.host 1 reported job ∧ job.attempts = 2 ∧
      job.attempts ≤ 1 + Reference.distinct reported := by
  have hrun : ((Job.create ⟨"/app/main.styl"⟩ "" { prefetch := false }).run onePackage.host
      Script.renderer onePackage.tree ⟨2, 2⟩ {} needingPackage).map
        (fun step => step.job.attempts) = some 2 := by
    decide +kernel
  obtain ⟨step, ran, hn⟩ := Option.map_eq_some_iff.1 hrun
  have hcreate : History onePackage.host 0 [] _ :=
    .create ⟨"/app/main.styl"⟩ "" { prefetch := false }
  obtain ⟨calls, called, -⟩ := (run_eq_some_iff hcreate.steady.guessing).1 ran
  have hhistory := hcreate.run ran called
  exact ⟨_, _, hhistory, hn, (attempts_le_runs_add_reported hhistory).1⟩

end Job

end StyleWeave
