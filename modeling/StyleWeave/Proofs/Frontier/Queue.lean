import StyleWeave.Proofs.Frontier.Conservation

/-!
# The queue of references

The queue is a list without duplicates. References are appended in the order in which they are first
queued, and one that is queued again is at most made required, where it stands. `enqueueAll_queries`
says what any number of calls make of a queue, and `flagsSince` collects the flags of the calls for
a reference since it came to wait: it is required when one of them required it (`Marked`).
-/

namespace StyleWeave.Frontier

variable {σ : Type} {host : Host σ} {f f' : Frontier} {s s' : σ} {key : Reference}
variable {queries calls : List Query}

/-- No reference waits twice. -/
def Distinct (queries : List Query) : Prop :=
  queries.Pairwise fun p q => (p.key == q.key) = false

theorem distinct_iff_keys :
    Distinct queries ↔ (queries.map Query.key).Pairwise fun p q => (p == q) = false := by
  rw [List.pairwise_map]
  rfl

theorem isQueued_eq_any (f : Frontier) (key : Reference) :
    f.isQueued key = (f.queries.map Query.key).any (· == key) := by
  rw [List.any_map]
  rfl

theorem wantsQuery_eq (f : Frontier) (key : Reference) :
    f.wantsQuery key = (!f.cache.contains key && !f.isQueued key) :=
  rfl

/-- One of the calls requires the reference. -/
def requires (calls : List Query) (key : Reference) : Bool :=
  calls.any fun q => q.key == key && !q.speculative

/-- What calls make of an entry that waits: required if it was, or if one of them requires it and it
is not resolved meanwhile. -/
def mark (c : Cache) (calls : List Query) (q : Query) : Query :=
  { q with speculative := q.speculative && (c.contains q.key || !requires calls q.key) }

theorem promote_keys (key : Reference) (queries : List Query) :
    (promote key queries).map Query.key = queries.map Query.key := by
  induction queries with
  | nil => rfl
  | cons q rest ih =>
    unfold promote
    split
    · rfl
    · rw [List.map_cons, List.map_cons, ih]

/-- Without duplicates, making a reference required changes just the entries of that reference. -/
theorem promote_of_distinct (h : Distinct queries) (key : Reference) :
    promote key queries =
      queries.map fun q => { q with speculative := q.speculative && !(key == q.key) } := by
  induction queries with
  | nil => rfl
  | cons q rest ih =>
    obtain ⟨hfirst, hrest⟩ := List.pairwise_cons.1 h
    unfold promote
    by_cases hq : q.key == key
    · have hothers : ∀ p ∈ rest,
          { p with speculative := p.speculative && !(key == p.key) } = p := by
        intro p hp
        have hdiffers : (key == p.key) = false := by
          rw [← BEq.congr_left hq]
          exact hfirst p hp
        rw [hdiffers, Bool.not_false, Bool.and_true]
      rw [if_pos hq, List.map_cons, BEq.symm hq, Bool.not_true, Bool.and_false,
        List.map_congr_left hothers, List.map_id']
    · have hother : (key == q.key) = false := by
        rw [Reference.beq_comm]
        exact Bool.eq_false_iff.2 hq
      rw [if_neg hq, List.map_cons, ih hrest, hother, Bool.not_false, Bool.and_true]

theorem enqueueQuery_cache (f : Frontier) (key : Reference) (speculative : Bool) :
    (f.enqueueQuery key speculative).cache = f.cache := by
  obtain ⟨queries, heq, -⟩ := f.enqueueQuery_spec key speculative
  rw [heq]

/-- A call marks the entry of its reference, if that waits, or adds an entry at the end. -/
theorem enqueueQuery_queries (h : Distinct f.queries) (call : Query) :
    (f.enqueueQuery call.key call.speculative).queries =
      f.queries.map (mark f.cache [call]) ++ if f.wantsQuery call.key then [call] else [] := by
  obtain ⟨key, speculative⟩ := call
  have hsame (hkeep : ∀ q ∈ f.queries, mark f.cache [⟨key, speculative⟩] q = q) :
      f.queries.map (mark f.cache [⟨key, speculative⟩]) = f.queries := by
    rw [List.map_congr_left hkeep, List.map_id']
  unfold enqueueQuery
  by_cases hcached : f.cache.contains key = true
  · have hkeep : ∀ q ∈ f.queries, mark f.cache [⟨key, speculative⟩] q = q := by
      intro q _
      by_cases hq : key == q.key
      · have hfound : f.cache.contains q.key = true := by rwa [← f.cache.contains_congr hq]
        simp [mark, hfound]
      · simp [mark, requires, Bool.eq_false_iff.2 hq]
    rw [if_pos hcached, hsame hkeep, if_neg (by simp [wantsQuery, hcached]), List.append_nil]
  · rw [if_neg hcached]
    by_cases hwants : f.wantsQuery key = true
    · have hkeep : ∀ q ∈ f.queries, mark f.cache [⟨key, speculative⟩] q = q := by
        intro q hq
        rw [wantsQuery_eq, Bool.and_eq_true, Bool.not_eq_eq_eq_not, Bool.not_eq_eq_eq_not]
          at hwants
        have hother : (key == q.key) = false := by
          rw [Reference.beq_comm]
          exact Bool.eq_false_iff.2 (List.any_eq_false.1 hwants.2 q hq)
        simp [mark, requires, hother]
      rw [if_pos hwants, if_pos hwants, hsame hkeep]
    · rw [if_neg hwants, if_neg hwants, List.append_nil]
      cases speculative with
      | true =>
        rw [if_pos rfl, hsame fun q _ => by simp [mark, requires]]
      | false =>
        rw [if_neg Bool.false_ne_true]
        dsimp only
        rw [promote_of_distinct h]
        refine List.map_congr_left fun q _ => ?_
        by_cases hq : key == q.key
        · have hfresh : f.cache.contains q.key = false := by
            rw [← f.cache.contains_congr hq]
            exact Bool.eq_false_iff.2 hcached
          simp [mark, requires, hq, hfresh]
        · simp [mark, requires, Bool.eq_false_iff.2 hq]

/-- A call adds an entry at the end, or none. -/
theorem enqueueQuery_keys (f : Frontier) (key : Reference) (speculative : Bool) :
    (f.enqueueQuery key speculative).queries.map Query.key =
      f.queries.map Query.key ++ if f.wantsQuery key then [key] else [] := by
  unfold enqueueQuery
  by_cases hcached : f.cache.contains key = true
  · have hwants : f.wantsQuery key = false := by simp [wantsQuery, hcached]
    rw [if_pos hcached, hwants]
    simp
  · rw [if_neg hcached]
    by_cases hwants : f.wantsQuery key = true
    · rw [if_pos hwants, if_pos hwants, List.map_append]
      rfl
    · rw [if_neg hwants, if_neg hwants, List.append_nil]
      split
      · rfl
      · exact promote_keys key f.queries

theorem Distinct.enqueueQuery (h : Distinct f.queries) (key : Reference) (speculative : Bool) :
    Distinct (f.enqueueQuery key speculative).queries := by
  rw [distinct_iff_keys] at h ⊢
  rw [enqueueQuery_keys]
  split
  · next hwants =>
    rw [wantsQuery_eq, Bool.and_eq_true, Bool.not_eq_eq_eq_not, Bool.not_eq_eq_eq_not] at hwants
    refine List.pairwise_append.2 ⟨h, List.pairwise_singleton _ _, fun p hp q hq => ?_⟩
    obtain ⟨entry, hentry, rfl⟩ := List.mem_map.1 hp
    rw [List.mem_singleton.1 hq]
    exact Bool.eq_false_iff.2 (List.any_eq_false.1 hwants.2 entry hentry)
  · rwa [List.append_nil]

theorem wantsQuery_enqueueQuery (f : Frontier) (key other : Reference) (speculative : Bool) :
    (f.enqueueQuery key speculative).wantsQuery other =
      (f.wantsQuery other && !(f.wantsQuery key && key == other)) := by
  rw [wantsQuery_eq, wantsQuery_eq f other, enqueueQuery_cache, isQueued_eq_any,
    enqueueQuery_keys, List.any_append, ← isQueued_eq_any]
  cases f.cache.contains other <;> cases f.isQueued other <;> cases f.wantsQuery key <;> simp

/-! ## Several calls -/

/-- Queue references in turn, each as speculative or required. -/
def enqueueAll (f : Frontier) (calls : List Query) : Frontier :=
  calls.foldl (fun f q => f.enqueueQuery q.key q.speculative) f

/-- The references among those of some calls that are to be added to the queue, each once, in the
order of their first calls. -/
def additions (f : Frontier) (calls : List Query) : List Reference :=
  ((calls.map Query.key).filter f.wantsQuery).eraseDups

theorem additions_cons (f : Frontier) (call : Query) (rest : List Query) :
    f.additions (call :: rest) =
      (if f.wantsQuery call.key then [call.key] else []) ++
        (f.enqueueQuery call.key call.speculative).additions rest := by
  unfold additions
  rw [List.map_cons, List.filter_cons]
  by_cases hwants : f.wantsQuery call.key = true
  · have hothers : (f.enqueueQuery call.key call.speculative).wantsQuery =
        fun key => !(key == call.key) && f.wantsQuery key := by
      funext key
      rw [wantsQuery_enqueueQuery, hwants, Bool.true_and, Bool.and_comm, Reference.beq_comm]
    rw [if_pos hwants, if_pos hwants, List.eraseDups_cons, List.filter_filter, hothers]
    rfl
  · have hsame : (f.enqueueQuery call.key call.speculative).wantsQuery = f.wantsQuery := by
      funext key
      rw [wantsQuery_enqueueQuery, Bool.eq_false_iff.2 hwants, Bool.false_and, Bool.not_false,
        Bool.and_true]
    rw [if_neg hwants, if_neg hwants, hsame]
    rfl

theorem Distinct.enqueueImports (h : Distinct f.queries) (imports : List FoundImport) :
    Distinct (f.enqueueImports imports).queries := by
  induction imports generalizing f with
  | nil => exact h
  | cons i rest ih => exact ih (h.enqueueQuery _ true)

theorem Distinct.flushVisits (h : Distinct f.queries) (host : Host σ) (s : σ) :
    Distinct (flushVisits host f s).1.queries := by
  have hscans (scans : List (Path × Option (List FoundImport))) {f : Frontier}
      (h : Distinct f.queries) : Distinct (scans.foldl takeScan f).queries := by
    induction scans generalizing f with
    | nil => exact h
    | cons scan rest ih =>
      refine ih ?_
      unfold takeScan
      split
      · exact h
      · exact Distinct.enqueueImports (f := { f with
          ledger.scans := f.ledger.scans + 1
          dependencies := f.dependencies.insert scan.1 }) h _
  rw [flushVisits_eq]
  exact hscans _ h

theorem Distinct.drain {layers : Nat} {result : Except Failure Unit} (h : Distinct f.queries)
    (hd : drain host layers f s = some (result, f', s')) : Distinct f'.queries := by
  refine (drains_of_drain hd).keeps (P := fun f => Distinct f.queries) ?_ ?_ h
  · intro f s h
    exact h.flushVisits host s
  · intro f f' s s' q rest result h hqueries hr
    rw [hqueries] at h
    rw [hr.extends.2]
    exact (List.pairwise_cons.1 h).2

/-- The flags with which a call queues a reference. If the reference is resolved, it does not. -/
def Call.flags (f : Frontier) (key : Reference) : Call → List Bool
  | .enqueueQuery other speculative =>
    if other == key && !f.cache.contains key then [speculative] else []
  | _ => []

/-- The flags with which some calls in turn queue a reference, from the one on by which it came to
wait; `flags` are those of the calls before. What a drain queues by itself is speculative. -/
def flagsSince (host : Host σ) (key : Reference) : List Call → Frontier → σ → List Bool → List Bool
  | [], _, _, flags => flags
  | call :: rest, f, s, flags =>
    match call.run host f s with
    | none => flags
    | some (f', s') =>
      flagsSince host key rest f' s'
        ((if f.isQueued key then flags else []) ++ call.flags f key)

/-- No reference waits twice, and those are required of which a flag says so. -/
structure Marked (f : Frontier) (flags : Reference → List Bool) : Prop where
  distinct : Distinct f.queries
  required : ∀ q ∈ f.queries, q.speculative = false ↔ false ∈ flags q.key

theorem isQueued_of_mem {q : Query} (hq : q ∈ f.queries) : f.isQueued q.key = true :=
  List.any_eq_true.2 ⟨q, hq, BEq.refl _⟩

/-- Calls that leave the queue as it is. -/
theorem Marked.unqueued {flags : Reference → List Bool} (h : Marked f flags) {call : Call}
    (hqueries : f'.queries = f.queries) (hflags : ∀ key, call.flags f key = []) :
    Marked f' fun key => (if f.isQueued key then flags key else []) ++ call.flags f key where
  distinct := hqueries ▸ h.distinct
  required q hq := by
    rw [hqueries] at hq
    rw [hflags, List.append_nil, if_pos (isQueued_of_mem hq)]
    exact h.required q hq

theorem Marked.call {flags : Reference → List Bool} (h : Marked f flags) {call : Call}
    (hrun : call.run host f s = some (f', s')) :
    Marked f' fun key => (if f.isQueued key then flags key else []) ++ call.flags f key := by
  cases call with
  | enqueueVisit file text =>
    cases hrun
    exact h.unqueued (enqueueVisit_queries f file text) fun _ => rfl
  | addDependencies files =>
    cases hrun
    exact h.unqueued (addDependencies_queries f files) fun _ => rfl
  | resolve key speculative =>
    rcases hr : Frontier.resolve host key speculative f s with ⟨result, f₁, s₁⟩
    rw [Call.run, hr] at hrun
    cases hrun
    exact h.unqueued (resolution_of_resolve hr).extends.2 fun _ => rfl
  | enqueueQuery key speculative =>
    cases hrun
    refine ⟨h.distinct.enqueueQuery key speculative, fun q hq => ?_⟩
    rw [enqueueQuery_queries h.distinct ⟨key, speculative⟩] at hq
    rcases List.mem_append.1 hq with hq | hq
    · obtain ⟨p, hp, rfl⟩ := List.mem_map.1 hq
      have hwas := h.required p hp
      show (mark f.cache [⟨key, speculative⟩] p).speculative = false ↔
        false ∈ (if f.isQueued p.key then flags p.key else []) ++
          (Call.enqueueQuery key speculative).flags f p.key
      rw [if_pos (isQueued_of_mem hp), List.mem_append, ← hwas]
      unfold mark requires Call.flags
      cases p.speculative <;> cases f.cache.contains p.key <;> cases key == p.key <;>
        cases speculative <;> simp
    · split at hq
      · next hwants =>
        rw [List.mem_singleton.1 hq]
        rw [wantsQuery_eq, Bool.and_eq_true, Bool.not_eq_eq_eq_not, Bool.not_eq_eq_eq_not]
          at hwants
        dsimp only at hwants ⊢
        unfold Call.flags
        rw [hwants.1, hwants.2]
        cases speculative <;> simp
      · cases hq
  | drain layers =>
    obtain ⟨⟨result, f₁, s₁⟩, hd, heq⟩ := Option.map_eq_some_iff.1 hrun
    cases heq
    refine ⟨h.distinct.drain hd, fun q hq => ?_⟩
    rw [show (Call.drain layers).flags f q.key = [] from rfl, List.append_nil]
    rcases (drains_of_drain hd).conserves with ⟨-, -, hnone, -⟩ |
      ⟨served, key, behind, found, dropped, message, -, hbefore, -, hbehind, hfound, -⟩
    · rw [hnone] at hq
      cases hq
    · rw [hbehind] at hq
      rcases List.mem_append.1 hq with hq | hq
      · have hwaited : q ∈ f.queries := by
          rw [hbefore]
          exact List.mem_append_right _ (List.mem_cons_of_mem _ hq)
        rw [if_pos (isQueued_of_mem hwaited)]
        exact h.required q hwaited
      · obtain ⟨hguess, hfresh⟩ := hfound q hq
        simp [hguess, hfresh]

theorem Marked.runAll {flags : Reference → List Bool} {history : List Call} (h : Marked f flags)
    (hrun : runAll host history f s = some (f', s')) :
    Marked f' fun key => flagsSince host key history f s (flags key) := by
  induction history generalizing f s flags with
  | nil =>
    cases hrun
    exact h
  | cons call rest ih =>
    obtain ⟨⟨f₁, s₁⟩, hcall, hrest⟩ := Option.bind_eq_some_iff.1 hrun
    have hkeys : ∀ key, flagsSince host key (call :: rest) f s (flags key) =
        flagsSince host key rest f₁ s₁
          ((if f.isQueued key then flags key else []) ++ call.flags f key) := by
      intro key
      rw [flagsSince, hcall]
    simp only [hkeys]
    exact ih (h.call hcall) hrest

end StyleWeave.Frontier
