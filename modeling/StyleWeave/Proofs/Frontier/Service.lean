import StyleWeave.Proofs.Frontier.Queue

/-!
# First in, first out

A drain serves the queue in turns. In each the first reference leaves the queue and is resolved, and
what is known by then decides what the host is asked for (`Turn.questions`). What the scans of a
layer find comes to wait behind the queue (`newcomers`). `Service` records all turns of a drain and
all references that its scans have found. The references that waited, followed by those found, are
those that had their turn, followed by those that still wait (`Service.queries`): so the queue is
served first in, first out, and the host is asked for one reference after the other
(`queue_in_order`).
-/

namespace StyleWeave.Frontier

variable {σ : Type} {host : Host σ} {f f' : Frontier} {s s' : σ}

/-! ## Turns -/

/-- A reference at the head of the queue has its turn. -/
structure Turn (σ : Type) where
  query : Query
  /-- What is cached at that moment. -/
  cache : Cache
  /-- The state of the host at that moment. -/
  state : σ

/-- What the host is asked for in a turn: nothing if the reference is cached, and else its
candidates in their order, up to the first that the host resolves. -/
def Turn.questions (host : Host σ) (dialect : Dialect) (t : Turn σ) : List Reference :=
  if t.cache.contains t.query.key then []
  else
    (host.asked t.query.key.context (dialect.candidates t.query.key.request) t.state).map
      (⟨t.query.key.context, ·⟩)

/-- The queue is served turn by turn, until it is empty or a reference fails. -/
inductive Serves (host : Host σ) :
    Frontier → σ → List (Turn σ) → Except Failure Unit → Frontier → σ → Prop where
  | done {f : Frontier} {s : σ} (none : f.queries = []) : Serves host f s [] (.ok ()) f s
  | failed {f f' : Frontier} {s s' : σ} {q : Query} {rest : List Query} {failure : Failure}
      (head : f.queries = q :: rest)
      (resolved : resolve host q.key q.speculative { f with queries := rest } s =
        (.error failure, f', s')) :
      Serves host f s [⟨q, f.cache, s⟩] (.error failure) f' s'
  | next {f f₁ f' : Frontier} {s s₁ s' : σ} {q : Query} {rest : List Query} {found : Option Path}
      {turns : List (Turn σ)} {result : Except Failure Unit} (head : f.queries = q :: rest)
      (resolved : resolve host q.key q.speculative { f with queries := rest } s =
        (.ok found, f₁, s₁))
      (others : Serves host f₁ s₁ turns result f' s') :
      Serves host f s (⟨q, f.cache, s⟩ :: turns) result f' s'

/-- How turns end: with an empty queue, or with a required reference that fails. -/
def Ended (turns : List (Turn σ)) (result : Except Failure Unit) (f' : Frontier) : Prop :=
  (result = .ok () ∧ f'.queries = []) ∨
    (result.isOk = false ∧ ∃ before last, turns = before ++ [last] ∧
      last.query.speculative = false)

/-- The references leave the queue in its order, and none comes to wait meanwhile. -/
theorem Serves.queries {turns : List (Turn σ)} {result : Except Failure Unit}
    (h : Serves host f s turns result f' s') :
    f.queries = turns.map Turn.query ++ f'.queries := by
  induction h with
  | done none =>
    rw [none]
    rfl
  | failed head resolved =>
    rw [head, (resolution_of_resolve resolved).extends.2]
    rfl
  | next head resolved _ ih =>
    rw [head, List.map_cons, List.cons_append, ← ih, (resolution_of_resolve resolved).extends.2]

theorem Serves.ended {turns : List (Turn σ)} {result : Except Failure Unit}
    (h : Serves host f s turns result f' s') : Ended turns result f' := by
  induction h with
  | done none => exact Or.inl ⟨rfl, none⟩
  | failed _ resolved =>
    refine Or.inr ⟨rfl, [], _, rfl, ?_⟩
    cases resolution_of_resolve resolved with
    | refused required => exact required
  | next _ _ _ ih =>
    rcases ih with hdone | ⟨hfails, before, last, rfl, hrequired⟩
    · exact Or.inl hdone
    · exact Or.inr ⟨hfails, _ :: before, last, rfl, hrequired⟩

/-! ## Scans -/

/-- The references of the imports that a scan has found. -/
def scanned (options : Options) (scan : Path × Option (List FoundImport)) : List Query :=
  (scan.2.getD []).map fun i => ⟨⟨i.context, options.requestFor i.name⟩, true⟩

/-- The references that the scans of the waiting documents add to the queue: those of the imports
that are neither cached nor queued, each once, in the order in which they are met. -/
def newcomers (host : Host σ) (f : Frontier) (s : σ) : List Reference :=
  f.additions
    ((scanBatch host f.options (takeVisits f.visits f).1 s).1.flatMap (scanned f.options))

/-- A speculative call adds an entry at the end, or does nothing. -/
theorem enqueueQuery_guess (f : Frontier) (key : Reference) :
    (f.enqueueQuery key true).queries =
      f.queries ++ (if f.wantsQuery key then [key] else []).map (⟨·, true⟩) := by
  unfold enqueueQuery
  by_cases hcached : f.cache.contains key = true
  · have hwants : f.wantsQuery key = false := by simp [wantsQuery, hcached]
    rw [if_pos hcached, hwants]
    simp
  · rw [if_neg hcached]
    by_cases hwants : f.wantsQuery key = true
    · rw [if_pos hwants, if_pos hwants]
      rfl
    · rw [if_neg hwants, if_pos rfl, if_neg hwants]
      exact (List.append_nil _).symm

/-- Speculative calls only add to the queue. -/
theorem enqueueAll_guesses {calls : List Query} (h : ∀ q ∈ calls, q.speculative = true)
    (f : Frontier) :
    (f.enqueueAll calls).queries = f.queries ++ (f.additions calls).map (⟨·, true⟩) := by
  induction calls generalizing f with
  | nil => exact (List.append_nil _).symm
  | cons call rest ih =>
    obtain ⟨key, speculative⟩ := call
    obtain rfl : speculative = true := h _ List.mem_cons_self
    show ((f.enqueueQuery key true).enqueueAll rest).queries = _
    rw [ih (fun q hq => h q (List.mem_cons_of_mem _ hq)), enqueueQuery_guess, additions_cons,
      List.map_append, List.append_assoc]

theorem additions_append (f : Frontier) (calls others : List Query) :
    f.additions (calls ++ others) =
      f.additions calls ++ (f.enqueueAll calls).additions others := by
  induction calls generalizing f with
  | nil => rfl
  | cons call rest ih =>
    rw [List.cons_append, additions_cons, additions_cons, ih, List.append_assoc]
    rfl

theorem enqueueQuery_options (f : Frontier) (key : Reference) (speculative : Bool) :
    (f.enqueueQuery key speculative).options = f.options := by
  obtain ⟨queries, heq, -⟩ := f.enqueueQuery_spec key speculative
  rw [heq]

theorem enqueueImports_eq (f : Frontier) (file : Path) (imports : List FoundImport) :
    f.enqueueImports imports = f.enqueueAll (scanned f.options (file, some imports)) := by
  induction imports generalizing f with
  | nil => rfl
  | cons i rest ih =>
    have hrest := ih (f.enqueueQuery ⟨i.context, f.options.requestFor i.name⟩ true)
    rw [enqueueQuery_options] at hrest
    exact hrest

theorem queries_foldl_takeScan (scans : List (Path × Option (List FoundImport))) (f : Frontier) :
    (scans.foldl takeScan f).queries =
      f.queries ++ (f.additions (scans.flatMap (scanned f.options))).map (⟨·, true⟩) := by
  induction scans generalizing f with
  | nil => exact (List.append_nil _).symm
  | cons scan rest ih =>
    obtain ⟨file, imports⟩ := scan
    cases imports with
    | none => exact ih f
    | some imports =>
      -- The record of the work is no part of what the queue depends on.
      let g : Frontier := { f with
        ledger.scans := f.ledger.scans + 1
        dependencies := f.dependencies.insert file }
      have hguesses : ∀ q ∈ scanned f.options (file, some imports), q.speculative = true := by
        intro q hq
        obtain ⟨i, -, rfl⟩ := List.mem_map.1 hq
        rfl
      have htaken : takeScan f (file, some imports) =
          g.enqueueAll (scanned f.options (file, some imports)) :=
        enqueueImports_eq g file imports
      have hoptions : (takeScan f (file, some imports)).options = f.options :=
        (noted_takeScan f (file, some imports)).options
      rw [List.foldl_cons, ih, hoptions, htaken, enqueueAll_guesses hguesses, List.flatMap_cons,
        show f.additions _ = g.additions _ from rfl, additions_append, List.map_append,
        ← List.append_assoc]

/-- What the scans of the waiting documents find comes to wait behind the queue. -/
theorem queries_flushVisits (host : Host σ) (f : Frontier) (s : σ) :
    (flushVisits host f s).1.queries = f.queries ++ (newcomers host f s).map (⟨·, true⟩) := by
  rw [flushVisits_eq]
  exact queries_foldl_takeScan _ { f with
    visits := [], visited := f.visited ++ (takeVisits f.visits f).1.map Visit.file }

/-! ## Drains -/

/-- A drain, layer by layer, with the references that its scans find and the turns in which the
queue is served. -/
inductive Service (host : Host σ) : Frontier → σ → List Reference → List (Turn σ) →
    Except Failure Unit → Frontier → σ → Prop where
  | idle {f : Frontier} {s : σ} (idle : f.hasPending = false) :
      Service host f s [] [] (.ok ()) f s
  | failed {f f' : Frontier} {s s' : σ} {turns : List (Turn σ)} {failure : Failure}
      (pending : f.hasPending = true)
      (serves : Serves host (flushVisits host f s).1 (flushVisits host f s).2 turns
        (.error failure) f' s') :
      Service host f s (newcomers host f s) turns (.error failure) f' s'
  | layer {f f₁ f' : Frontier} {s s₁ s' : σ} {found : List Reference}
      {turns turns' : List (Turn σ)} {result : Except Failure Unit} (pending : f.hasPending = true)
      (serves : Serves host (flushVisits host f s).1 (flushVisits host f s).2 turns (.ok ()) f₁ s₁)
      (others : Service host f₁ s₁ found turns' result f' s') :
      Service host f s (newcomers host f s ++ found) (turns ++ turns') result f' s'

/-- First in, first out: those that waited and then those found have their turns in this order, and
the last of them still wait. -/
theorem Service.queries {found : List Reference} {turns : List (Turn σ)}
    {result : Except Failure Unit} (h : Service host f s found turns result f' s') :
    f.queries ++ found.map (⟨·, true⟩) = turns.map Turn.query ++ f'.queries := by
  induction h with
  | idle => exact List.append_nil _
  | failed _ serves => rw [← queries_flushVisits, serves.queries]
  | layer _ serves others ih =>
    rcases serves.ended with ⟨-, hnone⟩ | ⟨hfails, -⟩
    · rw [hnone, List.nil_append] at ih
      rw [List.map_append, ← List.append_assoc, ← queries_flushVisits, serves.queries, hnone,
        List.append_nil, ih, List.map_append, List.append_assoc]
    · cases hfails

theorem Service.ended {found : List Reference} {turns : List (Turn σ)}
    {result : Except Failure Unit} (h : Service host f s found turns result f' s') :
    Ended turns result f' := by
  induction h with
  | idle idle => exact Or.inl ⟨rfl, (hasPending_eq_false.1 idle).2⟩
  | failed _ serves => exact serves.ended
  | @layer _ _ _ _ _ _ _ turns _ _ _ _ _ ih =>
    rcases ih with hdone | ⟨hfails, before, last, rfl, hrequired⟩
    · exact Or.inl hdone
    · exact Or.inr ⟨hfails, turns ++ before, last, (List.append_assoc _ _ _).symm, hrequired⟩

end StyleWeave.Frontier
