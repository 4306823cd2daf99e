import StyleWeave.Proofs.Frontier.Session

/-!
# What the host is asked for

A host is asked for the candidates of a reference, and these are references themselves. Whether the
reference is cached is looked up before the host is asked, but whether a candidate is cached is not.
So the host may be asked for what it has answered before: `./a` asks for `./a.styl`, though that
was resolved under its own name (`asked_again_twoSpellings`).

A `Call` is one request to a frontier, and `transcript` lists what the host is asked for in a
sequence of calls, together with what was cached at each of these moments. It lists what a host
that keeps a record is asked for (`runAll_recorded`). `asked_while_cached` says when the host is
asked for a cached reference, and that a host which keeps to its answers is asked so no more than
once for each reference that is resolved.
-/

namespace StyleWeave

variable {σ : Type}

/-- A question to the host's resolver, with what was known when it was put. -/
structure Inquiry where
  /-- What was cached at that moment. -/
  cache : Cache
  /-- The reference that is being resolved. -/
  cause : Reference
  /-- The candidate of its request that the host is asked for. -/
  request : String

namespace Inquiry

/-- The reference that the host is asked for. -/
def key (i : Inquiry) : Reference :=
  ⟨i.cause.context, i.request⟩

/-- The answer is in the cache. -/
def isRepeated (i : Inquiry) : Bool :=
  i.cache.contains i.key

end Inquiry

namespace Host

/-- Those of some requests from one context that the host is asked for, up to the first that it
resolves. -/
def asked (host : Host σ) (context : Path) : List String → σ → List String
  | [], _ => []
  | request :: rest, s =>
    match host.resolve s ⟨context, request⟩ with
    | (.ok _, _) => [request]
    | (.error _, s) => request :: asked host context rest s

/-- The host with a record of the references that it is asked to resolve. -/
def recorded (host : Host σ) : Host (σ × List Reference) where
  resolve s key :=
    let (result, s') := host.resolve s.1 key
    (result, s', s.2 ++ [key])
  read s file :=
    let (result, s') := host.read s.1 file
    (result, s', s.2)
  depend s file := (host.depend s.1 file, s.2)

theorem asked_subset (host : Host σ) (context : Path) (requests : List String) (s : σ) :
    host.asked context requests s ⊆ requests := by
  induction requests generalizing s with
  | nil => exact List.nil_subset _
  | cons request rest ih =>
    unfold asked
    rcases host.resolve s ⟨context, request⟩ with ⟨failure | target, s'⟩
    · exact List.cons_subset_cons _ (ih s')
    · simp

end Host

namespace Frontier

/-! ## Calls -/

/-- What the host is asked for when a reference is resolved. -/
def inquiries (host : Host σ) (key : Reference) (f : Frontier) (s : σ) : List Inquiry :=
  if f.cache.contains key then []
  else
    (host.asked key.context (f.options.dialect.candidates key.request) s).map (⟨f.cache, key, ·⟩)

/-- What the host is asked for when the references of a queue are resolved. -/
def queueInquiries (host : Host σ) : List Query → Frontier → σ → List Inquiry
  | [], _, _ => []
  | q :: rest, f, s =>
    inquiries host q.key f s ++
      match resolve host q.key q.speculative { f with queries := rest } s with
      | (.ok _, f, s) => queueInquiries host rest f s
      | (.error _, _, _) => []

/-- What the host is asked for in a drain of at most `layers` layers. -/
def drainInquiries (host : Host σ) : Nat → Frontier → σ → List Inquiry
  | 0, _, _ => []
  | layers + 1, f, s =>
    if f.hasPending then
      let (f, s) := flushVisits host f s
      queueInquiries host f.queries f s ++
        match flushQueries host f s with
        | (.ok _, f, s) => drainInquiries host layers f s
        | (.error _, _, _) => []
    else []

/-- A request to a frontier. -/
inductive Call where
  | enqueueVisit (file : Path) (text : Option String)
  | enqueueQuery (key : Reference) (speculative : Bool)
  | addDependencies (files : List Path)
  | resolve (key : Reference) (speculative : Bool)
  /-- Work off both queues, in at most `layers` layers. -/
  | drain (layers : Nat)

namespace Call

/-- The frontier and the state of the host behind a call, unless it is a drain that does not end in
its layers. -/
def run (host : Host σ) : Call → Frontier → σ → Option (Frontier × σ)
  | enqueueVisit file text, f, s => some (f.enqueueVisit file text, s)
  | enqueueQuery key speculative, f, s => some (f.enqueueQuery key speculative, s)
  | addDependencies files, f, s => some (f.addDependencies files, s)
  | resolve key speculative, f, s => some (Frontier.resolve host key speculative f s).2
  | drain layers, f, s => (Frontier.drain host layers f s).map Prod.snd

/-- What the host is asked for by a call. -/
def inquiries (host : Host σ) : Call → Frontier → σ → List Inquiry
  | resolve key _, f, s => Frontier.inquiries host key f s
  | drain layers, f, s => drainInquiries host layers f s
  | _, _, _ => []

end Call

/-- The frontier and the state of the host behind some calls in turn, if all of them end. -/
def runAll (host : Host σ) : List Call → Frontier → σ → Option (Frontier × σ)
  | [], f, s => some (f, s)
  | call :: rest, f, s => (call.run host f s).bind fun behind => runAll host rest behind.1 behind.2

/-- What the host is asked for by some calls in turn. A call that does not end is the last. -/
def transcript (host : Host σ) : List Call → Frontier → σ → List Inquiry
  | [], _, _ => []
  | call :: rest, f, s =>
    call.inquiries host f s ++
      match call.run host f s with
      | some (f, s) => transcript host rest f s
      | none => []

/-! ## Records -/

section Recorded

variable (host : Host σ) (f : Frontier) (s : σ) (calls : List Reference)

theorem ask_recorded (context : Path) (requests : List String) :
    ask host.recorded context requests f (s, calls) =
      ((ask host context requests f s).1, (ask host context requests f s).2.1,
        (ask host context requests f s).2.2,
        calls ++ (host.asked context requests s).map fun request => ⟨context, request⟩) := by
  induction requests generalizing f s calls with
  | nil => simp [ask, Host.asked]
  | cons request rest ih =>
    unfold ask Host.asked
    rcases hr : host.resolve s ⟨context, request⟩ with ⟨failure | target, s'⟩
    · have hrecorded : host.recorded.resolve (s, calls) ⟨context, request⟩ =
          (.error failure, s', calls ++ [⟨context, request⟩]) := by
        simp [Host.recorded, hr]
      simp only [hrecorded, ih]
      rcases ask host context rest _ s' with ⟨reasons | found, f', s''⟩ <;> simp
    · simp [Host.recorded, hr]

theorem resolve_recorded (key : Reference) (speculative : Bool) :
    resolve host.recorded key speculative f (s, calls) =
      ((resolve host key speculative f s).1, (resolve host key speculative f s).2.1,
        (resolve host key speculative f s).2.2,
        calls ++ (inquiries host key f s).map Inquiry.key) := by
  unfold resolve inquiries
  cases hc : f.cache.find? key with
  | some target => simp [Cache.contains, hc]
  | none =>
    have hkeys : Inquiry.key ∘ (⟨f.cache, key, ·⟩ : String → Inquiry) =
        fun request => ⟨key.context, request⟩ := rfl
    simp only [ask_recorded, Cache.contains, hc, Option.isSome_none, Bool.false_eq_true, if_false,
      List.map_map, hkeys]
    rcases ask host key.context _ f s with ⟨reasons | found, f', s'⟩
    · cases speculative <;> rfl
    · rfl

theorem resolveQueue_recorded (queries : List Query) :
    resolveQueue host.recorded queries f (s, calls) =
      ((resolveQueue host queries f s).1, (resolveQueue host queries f s).2.1,
        (resolveQueue host queries f s).2.2,
        calls ++ (queueInquiries host queries f s).map Inquiry.key) := by
  induction queries generalizing f s calls with
  | nil => simp [resolveQueue, queueInquiries]
  | cons q rest ih =>
    have hsame : inquiries host q.key { f with queries := rest } s = inquiries host q.key f s := rfl
    unfold resolveQueue queueInquiries
    simp only [resolve_recorded, hsame]
    rcases resolve host q.key q.speculative { f with queries := rest } s with
      ⟨failure | found, f', s'⟩
    · simp
    · simp [ih]

theorem scanBatch_recorded (options : Options) (batch : List Visit) :
    scanBatch host.recorded options batch (s, calls) =
      ((scanBatch host options batch s).1, (scanBatch host options batch s).2, calls) := by
  induction batch generalizing s with
  | nil => rfl
  | cons v rest ih =>
    unfold scanBatch Host.scanFile
    cases v.text with
    | some text => simp [ih]
    | none =>
      have hread : host.recorded.read (s, calls) v.file =
          ((host.read s v.file).1, (host.read s v.file).2, calls) := rfl
      simp only [hread, ih]

theorem flushVisits_recorded :
    flushVisits host.recorded f (s, calls) =
      ((flushVisits host f s).1, (flushVisits host f s).2, calls) := by
  simp [flushVisits, scanBatch_recorded]

theorem drain_recorded (layers : Nat) :
    drain host.recorded layers f (s, calls) =
      (drain host layers f s).map fun answer => (answer.1, answer.2.1, answer.2.2,
        calls ++ (drainInquiries host layers f s).map Inquiry.key) := by
  induction layers generalizing f s calls with
  | zero => unfold drain drainInquiries; cases f.hasPending <;> simp
  | succ layers ih =>
    unfold drain drainInquiries
    cases hp : f.hasPending with
    | false => simp
    | true =>
      simp only [flushVisits_recorded, flushQueries, resolveQueue_recorded, Bool.not_true,
        Bool.false_eq_true, if_false, if_true]
      rcases resolveQueue host (flushVisits host f s).1.queries (flushVisits host f s).1
        (flushVisits host f s).2 with ⟨failure | done, f', s'⟩
      · simp
      · simp [ih]

/-- A record of the calls to the host shows what the transcript lists, in its order. -/
theorem runAll_recorded (requests : List Call) :
    runAll host.recorded requests f (s, calls) =
      (runAll host requests f s).map fun behind => (behind.1, behind.2,
        calls ++ (transcript host requests f s).map Inquiry.key) := by
  induction requests generalizing f s calls with
  | nil => simp [runAll, transcript]
  | cons call rest ih =>
    have hcall : call.run host.recorded f (s, calls) = (call.run host f s).map fun behind =>
        (behind.1, behind.2, calls ++ (call.inquiries host f s).map Inquiry.key) := by
      cases call with
      | resolve key speculative => simp [Call.run, Call.inquiries, resolve_recorded]
      | drain layers => simp [Call.run, Call.inquiries, drain_recorded, Function.comp_def]
      | _ => simp [Call.run, Call.inquiries]
    unfold runAll transcript
    rw [hcall]
    rcases call.run host f s with _ | ⟨f', s'⟩
    · rfl
    · simp [ih]

end Recorded

/-! ## Inquiries and the cache -/

section

variable {host : Host σ} {f f' : Frontier} {s s' : σ} {log : List Inquiry}

/-- The host is asked for the inquiries of `log` on the way from one frontier to another. -/
inductive Inquires (host : Host σ) : Frontier → σ → List Inquiry → Frontier → σ → Prop where
  | quiet {f f' : Frontier} {s s' : σ} (options : f'.options = f.options)
      (cache : f'.cache = f.cache) : Inquires host f s [] f' s'
  | resolve (key : Reference) (speculative : Bool) (f : Frontier) (s : σ) :
      Inquires host f s (inquiries host key f s) (resolve host key speculative f s).2.1
        (resolve host key speculative f s).2.2
  | append {f f' f'' : Frontier} {s s' s'' : σ} {log log' : List Inquiry}
      (before : Inquires host f s log f' s') (behind : Inquires host f' s' log' f'' s'') :
      Inquires host f s (log ++ log') f'' s''

theorem inquires_queue (host : Host σ) (queries : List Query) (f : Frontier) (s : σ) :
    Inquires host f s (queueInquiries host queries f s) (resolveQueue host queries f s).2.1
      (resolveQueue host queries f s).2.2 := by
  induction queries generalizing f s with
  | nil => exact .quiet rfl rfl
  | cons q rest ih =>
    have hstart : Inquires host f s [] { f with queries := rest } s := .quiet rfl rfl
    have hfirst := hstart.append (.resolve q.key q.speculative { f with queries := rest } s)
    rw [List.nil_append] at hfirst
    unfold queueInquiries resolveQueue
    generalize resolve host q.key q.speculative { f with queries := rest } s = answer at hfirst ⊢
    obtain ⟨failure | found, f', s'⟩ := answer
    · exact hfirst.append (.quiet rfl rfl)
    · exact hfirst.append (ih f' s')

/-- What is asked for in a drain, whether it ends or not, is asked for on the way to some frontier,
which is the one behind the drain if it ends. -/
theorem inquires_drain (host : Host σ) (layers : Nat) (f : Frontier) (s : σ) :
    ∃ f' s', Inquires host f s (drainInquiries host layers f s) f' s' ∧
      ∀ answer, drain host layers f s = some answer → answer.2 = (f', s') := by
  induction layers generalizing f s with
  | zero =>
    refine ⟨f, s, .quiet rfl rfl, fun answer h => ?_⟩
    unfold drain at h
    split at h
    · rw [← Option.some.inj h]
    · cases h
  | succ layers ih =>
    unfold drain drainInquiries
    cases hp : f.hasPending with
    | false => exact ⟨f, s, .quiet rfl rfl, fun answer h => by rw [← Option.some.inj h]⟩
    | true =>
      simp only [Bool.not_true, Bool.false_eq_true, if_false, if_true, flushQueries]
      have hscan := flushVisits_spec host f s
      generalize flushVisits host f s = scanned at hscan ⊢
      obtain ⟨f₁, s₁⟩ := scanned
      have hstart : Inquires host f s [] f₁ s₁ := .quiet hscan.options hscan.cache
      have hqueue := hstart.append (inquires_queue host f₁.queries f₁ s₁)
      rw [List.nil_append] at hqueue
      generalize resolveQueue host f₁.queries f₁ s₁ = answer at hqueue ⊢
      obtain ⟨failure | done, f₂, s₂⟩ := answer
      · exact ⟨f₂, s₂, hqueue.append (.quiet rfl rfl), fun answer h => by rw [← Option.some.inj h]⟩
      · obtain ⟨f₃, s₃, hrest, hend⟩ := ih f₂ s₂
        exact ⟨f₃, s₃, hqueue.append hrest, hend⟩

theorem inquires_call (host : Host σ) (call : Call) (f : Frontier) (s : σ) :
    ∃ f' s', Inquires host f s (call.inquiries host f s) f' s' ∧
      ∀ behind, call.run host f s = some behind → behind = (f', s') := by
  cases call with
  | enqueueVisit file text =>
    exact ⟨_, s, .quiet (enqueueVisit_options f file text) (enqueueVisit_cache f file text),
      fun _ h => (Option.some.inj h).symm⟩
  | enqueueQuery key speculative =>
    obtain ⟨queries, heq, -⟩ := f.enqueueQuery_spec key speculative
    refine ⟨f.enqueueQuery key speculative, s, .quiet ?_ ?_,
      fun _ h => (Option.some.inj h).symm⟩ <;> rw [heq]
  | addDependencies files =>
    exact ⟨_, s, .quiet (addDependencies_options f files) (addDependencies_cache f files),
      fun _ h => (Option.some.inj h).symm⟩
  | resolve key speculative =>
    exact ⟨_, _, .resolve key speculative f s, fun _ h => (Option.some.inj h).symm⟩
  | drain layers =>
    obtain ⟨f', s', hlog, hend⟩ := inquires_drain host layers f s
    refine ⟨f', s', hlog, fun behind h => ?_⟩
    obtain ⟨answer, hanswer, rfl⟩ := Option.map_eq_some_iff.1 h
    exact hend answer hanswer

theorem inquires_transcript (host : Host σ) (calls : List Call) (f : Frontier) (s : σ) :
    ∃ f' s', Inquires host f s (transcript host calls f s) f' s' := by
  induction calls generalizing f s with
  | nil => exact ⟨f, s, .quiet rfl rfl⟩
  | cons call rest ih =>
    obtain ⟨f₁, s₁, hfirst, hend⟩ := inquires_call host call f s
    unfold transcript
    cases hrun : call.run host f s with
    | none => exact ⟨f₁, s₁, hfirst.append (.quiet rfl rfl)⟩
    | some behind =>
      obtain rfl := hend behind hrun
      obtain ⟨f₂, s₂, hrest⟩ := ih f₁ s₁
      exact ⟨f₂, s₂, hfirst.append hrest⟩

theorem Inquires.extends (h : Inquires host f s log f' s') : Extends host f f' := by
  induction h with
  | quiet options cache => exact ⟨options, by rw [cache]; exact .refl⟩
  | resolve key speculative f s => exact (resolve_resolution host key speculative f s).extends.1
  | append _ _ ih ih' => exact ih.trans ih'

/-- The host is asked for candidates of references that are not cached. -/
theorem Inquires.fresh (h : Inquires host f s log f' s') {i : Inquiry} (hi : i ∈ log) :
    i.cache.contains i.cause = false ∧
      i.request ∈ f.options.dialect.candidates i.cause.request := by
  induction h with
  | quiet => cases hi
  | resolve key speculative f s =>
    unfold inquiries at hi
    split at hi
    · cases hi
    · next hfresh =>
      obtain ⟨request, hrequest, rfl⟩ := List.mem_map.1 hi
      exact ⟨by simpa using hfresh, host.asked_subset _ _ _ hrequest⟩
  | append before _ ih ih' =>
    rcases List.mem_append.1 hi with hi | hi
    · exact ih hi
    · rw [← before.extends.options]
      exact ih' hi

/-- What is cached at first is cached at the moment of every inquiry. -/
theorem Inquires.contains (h : Inquires host f s log f' s') {i : Inquiry} (hi : i ∈ log)
    {key : Reference} (hkey : f.cache.contains key = true) : i.cache.contains key = true := by
  induction h with
  | quiet => cases hi
  | resolve cause speculative f s =>
    unfold inquiries at hi
    split at hi
    · cases hi
    · obtain ⟨request, -, rfl⟩ := List.mem_map.1 hi
      exact hkey
  | append before _ ih ih' =>
    rcases List.mem_append.1 hi with hi | hi
    · exact ih hi hkey
    · exact ih' hi (before.extends.cache.contains hkey)

/-- A candidate that is cached is no spelling in full. -/
theorem isLiteralRequest_of_isRepeated {dialect : Dialect} {i : Inquiry}
    (hfresh : i.cache.contains i.cause = false)
    (hrequest : i.request ∈ dialect.candidates i.cause.request) (hi : i.isRepeated = true) :
    dialect.isLiteralRequest i.cause.request = false := by
  by_contra hliteral
  have hcandidates : dialect.candidates i.cause.request = [i.cause.request] := by
    rw [Dialect.candidates, if_pos (by simpa using hliteral)]
  have hkey : i.key = i.cause := by
    rw [hcandidates, List.mem_singleton] at hrequest
    rw [Inquiry.key, hrequest]
  rw [Inquiry.isRepeated, hkey, hfresh] at hi
  cases hi

/-! ## Hosts that keep to their answers -/

/-- A candidate that leads somewhere in a coherent cache is resolved whenever the host is asked for
it. -/
theorem resolves_of_isRepeated {dialect : Dialect} (hd : dialect.Closed) {i : Inquiry}
    (hc : host.Coherent dialect i.cache)
    (hrequest : i.request ∈ dialect.candidates i.cause.request) (hi : i.isRepeated = true) (s : σ) :
    ∃ target, (host.resolve s i.key).1 = .ok target := by
  obtain ⟨target, htarget⟩ := Cache.contains_iff.1 hi
  obtain ⟨request, found, hgranted, -⟩ := hc _ _ htarget s
  rw [Inquiry.key, hd.candidates hrequest] at hgranted
  obtain ⟨hmem, hfound⟩ := Host.mem_of_granted? hgranted
  rw [List.mem_singleton.1 hmem] at hfound
  exact ⟨found, hfound⟩

/-- Behind a request that the host is asked for comes another only if it has refused the first. -/
theorem asked_pairwise (host : Host σ) (context : Path) (requests : List String) (s : σ) :
    (host.asked context requests s).Pairwise fun request _ =>
      ∃ s failure, (host.resolve s ⟨context, request⟩).1 = .error failure := by
  induction requests generalizing s with
  | nil => exact List.Pairwise.nil
  | cons request rest ih =>
    unfold Host.asked
    rcases hr : host.resolve s ⟨context, request⟩ with ⟨failure | target, s'⟩
    · exact List.Pairwise.cons (fun _ _ => ⟨s, failure, by rw [hr]⟩) (ih s')
    · exact List.pairwise_singleton _ _

theorem error_of_refuses {context : Path} {requests : List String} {failures : List Failure}
    (h : host.Refuses context requests s failures s') {request : String}
    (hrequest : request ∈ host.asked context requests s) :
    ∃ s failure, (host.resolve s ⟨context, request⟩).1 = .error failure := by
  induction h with
  | nil => cases hrequest
  | @cons first rest s s₁ s₂ failure failures hfirst _ ih =>
    unfold Host.asked at hrequest
    rw [hfirst] at hrequest
    rcases List.mem_cons.1 hrequest with rfl | hrequest
    · exact ⟨s, failure, by rw [hfirst]⟩
    · exact ih hrequest

/-- An inquiry for what is cached settles its cause: it is cached from then on, and the host is not
asked because of it again. -/
theorem Inquires.settles (hhost : host.ResolvesAlike) (hd : f.options.dialect.Closed)
    (hc : host.Coherent f.options.dialect f.cache) (h : Inquires host f s log f' s') :
    (∀ i ∈ log, i.isRepeated = true → f'.cache.contains i.cause = true) ∧
      log.Pairwise fun i j => i.isRepeated = true → (j.cause == i.cause) = false := by
  induction h with
  | quiet => exact ⟨by simp, List.Pairwise.nil⟩
  | resolve key speculative f s =>
    cases hkey : f.cache.contains key with
    | true => simp [inquiries, hkey]
    | false =>
      obtain ⟨requests, hrequests⟩ : ∃ requests,
          requests = host.asked key.context (f.options.dialect.candidates key.request) s := ⟨_, rfl⟩
      have hlog : inquiries host key f s = requests.map (⟨f.cache, key, ·⟩) := by
        simp [inquiries, hkey, hrequests]
      have hmem : ∀ request ∈ requests, request ∈ f.options.dialect.candidates key.request := by
        rw [hrequests]
        exact host.asked_subset _ _ _
      -- What is cached is never refused, so the host is asked for nothing behind it.
      have hnever : ∀ request ∈ requests, Inquiry.isRepeated ⟨f.cache, key, request⟩ = true →
          ¬ ∃ s failure, (host.resolve s ⟨key.context, request⟩).1 = .error failure := by
        rintro request hm hrepeated ⟨s', failure, hfailure⟩
        obtain ⟨target, htarget⟩ :=
          resolves_of_isRepeated (i := ⟨f.cache, key, request⟩) hd hc (hmem request hm) hrepeated s'
        rw [Inquiry.key, hfailure] at htarget
        cases htarget
      rw [hlog]
      constructor
      · intro i hi hrepeated
        obtain ⟨request, hm, rfl⟩ := List.mem_map.1 hi
        rcases hresolve : Frontier.resolve host key speculative f s with ⟨result, f₁, s₁⟩
        cases resolution_of_resolve hresolve with
        | cached hit => exact Cache.contains_iff.2 ⟨_, hit⟩
        | granted => simp
        | dropped _ _ refuses =>
          exact absurd (error_of_refuses refuses (hrequests ▸ hm)) (hnever request hm hrepeated)
        | refused _ _ refuses =>
          exact absurd (error_of_refuses refuses (hrequests ▸ hm)) (hnever request hm hrepeated)
      · refine List.pairwise_map.2 ?_
        have hpairwise := asked_pairwise host key.context
          (f.options.dialect.candidates key.request) s
        rw [← hrequests] at hpairwise
        refine hpairwise.imp_of_mem fun hm _ hrefused hrepeated => ?_
        exact absurd hrefused (hnever _ hm hrepeated)
  | @append f f₁ f₂ s s₁ s₂ log log' before behind ih ih' =>
    have hbefore := before.extends
    obtain ⟨hsettled, hpairwise⟩ := ih hd hc
    rw [← hbefore.options] at hd
    have hc₁ : host.Coherent f₁.options.dialect f₁.cache := by
      rw [hbefore.options] at hd ⊢
      exact hc.growth hhost hd hbefore.cache
    obtain ⟨hsettled', hpairwise'⟩ := ih' hd hc₁
    refine ⟨fun i hi hrepeated => ?_, List.pairwise_append.2 ⟨hpairwise, hpairwise', ?_⟩⟩
    · rcases List.mem_append.1 hi with hi | hi
      · exact behind.extends.cache.contains (hsettled i hi hrepeated)
      · exact hsettled' i hi hrepeated
    · intro i hi j hj hrepeated
      have hcached : j.cache.contains i.cause = true :=
        behind.contains hj (hsettled i hi hrepeated)
      by_contra hsame
      rw [← j.cache.contains_congr (by simpa using hsame), (behind.fresh hj).1] at hcached
      cases hcached

end

/-- To resolve a reference, the host is asked for something cached exactly if the reference is not
cached and not in full, and its first candidate is cached, or its second one is and the host refuses
the first. -/
theorem exists_isRepeated_iff (host : Host σ) (key : Reference) (f : Frontier) (s : σ) :
    (∃ i ∈ inquiries host key f s, i.isRepeated = true) ↔
      f.cache.contains key = false ∧ f.options.dialect.isLiteralRequest key.request = false ∧
        (f.cache.contains ⟨key.context, f.options.dialect.withExtension key.request⟩ = true ∨
          (∃ failure, (host.resolve s
              ⟨key.context, f.options.dialect.withExtension key.request⟩).1 = .error failure) ∧
            f.cache.contains ⟨key.context, f.options.dialect.indexRequest key.request⟩ = true) := by
  unfold inquiries Dialect.candidates
  cases hkey : f.cache.contains key with
  | true => simp
  | false =>
    cases hliteral : f.options.dialect.isLiteralRequest key.request with
    | true =>
      have hasked : host.asked key.context [key.request] s = [key.request] := by
        unfold Host.asked
        rcases host.resolve s ⟨key.context, key.request⟩ with ⟨failure | target, s'⟩ <;>
          simp [Host.asked]
      have hself : (⟨key.context, key.request⟩ : Reference) = key := rfl
      simp [hasked, Inquiry.isRepeated, Inquiry.key, hself, hkey]
    | false =>
      have hlast : ∀ request s', host.asked key.context [request] s' = [request] := by
        intro request s'
        unfold Host.asked
        rcases host.resolve s' ⟨key.context, request⟩ with ⟨failure | target, s''⟩ <;>
          simp [Host.asked]
      rcases hr : host.resolve s ⟨key.context, f.options.dialect.withExtension key.request⟩ with
        ⟨failure | target, s'⟩
      · have hasked : host.asked key.context [f.options.dialect.withExtension key.request,
            f.options.dialect.indexRequest key.request] s =
            [f.options.dialect.withExtension key.request,
              f.options.dialect.indexRequest key.request] := by
          rw [Host.asked, hr]
          simp only [hlast]
        simp [hasked, Inquiry.isRepeated, Inquiry.key]
      · simp [Host.asked, hr, Inquiry.isRepeated, Inquiry.key]

/-- The host is asked for candidates of references that are not cached, and never because of a
reference that is. A candidate may be cached all the same, if it is not the reference itself: for
which references that happens is told by what is cached. With a host that keeps to its answers, and
a closed dialect, it happens at most once for a reference. -/
theorem asked_while_cached (host : Host σ) (options : Options) (calls : List Call) (s : σ) :
    ((runAll host.recorded calls { options } (s, [])).map fun behind => behind.2.2) =
        ((runAll host calls { options } s).map fun _ =>
          (transcript host calls { options } s).map Inquiry.key) ∧
      (∀ i ∈ transcript host calls { options } s,
        i.cache.contains i.cause = false ∧
        i.request ∈ options.dialect.candidates i.cause.request ∧
        (i.isRepeated = true → options.dialect.isLiteralRequest i.cause.request = false)) ∧
      (∀ (key : Reference) (f : Frontier) (s : σ),
        (∃ i ∈ inquiries host key f s, i.isRepeated = true) ↔
          f.cache.contains key = false ∧ f.options.dialect.isLiteralRequest key.request = false ∧
          (f.cache.contains ⟨key.context, f.options.dialect.withExtension key.request⟩ = true ∨
            (∃ failure, (host.resolve s
                ⟨key.context, f.options.dialect.withExtension key.request⟩).1 = .error failure) ∧
            f.cache.contains
              ⟨key.context, f.options.dialect.indexRequest key.request⟩ = true)) ∧
      (host.ResolvesAlike → options.dialect.Closed →
        (transcript host calls { options } s).Pairwise fun i j =>
          i.isRepeated = true → (j.cause == i.cause) = false) := by
  obtain ⟨f', s', hlog⟩ := inquires_transcript host calls { options } s
  refine ⟨?_, fun i hi => ?_, exists_isRepeated_iff host, fun hhost hd => ?_⟩
  · rw [runAll_recorded]
    cases runAll host calls { options } s <;> simp
  · obtain ⟨hfresh, hrequest⟩ := hlog.fresh hi
    exact ⟨hfresh, hrequest, isLiteralRequest_of_isRepeated hfresh hrequest⟩
  · have hempty : host.Coherent options.dialect ({ options } : Frontier).cache :=
      host.coherent_empty options.dialect
    have hsettles := Inquires.settles (f := { options }) hhost hd hempty hlog
    exact hsettles.2

/-- A stylesheet by itself. -/
def oneSheet : Memory where
  files := [(⟨"/s/a.styl"⟩, "")]

/-- The stylesheet is resolved by its name in full, and then by its stem. -/
def twoSpellings : List Call :=
  [.resolve ⟨⟨"/s"⟩, "./a.styl"⟩ false, .resolve ⟨⟨"/s"⟩, "./a"⟩ false]

theorem asked_while_cached_twoSpellings :
    ∃ i ∈ transcript oneSheet.host twoSpellings { options := {} } {},
      i.isRepeated = true ∧ i.cache.contains i.cause = false ∧
      ({} : Dialect).isLiteralRequest i.cause.request = false ∧
      (transcript oneSheet.host twoSpellings { options := {} } {}).Pairwise fun i j =>
        i.isRepeated = true → (j.cause == i.cause) = false := by
  have hrepeated : (transcript oneSheet.host twoSpellings { options := {} } {}).any
      Inquiry.isRepeated = true := by decide +kernel
  have hplain : (({} : Options).dialect).PlainExtension := by decide +kernel
  obtain ⟨i, hi, hrep⟩ := List.any_eq_true.1 hrepeated
  obtain ⟨-, hall, -, hpairwise⟩ := asked_while_cached oneSheet.host {} twoSpellings {}
  obtain ⟨hfresh, -, hliteral⟩ := hall i hi
  exact ⟨i, hi, hrep, hfresh, hliteral hrep, hpairwise oneSheet.resolvesAlike hplain.closed⟩

/-- It is not so that the host is never asked for what is cached. -/
theorem asked_again_twoSpellings :
    ¬ ∀ (host : Host Memory.Log) (options : Options) (calls : List Call) (s : Memory.Log),
      ∀ i ∈ transcript host calls { options } s, i.isRepeated = false := by
  intro hnever
  have hrepeated : (transcript oneSheet.host twoSpellings { options := {} } {}).any
      Inquiry.isRepeated = true := by decide +kernel
  obtain ⟨i, hi, hrep⟩ := List.any_eq_true.1 hrepeated
  rw [hnever _ _ _ _ i hi] at hrep
  cases hrep

end Frontier

end StyleWeave
