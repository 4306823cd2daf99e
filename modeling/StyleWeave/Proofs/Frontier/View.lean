import StyleWeave.Proofs.Frontier.Inquiries

/-!
# Hosts seen through a view

A host may keep more in its states than another one and answer just as it does, such as a record of
what it is asked. Then the one host is the other seen through a view of its states (`Host.Shows`),
and no call to a frontier can tell them apart (`Frontier.runAll_shows`).
-/

namespace StyleWeave

variable {σ τ : Type}

/-- Seen through `view`, the host `fine` is `host`. -/
structure Host.Shows (view : τ → σ) (fine : Host τ) (host : Host σ) : Prop where
  resolve : ∀ t key, host.resolve (view t) key = (fine.resolve t key).map id view
  read : ∀ t file, host.read (view t) file = (fine.read t file).map id view
  depend : ∀ t file, host.depend (view t) file = view (fine.depend t file)

theorem Host.shows_self (host : Host σ) : Host.Shows id host host where
  resolve _ _ := rfl
  read _ _ := rfl
  depend _ _ := rfl

/-! ## Frontiers -/

namespace Frontier

variable {view : τ → σ} {fine : Host τ} {host : Host σ} (h : Host.Shows view fine host)

include h

theorem ask_shows (context : Path) (requests : List String) (f : Frontier) (t : τ) :
    ask host context requests f (view t) =
      (ask fine context requests f t).map id (Prod.map id view) := by
  induction requests generalizing f t with
  | nil => rfl
  | cons request rest ih =>
    unfold ask
    rw [h.resolve]
    rcases fine.resolve t ⟨context, request⟩ with ⟨failure | target, t'⟩
    · dsimp only [Prod.map, id]
      rw [ih]
      rcases ask fine context rest _ t' with ⟨reasons | found, f', t''⟩ <;> rfl
    · rfl

theorem resolve_shows (key : Reference) (speculative : Bool) (f : Frontier) (t : τ) :
    resolve host key speculative f (view t) =
      (resolve fine key speculative f t).map id (Prod.map id view) := by
  unfold resolve
  cases f.cache.find? key with
  | some target => rfl
  | none =>
    dsimp only
    rw [ask_shows h]
    rcases ask fine key.context _ f t with ⟨reasons | found, f', t'⟩
    · cases speculative <;> rfl
    · rfl

theorem resolveQueue_shows (queries : List Query) (f : Frontier) (t : τ) :
    resolveQueue host queries f (view t) =
      (resolveQueue fine queries f t).map id (Prod.map id view) := by
  induction queries generalizing f t with
  | nil => rfl
  | cons q rest ih =>
    unfold resolveQueue
    rw [resolve_shows h]
    rcases resolve fine q.key q.speculative { f with queries := rest } t with
      ⟨failure | found, f', t'⟩
    · rfl
    · exact ih f' t'

theorem scanBatch_shows (options : Options) (batch : List Visit) (t : τ) :
    scanBatch host options batch (view t) = (scanBatch fine options batch t).map id view := by
  induction batch generalizing t with
  | nil => rfl
  | cons v rest ih =>
    unfold scanBatch Host.scanFile
    cases v.text with
    | some text =>
      dsimp only
      rw [ih]
      rfl
    | none =>
      have hread : host.read (view t) v.file =
          ((fine.read t v.file).1, view (fine.read t v.file).2) := h.read t v.file
      simp only [hread, ih]
      rfl

theorem flushVisits_shows (f : Frontier) (t : τ) :
    flushVisits host f (view t) = (flushVisits fine f t).map id view := by
  unfold flushVisits
  dsimp only
  rw [scanBatch_shows h]
  rfl

theorem drain_shows (layers : Nat) (f : Frontier) (t : τ) :
    drain host layers f (view t) =
      (drain fine layers f t).map (Prod.map id (Prod.map id view)) := by
  induction layers generalizing f t with
  | zero =>
    unfold drain
    cases f.hasPending <;> rfl
  | succ layers ih =>
    unfold drain
    cases f.hasPending with
    | false => rfl
    | true =>
      simp only [Bool.not_true, Bool.false_eq_true, if_false, flushQueries]
      rw [flushVisits_shows h]
      dsimp only [Prod.map, id]
      rw [resolveQueue_shows h]
      rcases resolveQueue fine (flushVisits fine f t).1.queries (flushVisits fine f t).1
        (flushVisits fine f t).2 with ⟨failure | done, f', t'⟩
      · rfl
      · exact ih f' t'

theorem runAll_shows (calls : List Call) (f : Frontier) (t : τ) :
    runAll host calls f (view t) = (runAll fine calls f t).map (Prod.map id view) := by
  induction calls generalizing f t with
  | nil => rfl
  | cons call rest ih =>
    have hcall : call.run host f (view t) = (call.run fine f t).map (Prod.map id view) := by
      cases call with
      | resolve key speculative =>
        show some (resolve host key speculative f (view t)).2 = _
        rw [resolve_shows h]
        rfl
      | drain layers =>
        show (drain host layers f (view t)).map Prod.snd =
          ((drain fine layers f t).map Prod.snd).map (Prod.map id view)
        rw [drain_shows h]
        cases drain fine layers f t <;> rfl
      | _ => rfl
    unfold runAll
    rw [hcall]
    cases call.run fine f t with
    | none => rfl
    | some behind => exact ih behind.1 behind.2

end Frontier

theorem Host.Shows.dependAll {view : τ → σ} {fine : Host τ} {host : Host σ}
    (h : Host.Shows view fine host) (files : List Path) (t : τ) :
    host.dependAll (view t) files = view (fine.dependAll t files) := by
  unfold Host.dependAll
  induction files generalizing t with
  | nil => rfl
  | cons file rest ih =>
    rw [List.foldl_cons, List.foldl_cons, h.depend]
    exact ih (fine.depend t file)

end StyleWeave
