import StyleWeave.Proofs.Render.Lockstep

/-!
# Coupled passes

Two passes through one document that search and parse in different ways do the same as long as each
search and each parse gives them the same. Such passes are in lockstep, with nothing left open:
`Couples` says it of two settings, for any relation between what the two passes search and have
parsed, and `coupled_inline` of whole passes. What is kept of parsed documents need not be true for
that.
-/

namespace StyleWeave.Inline

open Step (exec)

variable {σ τ α : Type}

/-- Started where `S` relates two passes, the steps end alike where it does. -/
def Coupled (S : σ × ParseCache → τ × ParseCache → Prop) (x : Step σ α) (y : Step τ α) : Prop :=
  ∀ p q, Linked S p q → (exec x p).1 = (exec y q).1 ∧ Linked S (exec x p).2 (exec y q).2

section

variable {S : σ × ParseCache → τ × ParseCache → Prop}

theorem InStep.coupled {x : Step σ α} {y : Step τ α}
    (h : InStep (fun _ => False) (Linked S) x y) : Coupled S x y :=
  fun p q hp => (h p q hp).resolve_left fun ⟨_, _, hfalse⟩ => hfalse

/-- Coupled passes through nested documents are in lockstep, with no further indentation and no
documents below. -/
theorem Coupled.inside {nested : Inliner σ} {nested' : Inliner τ} {stack : List Path}
    (h : ∀ file text indent,
      Coupled S (nested stack file text indent) (nested' stack file text indent)) :
    ∀ file text indent, Reach.any.document file text →
      InStep (fun _ => False) (Linked S) (nested (stack ++ []) file text ("" ++ indent))
        (nested' (stack ++ []) file text indent) := by
  intro file text indent _ p q hp
  rw [List.append_nil, String.empty_append]
  exact Or.inr (h file text indent p q hp)

end

/-- The two settings search alike where `S` holds, and it holds afterwards. -/
structure Couples (S : σ × ParseCache → τ × ParseCache → Prop) (env : Setting σ)
    (env' : Setting τ) : Prop where
  options : env'.options = env.options
  locate : ∀ importer name s c t d, S (s, c) (t, d) →
    (env.locate importer name s).1 = (env'.locate importer name t).1 ∧
      S ((env.locate importer name s).2, c) ((env'.locate importer name t).2, d)
  read : ∀ file s c t d, S (s, c) (t, d) →
    (env.read file s).1 = (env'.read file t).1 ∧
      S ((env.read file s).2, c) ((env'.read file t).2, d)

theorem Act.shift_empty : Act.shift "" = id := by
  funext act
  cases act with
  | line l => rfl
  | fragment base text opened number => rw [shift, String.empty_append, id]
  | site indent s => rw [shift, String.empty_append, id]

/-- Without a further indentation, and with the same numbers of sources, lines are the same. -/
theorem Write.Shifted.eq {w w' : Write} (h : w.Shifted "" Eq w') : w = w' := by
  cases h with
  | rule indent h => rw [String.empty_append]
  | mapped h line number => rw [h, empty_indentLine]

section

variable {S : σ × ParseCache → τ × ParseCache → Prop} {env : Setting σ} {env' : Setting τ}

theorem Couples.strides (h : Couples S env env') :
    Strides (fun _ => False) "" Eq .any [] [] (Linked S) env env' where
  options := h.options
  write hp hw := hw.eq ▸ hp.write _
  number file hp := hp.sourceIndex file
  judge stack hp _ := Or.inr (by rw [hp.included])
  including file hp := { hp with included := congrArg (· ++ [file]) hp.included }
  locate hp _ := by
    obtain ⟨hresult, hstate⟩ := h.locate _ _ _ _ _ _ hp.state
    exact ⟨hresult, { hp with state := hstate }, fun _ _ _ _ => trivial⟩
  read hp _ := by
    obtain ⟨hresult, hstate⟩ := h.read _ _ _ _ _ hp.state
    exact ⟨hresult, { hp with state := hstate }, fun _ _ => trivial⟩

section

variable (h : Couples S env env') {nested : Inliner σ} {nested' : Inliner τ} {stack : List Path}
  (hnested : ∀ file text indent,
    Coupled S (nested stack file text indent) (nested' stack file text indent))

include h hnested

/-- The same plan is carried out alike. -/
theorem coupled_performAll (file : Path) (source indent : String) (index : Nat)
    (acts : List Act) :
    Coupled S (performAll env nested stack (Sheet.of file source indent index) acts)
      (performAll env' nested' stack (Sheet.of file source indent index) acts) := by
  have hsteps := strides_performAll h.strides (Coupled.inside hnested) file source indent
    (rfl : index = index) acts fun _ _ _ _ _ => trivial
  rw [List.append_nil, String.empty_append, Act.shift_empty, List.map_id] at hsteps
  exact hsteps.coupled

/-- A document is gone through alike if it is parsed alike. -/
theorem coupled_renderSheet {outer : List Path} {file : Path} {source : String} (indent : String)
    (htop : file :: outer = stack) {p : Pass σ} {q : Pass τ}
    (hparse : (p.parsed.parse source).1 = (q.parsed.parse source).1)
    (hparsed : Linked S { p with parsed := (p.parsed.parse source).2 }
      { q with parsed := (q.parsed.parse source).2 }) :
    let ended := exec (renderSheet env nested outer file source indent) p
    let ended' := exec (renderSheet env' nested' outer file source indent) q
    ended.1 = ended'.1 ∧ Linked S ended.2 ended'.2 := by
  have htop' : file :: outer = stack ++ [] := by rw [htop, List.append_nil]
  have hsteps := strides_renderSheet h.strides (Coupled.inside hnested) indent htop' htop' hparse
    hparsed fun _ _ _ _ _ _ => trivial
  rw [String.empty_append] at hsteps
  exact hsteps.resolve_left fun ⟨_, _, hfalse⟩ => hfalse

end

/-- Two settings that search alike make passes that do the same, if the parser gives them the
same. -/
theorem coupled_inline (h : Couples S env env')
    (hparse : ∀ source s c t d, S (s, c) (t, d) → (c.parse source).1 = (d.parse source).1 ∧
      S (s, (c.parse source).2) (t, (d.parse source).2))
    (depth : Nat) (stack : List Path) (file : Path) (source indent : String) :
    Coupled S (inline env depth stack file source indent)
      (inline env' depth stack file source indent) := by
  induction depth generalizing stack file source indent with
  | zero => exact fun _ _ hp => ⟨rfl, hp⟩
  | succ depth ih =>
    intro p q hp
    obtain ⟨hresult, hstate⟩ := hparse source _ _ _ _ hp.state
    exact coupled_renderSheet h (ih (file :: stack)) indent rfl hresult { hp with state := hstate }

end

/-! ## Passes that keep true documents -/

/-- Two passes search alike, and what both keep of texts is what parsing them gives. -/
def Trusty (s t : σ × ParseCache) : Prop :=
  s.1 = t.1 ∧ s.2.Valid ∧ t.2.Valid

theorem couples_trusty (env : Setting σ) : Couples Trusty env env where
  options := rfl
  locate importer name s c t d h := by
    obtain ⟨hs, hc, hd⟩ := h
    obtain rfl : s = t := hs
    exact ⟨rfl, rfl, hc, hd⟩
  read file s c t d h := by
    obtain ⟨hs, hc, hd⟩ := h
    obtain rfl : s = t := hs
    exact ⟨rfl, rfl, hc, hd⟩

theorem trusty_parse {source : String} {s t : σ} {c d : ParseCache} (h : Trusty (s, c) (t, d)) :
    (c.parse source).1 = (d.parse source).1 ∧
      Trusty (s, (c.parse source).2) (t, (d.parse source).2) := by
  obtain ⟨hs, hc, hd⟩ := h
  exact ⟨(hc.parse_eq source).trans (hd.parse_eq source).symm, hs, hc.parse source, hd.parse source⟩

theorem linked_passThrough (env : Setting σ) (depth : Nat) (file : Path) (source : String) (s : σ)
    {c d : ParseCache} (hc : c.Valid) (hd : d.Valid) :
    (passThrough env depth file source s c).1 = (passThrough env depth file source s d).1 ∧
      Linked Trusty (passThrough env depth file source s c).2
        (passThrough env depth file source s d).2 :=
  coupled_inline (couples_trusty env) (fun _ _ _ _ _ h => trusty_parse h) depth [] file source ""
    _ _ ⟨⟨rfl, hc, hd⟩, rfl, rfl, rfl, rfl⟩

end StyleWeave.Inline
