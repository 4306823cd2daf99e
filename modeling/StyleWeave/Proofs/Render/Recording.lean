import StyleWeave.Proofs.Job.View
import StyleWeave.Proofs.Render.Coupling
import StyleWeave.Proofs.Render.Parsing

/-!
# What is handed to the parser

A renderer with a record of the texts it hands to the parser, in their order. What it keeps of
documents is what parsing these texts in turn leaves (`Faithful`), and without the record it is the
inlining renderer (`recorder_shows`). A renderer that keeps no documents at all answers as the
inlining renderer does, too (`forgetful_shows`).
-/

namespace StyleWeave.Inline

variable {σ τ : Type}

/-! ## Recording -/

/-- The setting whose search comes with a record. -/
def Setting.recording (env : Setting σ) : Setting (σ × List String) where
  options := env.options
  locate importer name s := (env.locate importer name s.1).map id (·, s.2)
  read file s := (env.read file s.1).map id (·, s.2)

/-- Put a text into the record. -/
def note (text : String) (p : Pass (σ × List String)) : Pass (σ × List String) :=
  { p with search := (p.search.1, p.search.2 ++ [text]) }

/-- The pass through a document that records each text in front of parsing it. -/
def inlineRecording (env : Setting σ) : Nat → Inliner (σ × List String)
  | 0 => fun _ _ _ _ => throw .tooDeep
  | depth + 1 => fun stack file source indent => do
    modify (note source)
    renderSheet env.recording (inlineRecording env depth) stack file source indent

/-- The whole pass that a render makes, with its record. -/
def passRecording (env : Setting σ) (depth : Nat) (file : Path) (source : String) (s : σ)
    (r : ParseCache × List String) : Except Halt Unit × Pass (σ × List String) :=
  Step.exec (inlineRecording env depth [] file source "") { search := (s, r.2), parsed := r.1 }

/-- The renderer with a record of the texts it hands to the parser. -/
def recorder (depth : Nat) : Renderer (ParseCache × List String) where
  render r file source options locator found :=
    let pass := passRecording (.ofLocator options locator) depth file source found r
    (outcome options file pass.2 pass.1).map fun result =>
      ⟨result, pass.2.search.1, pass.2.parsed, pass.2.search.2⟩

/-- Two passes keep the documents that the texts in the record of one leave when they are parsed in
turn. -/
def Faithful (s : (σ × List String) × ParseCache) (t : σ × ParseCache) : Prop :=
  s.1.1 = t.1 ∧ s.2 = t.2 ∧ s.2 = .parseAll {} s.1.2

/-- Likewise, where the last text in the record is yet to be parsed. -/
def Ahead (source : String) (s : (σ × List String) × ParseCache) (t : σ × ParseCache) : Prop :=
  ∃ before, s.1.2 = before ++ [source] ∧ Faithful ((s.1.1, before), s.2) t

theorem couples_recording (env : Setting σ) : Couples Faithful env.recording env where
  options := rfl
  locate importer name s c t d h := by
    obtain ⟨hs, hc, hkept⟩ := h
    obtain rfl : s.1 = t := hs
    exact ⟨rfl, rfl, hc, hkept⟩
  read file s c t d h := by
    obtain ⟨hs, hc, hkept⟩ := h
    obtain rfl : s.1 = t := hs
    exact ⟨rfl, rfl, hc, hkept⟩

theorem faithful_parse {source : String} {s : σ × List String} {c : ParseCache} {t : σ}
    {d : ParseCache} (h : Ahead source (s, c) (t, d)) :
    (c.parse source).1 = (d.parse source).1 ∧
      Faithful (s, (c.parse source).2) (t, (d.parse source).2) := by
  obtain ⟨before, hrecord, hs, hc, hkept⟩ := h
  obtain rfl : c = d := hc
  refine ⟨rfl, hs, rfl, ?_⟩
  dsimp only at hrecord hkept ⊢
  rw [hrecord, ParseCache.parseAll_append, ← hkept]
  rfl

theorem coupled_inlineRecording (env : Setting σ) (depth : Nat) (stack : List Path) (file : Path)
    (source indent : String) :
    Coupled Faithful (inlineRecording env depth stack file source indent)
      (inline env depth stack file source indent) := by
  induction depth generalizing stack file source indent with
  | zero => exact fun _ _ h => ⟨rfl, h⟩
  | succ depth ih =>
    intro p q h
    have hahead : Ahead source ((p.search.1, p.search.2 ++ [source]), p.parsed)
        (q.search, q.parsed) := ⟨p.search.2, rfl, h.state⟩
    obtain ⟨hparse, hstate⟩ := faithful_parse hahead
    unfold inlineRecording inline
    rw [Step.exec_bind, Step.exec_modify]
    exact coupled_renderSheet (couples_recording env) (ih (file :: stack)) indent rfl hparse
      { h with state := hstate }

theorem linked_passRecording (env : Setting σ) (depth : Nat) (file : Path) (source : String) (s : σ)
    {r : ParseCache × List String} (hr : r.1 = .parseAll {} r.2) :
    (passRecording env depth file source s r).1 = (passThrough env depth file source s r.1).1 ∧
      Linked Faithful (passRecording env depth file source s r).2
        (passThrough env depth file source s r.1).2 :=
  coupled_inlineRecording env depth [] file source "" _ _
    ⟨⟨rfl, rfl, hr⟩, rfl, rfl, rfl, rfl⟩

/-- Without its record, the recorder is the inlining renderer, and what it keeps is what parsing the
recorded texts in turn leaves. -/
theorem recorder_shows (depth : Nat) :
    Renderer.Shows (fun r => r.1 = .parseAll {} r.2) Prod.fst (recorder depth)
      (renderer depth) where
  render r file source options locator found hr := by
    obtain ⟨hresult, hlinked⟩ :=
      linked_passRecording (.ofLocator options locator) depth file source found hr
    obtain ⟨hsearch, hparsed, -⟩ := hlinked.state
    dsimp only at hsearch hparsed
    rw [render_eq]
    unfold recorder
    dsimp only
    rw [Option.map_map, outcome_congr hresult (hlinked.finish_eq options file)]
    refine congrArg (Option.map · _) (funext fun result => ?_)
    rw [Function.comp_apply, hsearch, hparsed]
  keeps r file source options locator found step hr hstep := by
    obtain ⟨-, hlinked⟩ :=
      linked_passRecording (.ofLocator options locator) depth file source found hr
    obtain ⟨result, -, rfl⟩ := Option.map_eq_some_iff.1 hstep
    exact hlinked.state.2.2

/-! ## Forgetting -/

/-- The renderer that keeps no documents. -/
def forgetful (depth : Nat) : Renderer Unit where
  render _ file source options locator found :=
    ((renderer depth).render {} file source options locator found).map fun step =>
      ⟨step.outcome, step.found, ()⟩

/-- The inlining renderer answers as one does that keeps no documents. -/
theorem forgetful_shows (depth : Nat) :
    Renderer.Shows ParseCache.Valid (fun _ => ()) (renderer depth) (forgetful depth) where
  render c file source options locator found hc := by
    obtain ⟨hresult, hlinked⟩ := linked_passThrough (.ofLocator options locator) depth file source
      found ParseCache.valid_empty hc
    have hsearch := hlinked.state.1
    dsimp only at hsearch
    unfold forgetful
    dsimp only
    rw [render_eq, render_eq]
    dsimp only
    rw [Option.map_map, Option.map_map, outcome_congr hresult (hlinked.finish_eq options file)]
    refine congrArg (Option.map · _) (funext fun result => ?_)
    rw [Function.comp_apply, Function.comp_apply, hsearch]
  keeps c file source options locator found step hc hstep := by
    obtain ⟨-, hlinked⟩ := linked_passThrough (.ofLocator options locator) depth file source found
      hc hc
    rw [render_eq] at hstep
    obtain ⟨result, -, rfl⟩ := Option.map_eq_some_iff.1 hstep
    exact hlinked.state.2.1

end StyleWeave.Inline
