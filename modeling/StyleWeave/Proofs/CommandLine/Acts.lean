import StyleWeave.CommandLine.Run

/-!
# Acts that end well

What the acts of a command do to its session if they end without a fault, each said once.
-/

namespace StyleWeave.CommandLine

variable {α β : Type} {s s' : Session}

/-- Started in `s`, the act ends well in `s'` and answers `a`. -/
def Does (act : Act α) (s : Session) (a : α) (s' : Session) : Prop :=
  act.run.run s = some (.ok a, s')

theorem run_bind (act : Act α) (next : α → Act β) (s : Session) :
    (act >>= next).run.run s = (act.run.run s).bind fun answer =>
      match answer with
      | (.ok a, s) => (next a).run.run s
      | (.error fault, s) => some (.error fault, s) := by
  show (act.run.run s).bind _ = _
  congr 1
  funext answer
  obtain ⟨result, s₁⟩ := answer
  cases result with
  | ok a => rfl
  | error fault => rfl

theorem does_unique {act : Act α} {a a' : α} {s₁ s₁' : Session}
    (h : Does act s a s₁) (h' : Does act s a' s₁') : a = a' ∧ s₁ = s₁' := by
  unfold Does at h h'
  rw [h, Option.some_inj, Prod.mk.injEq, Except.ok.injEq] at h'
  exact h'

theorem exists_does {act : Act α}
    (h : (act.run.run s).any (fun answer => answer.1.isOk) = true) : ∃ a s', Does act s a s' := by
  unfold Does
  cases hrun : act.run.run s with
  | none =>
    rw [hrun] at h
    cases h
  | some answer =>
    obtain ⟨result, s'⟩ := answer
    rw [hrun] at h
    cases result with
    | error fault => cases h
    | ok a => exact ⟨a, s', rfl⟩

/-- One act after another ends well if both do. -/
theorem does_bind_iff {act : Act α} {next : α → Act β} {b : β} :
    Does (act >>= next) s b s' ↔ ∃ a s₁, Does act s a s₁ ∧ Does (next a) s₁ b s' := by
  unfold Does
  rw [run_bind]
  cases act.run.run s with
  | none => simp
  | some answer =>
    obtain ⟨result, s₁⟩ := answer
    cases result with
    | error fault => simp
    | ok a =>
      constructor
      · intro h
        exact ⟨a, s₁, rfl, h⟩
      · rintro ⟨a', s₁', hact, h⟩
        obtain ⟨hresult, rfl⟩ := Prod.mk.inj (Option.some.inj hact)
        rw [← Except.ok.inj hresult] at h
        exact h

theorem does_pure_iff {a b : α} : Does (pure a : Act α) s b s' ↔ a = b ∧ s = s' := by
  unfold Does
  show some (Except.ok a, s) = some (Except.ok b, s') ↔ _
  simp

theorem does_get_iff {a : Session} : Does get s a s' ↔ s = a ∧ s = s' := by
  unfold Does
  show some (Except.ok s, s) = some (Except.ok a, s') ↔ _
  simp

theorem does_modify_iff {change : Session → Session} {a : PUnit} :
    Does (modify change) s a s' ↔ s' = change s := by
  unfold Does
  show some (Except.ok PUnit.unit, change s) = some (Except.ok a, s') ↔ _
  simp [eq_comm]

theorem does_orFail_iff {result : Except Failure α} {a : α} :
    Does (orFail result) s a s' ↔ result = .ok a ∧ s = s' := by
  cases result with
  | ok b =>
    show some (Except.ok b, s) = some (Except.ok a, s') ↔ _
    simp
  | error failure =>
    show some (Except.error (Fault.failure failure), s) = some (Except.ok a, s') ↔ _
    simp

theorem does_lift_iff {value : Option α} {a : α} :
    Does (ExceptT.lift (StateT.lift value)) s a s' ↔ value = some a ∧ s = s' := by
  unfold Does
  cases value with
  | none =>
    show none = some (Except.ok a, s') ↔ _
    simp
  | some b =>
    show some (Except.ok b, s) = some (Except.ok a, s') ↔ _
    simp

theorem does_print_iff {text : String} {a : Unit} :
    Does (print text) s a s' ↔ s' = { s with output := s.output ++ text } :=
  does_modify_iff

theorem does_printLine_iff {line : String} {a : Unit} :
    Does (printLine line) s a s' ↔ s' = { s with output := s.output ++ (line ++ "\n") } :=
  does_print_iff

theorem does_changeDisk_iff {change : Disk → Except SystemError Disk} {a : Unit} :
    Does (changeDisk change) s a s' ↔ ∃ d, change s.disk = .ok d ∧ s' = { s with disk := d } := by
  unfold changeDisk
  simp only [does_bind_iff, does_get_iff, does_orFail_iff, does_modify_iff]
  constructor
  · rintro ⟨_, _, ⟨rfl, rfl⟩, d, _, ⟨hchange, rfl⟩, rfl⟩
    refine ⟨d, ?_, rfl⟩
    cases hresult : change s.disk with
    | error e =>
      rw [hresult] at hchange
      cases hchange
    | ok d' =>
      rw [hresult] at hchange
      rw [Except.ok.inj hchange]
  · rintro ⟨d, hchange, rfl⟩
    refine ⟨s, s, ⟨rfl, rfl⟩, d, s, ⟨?_, rfl⟩, rfl⟩
    rw [hchange]
    rfl

/-- A document is compiled with what the session has. Only its files and parsed documents change. -/
theorem does_compile {options : Options} {document : Path} {source : String} {output : Output}
    (h : Does (compile options document source) s output s') : s'.disk = s.disk ∧
      ∃ step, s.disk.compile options options document source s.files s.parsed = some step ∧
        step.result = .ok output := by
  unfold compile at h
  simp only [does_bind_iff, does_get_iff, does_orFail_iff, does_modify_iff] at h
  obtain ⟨_, _, ⟨rfl, rfl⟩, step, s₁, hstep, _, s₂, rfl, hresult, rfl⟩ := h
  obtain ⟨hcompile, rfl⟩ := does_lift_iff.1 hstep
  exact ⟨rfl, step, hcompile, hresult⟩

end StyleWeave.CommandLine
