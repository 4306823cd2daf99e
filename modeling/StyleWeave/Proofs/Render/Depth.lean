import StyleWeave.Proofs.Frontier.Layers
import StyleWeave.Proofs.Path.Set
import StyleWeave.Proofs.Render.Finder

/-!
# How deep a pass goes

The documents inlined into one another are different files. So if imports lead only to finitely many
files, a pass that may go as deep as there are files, with the document itself, is never too deep
(`passOver_ne_tooDeep`), and all that it finds are such files (`found_of_passThrough`).
-/

namespace StyleWeave

namespace Inline

variable {options : Options} {tree : SourceTree} {known : Finder} {depth : Nat} {file : Path}
  {source : String} {files : List Path}

/-- All files that are known for imports are among these. -/
def Finder.LeadsInto (known : Finder) (files : List Path) : Prop :=
  ∀ importer name target, known importer name = some target → target ∈ files

theorem Reaches.mem (hknown : known.LeadsInto files) {importer : Path} {text : String}
    (h : Reaches options tree known file source importer text) : importer ∈ file :: files := by
  cases h with
  | entry => exact List.mem_cons_self
  | imported _ _ found _ => exact List.mem_cons_of_mem _ (hknown _ _ _ found)

theorem located_ne_tooDeep (importer : Path) (name : String)
    (answer : Except Pending (Option Path)) :
    located options importer name answer ≠ .error .tooDeep := by
  rcases answer with pending | _ | file <;> simp [located, notLocated]

theorem finding_self (options : Options) (tree : SourceTree) (known : Finder) (file : Path)
    (source : String) :
    Agree (fun _ _ => True) (fun _ => False) (fun halt => halt ≠ .tooDeep)
      (Reaches options tree known file source)
      (fun target => ∃ importer name, ReachesImport options tree known file source importer name ∧
        known importer name = some target)
      (.finding options tree known) (.finding options tree known) := by
  refine ⟨rfl, rfl, ?_, ?_, by simp⟩
  · intro importer text name hreach himports s t _
    right
    refine ⟨rfl, trivial, fun halt hloc hdeep => ?_, fun files hfiles target htarget => ?_⟩
    · subst hdeep
      exact located_ne_tooDeep importer name _ hloc
    · obtain ⟨target', hanswer, rfl⟩ := located_eq_ok_iff.1 hfiles
      obtain rfl := List.mem_singleton.1 htarget
      exact ⟨importer, name, ⟨text, hreach, himports⟩, Options.answer_eq_some_iff.1 hanswer⟩
  · rintro target ⟨importer, name, hi, hknown⟩ s t _
    right
    refine ⟨rfl, trivial, fun halt hread hdeep => ?_, fun text hread => .of_read hi hknown hread⟩
    subst hdeep
    obtain ⟨failure, hfailed⟩ := finding_read_error hread
    cases hfailed

/-- A pass is not too deep if it may go deeper than there are files. -/
theorem passOver_ne_tooDeep (hknown : known.LeadsInto files) (hdepth : files.length < depth) :
    (passOver options tree known depth file source).1 ≠ .error .tooDeep := by
  have hdeep : ∀ stack, OnStack (Reaches options tree known file source) stack →
      stack.length = depth + 1 → Halt.tooDeep ≠ .tooDeep := by
    intro stack hstack hlen
    exfalso
    have hle : stack.length ≤ (file :: files).length :=
      Path.length_le_of_differ hstack.1 fun f hf => by
        obtain ⟨text, hreach⟩ := hstack.2 f hf
        exact hreach.mem hknown
    rw [hlen, List.length_cons] at hle
    omega
  rcases corresponds_passThrough (t := ()) (finding_self options tree known file source) depth
    .entry hdeep trivial ParseCache.valid_empty ParseCache.valid_empty with
    ⟨_, _, hfalse, _⟩ | ⟨-, -, hw, -⟩
  · exact hfalse.elim
  · exact fun h => hw _ h rfl

/-- What a pass over a lookup finds are files that are known for imports. -/
theorem found_of_passThrough {l : Lookup} (hknown : Finder.LeadsInto l.known? files) (depth : Nat)
    (file : Path) (source : String) {parsed : ParseCache} (hparsed : parsed.Valid) :
    let pass := passThrough (.ofLocator l.options l.locator) depth file source .empty parsed
    pass.2.search.paths ⊆ files := by
  intro pass
  have hagree : Agree (fun s t => s = t ∧ s.paths ⊆ files) (fun _ => False) (fun _ => True)
      (fun _ _ => True) (fun _ => True) (Setting.ofLocator l.options l.locator)
      (Setting.ofLocator l.options l.locator) := by
    refine ⟨rfl, rfl, ?_, ?_, fun _ => trivial⟩
    · rintro importer text name - - s _ ⟨rfl, hs⟩
      right
      refine ⟨rfl, ⟨rfl, ?_⟩, fun _ _ => trivial, fun _ _ _ _ => trivial⟩
      have hlocate := congrArg Prod.snd (locateIn_locator l importer name s)
      show (Setting.locateIn l.options l.locator importer name s).2.paths ⊆ files
      rw [hlocate, Lookup.search_eq]
      cases hk : l.known? importer name with
      | none =>
        dsimp only [Options.answer]
        split <;> exact hs
      | some target =>
        intro p hp
        rcases PathSet.mem_of_mem_insertInto hp with rfl | hp
        · exact hknown importer name _ hk
        · exact hs hp
    · rintro target - s _ ⟨rfl, hs⟩
      right
      exact ⟨rfl, ⟨rfl, hs⟩, fun _ _ => trivial, fun _ _ => trivial⟩
  have hpass : Corresponds (Alike fun s t => s = t ∧ s.paths ⊆ files) _ _ _ pass pass :=
    corresponds_passThrough hagree depth trivial (fun _ _ _ => trivial)
      ⟨rfl, List.nil_subset _⟩ hparsed hparsed
  rcases hpass with ⟨_, _, hfalse, _⟩ | ⟨-, halike, -, -⟩
  · exact hfalse.elim
  · exact halike.state.1.2

/-! ## Going deeper -/

section

variable {σ : Type} {env : Setting σ} {depth' : Nat}

/-- A pass that is not too deep does the same if it may go deeper. -/
theorem sim_deeper (env : Setting σ) (hle : depth ≤ depth') (stack : List Path) (file : Path)
    (source indent : String) :
    Sim (fun _ => False) Eq (fun halt => halt = .tooDeep) (fun _ => True) (fun _ => True)
      (inline env depth stack file source indent) (inline env depth' stack file source indent) := by
  induction depth generalizing depth' stack file source indent with
  | zero =>
    intro p q _
    exact Or.inr (Or.inl ⟨.tooDeep, rfl, rfl, trivial⟩)
  | succ depth ih =>
    obtain ⟨more, rfl⟩ := Nat.exists_eq_add_of_le' (Nat.le_of_add_left_le hle : 1 ≤ depth')
    have hless : depth ≤ more := Nat.le_of_succ_le_succ hle
    refine sim_renderSheet (agree_self env).agreeUntil indent trivial ?_ ?_
    · exact fun _ _ _ _ _ _ _ _ _ hfalse => hfalse.elim
    · exact fun file' text indent' _ _ => ih hless (file :: stack) file' text indent'

/-- A render that ends does so alike if it may go deeper, whatever texts were parsed before. -/
theorem render_mono {parsed parsed' : ParseCache} {found : PathSet} {locator : Locator PathSet}
    {step : RenderStep ParseCache} (hparsed : parsed.Valid) (hparsed' : parsed'.Valid)
    (hle : depth ≤ depth')
    (h : (renderer depth).render parsed file source options locator found = some step) :
    ∃ parsed'' : ParseCache, parsed''.Valid ∧
      (renderer depth').render parsed' file source options locator found =
        some { step with state := parsed'' } := by
  rw [render_eq] at h ⊢
  have hstart : Alike (Eq (α := PathSet)) { search := found, parsed }
      { search := found, parsed := parsed' } := ⟨⟨rfl, hparsed, hparsed'⟩, rfl, rfl, rfl, rfl⟩
  have hsim := sim_deeper (.ofLocator options locator) hle [] file source "" _ _ hstart
  obtain ⟨result, houtcome, rfl⟩ := Option.map_eq_some_iff.1 h
  rcases hsim with ⟨-, hfalse⟩ | ⟨halt, hresult, rfl, -⟩ | ⟨hresult, halike, -⟩
  · exact hfalse.elim
  · -- A pass that is too deep has no outcome.
    have hdeep : (passThrough (.ofLocator options locator) depth file source found parsed).1 =
      .error .tooDeep := hresult
    rw [hdeep] at houtcome
    cases houtcome
  · refine ⟨_, halike.state.2.2, Option.map_eq_some_iff.2 ⟨result, ?_, ?_⟩⟩
    · rw [← houtcome]
      exact (outcome_congr hresult (halike.finish_eq options file)).symm
    · congr 1
      exact halike.state.1.symm

end

end Inline

end StyleWeave
