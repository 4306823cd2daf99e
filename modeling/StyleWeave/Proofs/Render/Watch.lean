import StyleWeave.Proofs.Render.Lookup
import StyleWeave.Proofs.Render.Simulation

/-!
# Watching a pass

A watched pass keeps a record of the imports that were located, in order, and of the files that were
found for them. Watching changes nothing else, and each entry of the record is an answer that the
setting has given.
-/

namespace StyleWeave.Inline

variable {σ : Type}

/-- An import that was located. -/
structure Sighting where
  importer : Path
  name : String
  files : List Path

namespace Setting

/-- The setting that records what it locates. -/
def watch (env : Setting σ) : Setting (σ × List Sighting) where
  options := env.options
  locate importer name s :=
    match env.locate importer name s.1 with
    | (.ok files, found) => (.ok files, found, s.2 ++ [⟨importer, name, files⟩])
    | (.error halt, found) => (.error halt, found, s.2)
  read file s :=
    let (result, found) := env.read file s.1
    (result, found, s.2)

/-- The setting finds these files for the import, in some state of its search. -/
def Finds (env : Setting σ) (sighting : Sighting) : Prop :=
  ∃ s, (env.locate sighting.importer sighting.name s).1 = .ok sighting.files

/-- The searches of a watched pass and of the same pass unwatched. -/
def Watched (env : Setting σ) (s : σ × List Sighting) (t : σ) : Prop :=
  s.1 = t ∧ ∀ sighting ∈ s.2, env.Finds sighting

theorem watch_agree (env : Setting σ) :
    Agree env.Watched (fun _ => False) (fun _ => True) (fun _ _ => True) (fun _ => True)
      env.watch env := by
  refine ⟨rfl, rfl, ?_, ?_, fun _ => trivial⟩
  · rintro importer text name - - ⟨s, sightings⟩ _ ⟨rfl, hs⟩
    right
    unfold watch
    dsimp only at hs ⊢
    rcases hl : env.locate importer name s with ⟨halt | files, found⟩
    · exact ⟨rfl, ⟨rfl, hs⟩, by simp, by simp⟩
    · refine ⟨rfl, ⟨rfl, fun sighting hm => ?_⟩, by simp, by simp⟩
      rcases List.mem_append.1 hm with hm | hm
      · exact hs sighting hm
      · rw [List.mem_singleton.1 hm]
        exact ⟨s, by rw [hl]⟩
  · rintro file - ⟨s, sightings⟩ _ ⟨rfl, hs⟩
    right
    exact ⟨rfl, ⟨rfl, hs⟩, by simp, by simp⟩

end Setting

/-- A watched pass ends as it would unwatched, having written the same, and all that it has recorded
was found. -/
theorem passThrough_watch (env : Setting σ) (depth : Nat) (file : Path) (source : String) (s : σ)
    {parsed : ParseCache} (hparsed : parsed.Valid) :
    (passThrough env.watch depth file source (s, []) parsed).1 =
        (passThrough env depth file source s parsed).1 ∧
      Alike env.Watched (passThrough env.watch depth file source (s, []) parsed).2
        (passThrough env depth file source s parsed).2 := by
  have hstart : env.Watched (s, []) s := ⟨rfl, by simp⟩
  rcases corresponds_passThrough env.watch_agree depth trivial (fun _ _ _ => trivial) hstart hparsed
    hparsed with ⟨_, _, hfalse, _⟩ | ⟨hresult, halike, -, -⟩
  · exact hfalse.elim
  · exact ⟨hresult, halike⟩

end StyleWeave.Inline
