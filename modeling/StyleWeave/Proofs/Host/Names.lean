import StyleWeave.Disk.Host
import StyleWeave.Host.Memory
import StyleWeave.Proofs.Path.Parent

/-!
# Hosts that keep file names

A host may resolve a request to any path. One without routes or aliases looks for what the request
names, if it names a file: in memory and on a disk, the file that is found has the file name of the
request.
-/

namespace StyleWeave

/-- An answer that is the first of some paths, or else a failure. -/
theorem find?_of_ok {files : List Path} {found : Path → Bool} {failure : Failure} {target : Path}
    (h : (match files.find? found with
      | some file => Except.ok file
      | none => .error failure) = .ok target) : files.find? found = some target := by
  cases hfind : files.find? found with
  | none =>
    rw [hfind] at h
    cases h
  | some file =>
    rw [hfind] at h
    obtain rfl : file = target := Except.ok.inj h
    rfl

/-- Without a route, a host in memory resolves a reference to the first candidate that is there. -/
theorem Memory.find?_of_resolve {m : Memory} {key : Reference} {target : Path}
    (hroute : m.routes.lookup key = none) (h : m.resolve key = .ok target) :
    (m.candidates key).find? (fun p => (m.files.lookup p).isSome) = some target := by
  unfold Memory.resolve at h
  rw [hroute] at h
  exact find?_of_ok h

/-- What a request with a file name is resolved to has that file name. -/
def Host.KeepsNames {σ : Type} (host : Host σ) : Prop :=
  ∀ s key target name, (host.resolve s key).1 = .ok target →
    Path.fileName? ⟨key.request⟩ = some name → target.fileName? = some name

/-- A host in memory keeps file names if it has no routes. -/
theorem Memory.keepsNames {m : Memory} (hroutes : m.routes = []) : m.host.KeepsNames := by
  intro log key target name hresolve hname
  have hcandidate : ∀ p ∈ m.candidates key, p.fileName? = some name := by
    intro p hp
    unfold Memory.candidates at hp
    dsimp only at hp
    split at hp
    · rw [List.mem_singleton.1 hp]
      exact Path.fileName?_normalize (Path.fileName?_join _ hname)
    · split at hp
      · rw [List.mem_singleton.1 hp]
        exact Path.fileName?_normalize hname
      · obtain ⟨dir, -, rfl⟩ := List.mem_map.1 hp
        exact Path.fileName?_normalize (Path.fileName?_join _ hname)
  have hroute : m.routes.lookup key = none := by
    rw [hroutes, List.lookup_nil]
  exact hcandidate target (List.mem_of_find?_eq_some (Memory.find?_of_resolve hroute hresolve))

/-- A host on a disk keeps file names if it has no aliases. -/
theorem Disk.keepsNames (d : Disk) {options : Options} (haliases : options.aliases.entries = []) :
    (d.host options).KeepsNames := by
  intro files key target name hresolve hname
  have hcandidate : ∀ p ∈ candidates options key, p.fileName? = some name := by
    intro p hp
    unfold candidates at hp
    dsimp only at hp
    split at hp
    · rw [List.mem_singleton.1 hp]
      exact Path.fileName?_normalize (Path.fileName?_join _ hname)
    · split at hp
      · rw [List.mem_singleton.1 hp]
        exact Path.fileName?_normalize hname
      · have hnone : aliasCandidates options.aliases key.request = [] := by
          simp [aliasCandidates, alias?, haliases]
        rw [hnone, List.nil_append, moduleCandidates] at hp
        obtain ⟨above, -, hp⟩ := List.mem_flatMap.1 hp
        obtain ⟨dir, -, rfl⟩ := List.mem_map.1 hp
        exact Path.fileName?_normalize (Path.fileName?_join _ hname)
  exact hcandidate target (List.mem_of_find?_eq_some (find?_of_ok hresolve))

end StyleWeave
