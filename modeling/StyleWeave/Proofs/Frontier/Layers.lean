import Mathlib.Data.List.Perm.Subperm
import StyleWeave.Proofs.Frontier.Drain

/-!
# How many layers a drain takes

A document waits only if it neither waits already nor was visited, so all that wait or were visited
are different. If a host leads only to finitely many files, these are at most as many. And each
layer of a drain but the first visits a document, for nothing else waits behind the first. So a
drain ends within one layer more than there are files (`drain_isSome`).
-/

namespace StyleWeave

variable {σ : Type} {host : Host σ} {files : List Path}

theorem Path.length_le_of_differ {paths : List Path}
    (h : paths.Pairwise fun a b => (a == b) = false) (hfiles : paths ⊆ files) :
    paths.length ≤ files.length := by
  have hnodup : paths.Nodup := by
    refine h.imp fun {a b} hab heq => ?_
    subst heq
    simp at hab
  exact (List.subperm_of_subset hnodup hfiles).length_le

/-- All paths that the host resolves references to are among the files. -/
def Host.LeadsInto (host : Host σ) (files : List Path) : Prop :=
  ∀ s key target s', host.resolve s key = (.ok target, s') → target ∈ files

theorem Host.LeadsInto.grants (h : host.LeadsInto files) {context : Path} {requests : List String}
    {s s' : σ} {request : String} {target : Path}
    (hg : host.Grants context requests s request target s') : target ∈ files := by
  induction hg with
  | here first => exact h _ _ _ _ first
  | there _ _ ih => exact ih

namespace Frontier

variable {f f' : Frontier} {s s' : σ}

/-- The documents that wait or were visited are files of the list, and no two of them are equal. -/
structure Listed (files : List Path) (f : Frontier) : Prop where
  visits : ∀ v ∈ f.visits, v.file ∈ files
  visited : f.visited ⊆ files
  differ : (f.visited ++ f.visits.map Visit.file).Pairwise fun a b => (a == b) = false

theorem Listed.congr (h : f.Listed files) (hvisits : f'.visits = f.visits)
    (hvisited : f'.visited = f.visited) : f'.Listed files :=
  ⟨hvisits ▸ h.visits, hvisited ▸ h.visited, by rw [hvisits, hvisited]; exact h.differ⟩

theorem Listed.length_le (h : f.Listed files) :
    f.visited.length + f.visits.length ≤ files.length := by
  have hle : (f.visited ++ f.visits.map Visit.file).length ≤ files.length := by
    refine Path.length_le_of_differ h.differ fun file hfile => ?_
    rcases List.mem_append.1 hfile with hfile | hfile
    · exact h.visited hfile
    · obtain ⟨v, hv, rfl⟩ := List.mem_map.1 hfile
      exact h.visits v hv
  simpa using hle

/-! ## Queueing documents -/

theorem differs_of_wantsVisit {file : Path} (h : f.wantsVisit file = true) :
    ∀ other ∈ f.visited ++ f.visits.map Visit.file, (other == file) = false := by
  unfold wantsVisit isVisited at h
  simp only [Bool.and_eq_true, Bool.not_eq_eq_eq_not, Bool.not_true] at h
  obtain ⟨⟨-, hvisited⟩, hvisits⟩ := h
  intro other hother
  refine Bool.eq_false_iff.2 fun heq => ?_
  rcases List.mem_append.1 hother with hother | hother
  · have hcontains : f.visited.contains file = true :=
      List.contains_iff_exists_mem_beq.2 ⟨other, hother, BEq.symm heq⟩
    simp [hvisited] at hcontains
  · obtain ⟨v, hv, rfl⟩ := List.mem_map.1 hother
    have hany := List.any_eq_false.1 hvisits v hv
    exact hany heq

theorem Listed.enqueueVisit (h : f.Listed files) {file : Path} (hfile : file ∈ files)
    (text : Option String) : (f.enqueueVisit file text).Listed files := by
  unfold Frontier.enqueueVisit
  split
  · next hwants =>
    refine ⟨?_, h.visited, ?_⟩
    · intro v hv
      rcases List.mem_append.1 hv with hv | hv
      · exact h.visits v hv
      · rwa [List.mem_singleton.1 hv]
    · rw [List.map_append, ← List.append_assoc, List.pairwise_append]
      refine ⟨h.differ, List.pairwise_singleton _ _, fun a ha b hb => ?_⟩
      rw [show b = file from List.mem_singleton.1 hb]
      exact differs_of_wantsVisit hwants a ha
  · exact h

theorem Listed.addDependency (h : f.Listed files) {file : Path} (hfile : file ∈ files) :
    (f.addDependency file).Listed files :=
  (h.enqueueVisit hfile none).congr rfl rfl

theorem Listed.addDependencies (h : f.Listed files) {found : List Path} (hfound : found ⊆ files) :
    (f.addDependencies found).Listed files := by
  induction found generalizing f with
  | nil => exact h
  | cons file rest ih =>
    rw [List.cons_subset] at hfound
    exact ih (h.addDependency hfound.1) hfound.2

/-! ## Resolving -/

/-- A resolution queues at most the document that it leads to, and visits none. -/
theorem Resolution.listed {key : Reference} {speculative : Bool}
    {result : Except Failure (Option Path)} (hhost : host.LeadsInto files) (h : f.Listed files)
    (hr : Resolution host key speculative f s result f' s') :
    f'.Listed files ∧ f'.visited = f.visited := by
  cases hr with
  | cached => exact ⟨h, rfl⟩
  | dropped => exact ⟨h.congr rfl rfl, rfl⟩
  | refused => exact ⟨h.congr rfl rfl, rfl⟩
  | granted fresh grants =>
    refine ⟨Listed.enqueueVisit ?_ (hhost.grants grants) none, enqueueVisit_visited _ _ none⟩
    exact h.congr rfl rfl

theorem resolveQueue_listed (hhost : host.LeadsInto files) (queries : List Query)
    (h : f.Listed files) (s : σ) :
    (resolveQueue host queries f s).2.1.Listed files ∧
      (resolveQueue host queries f s).2.1.visited = f.visited ∧
      ((resolveQueue host queries f s).1 = .ok () →
        (resolveQueue host queries f s).2.1.queries = []) := by
  induction queries generalizing f s with
  | nil => exact ⟨h.congr rfl rfl, rfl, fun _ => rfl⟩
  | cons q rest ih =>
    obtain ⟨result, f₁, s₁, hr, heq⟩ := resolveQueue_cons host q rest f s
    have h' : ({ f with queries := rest } : Frontier).Listed files := h.congr rfl rfl
    obtain ⟨h₁, hvisited⟩ := hr.listed hhost h'
    rw [heq]
    cases result with
    | error failure => exact ⟨h₁, hvisited, by simp⟩
    | ok found =>
      obtain ⟨h₂, hvisited', hempty⟩ := ih h₁ s₁
      exact ⟨h₂, hvisited'.trans hvisited, hempty⟩

/-! ## Scanning -/

/-- If no two documents that wait or were visited are equal, all that wait are taken. -/
theorem takeVisits_of_differ {visits : List Visit} {f : Frontier}
    (h : (f.visited ++ visits.map Visit.file).Pairwise fun a b => (a == b) = false) :
    takeVisits visits f =
      (visits, { f with visits := [], visited := f.visited ++ visits.map Visit.file }) := by
  induction visits generalizing f with
  | nil => simp [takeVisits]
  | cons v rest ih =>
    have hfresh : f.isVisited v.file = false := by
      refine Bool.eq_false_iff.2 fun hvisited => ?_
      obtain ⟨other, hother, heq⟩ := List.contains_iff_exists_mem_beq.1 hvisited
      have hdiffers := (List.pairwise_append.1 h).2.2 other hother v.file (by simp)
      rw [Path.beq_comm, heq] at hdiffers
      simp at hdiffers
    have hrest := ih (f := { f with visited := f.visited ++ [v.file] }) (by simpa using h)
    rw [takeVisits, if_neg (by simp [hfresh]), hrest]
    simp

theorem flushVisits_listed (host : Host σ) (h : f.Listed files) (s : σ) :
    (flushVisits host f s).1.Listed files ∧
      (flushVisits host f s).1.visited = f.visited ++ f.visits.map Visit.file := by
  unfold flushVisits
  rw [takeVisits_of_differ h.differ]
  dsimp only
  generalize (scanBatch host _ f.visits s).1 = scans
  have hn := noted_foldl_takeScan scans
    { f with visits := [], visited := f.visited ++ f.visits.map Visit.file }
  refine ⟨⟨?_, ?_, ?_⟩, hn.visited⟩
  · simp [hn.visits]
  · rw [hn.visited]
    intro file hfile
    rcases List.mem_append.1 hfile with hfile | hfile
    · exact h.visited hfile
    · obtain ⟨v, hv, rfl⟩ := List.mem_map.1 hfile
      exact h.visits v hv
  · rw [hn.visited, hn.visits]
    simpa using h.differ

/-! ## Drains -/

theorem Listed.drain (hhost : host.LeadsInto files) (h : f.Listed files) {layers : Nat}
    {result : Except Failure Unit} (hd : drain host layers f s = some (result, f', s')) :
    f'.Listed files := by
  have hlayer : ∀ {f f₁ f₂ : Frontier} {s s₁ s₂ : σ} {result : Except Failure Unit},
      f.Listed files → flushVisits host f s = (f₁, s₁) →
      resolveQueue host f₁.queries f₁ s₁ = (result, f₂, s₂) → f₂.Listed files := by
    intro f f₁ f₂ s s₁ s₂ result h scanned resolved
    have h₁ := (flushVisits_listed host h s).1
    rw [scanned] at h₁
    have h₂ := (resolveQueue_listed hhost f₁.queries h₁ s₁).1
    rwa [resolved] at h₂
  have hdrains := drains_of_drain hd
  clear hd
  induction hdrains with
  | idle => exact h
  | failed _ scanned resolved => exact hlayer h scanned resolved
  | layer _ scanned resolved _ ih => exact ih (hlayer h scanned resolved)

theorem length_visits_pos (hp : f.hasPending = true) (hq : f.queries = []) :
    0 < f.visits.length := by
  rw [List.length_pos_iff]
  intro hv
  simp [hasPending, hv, hq] at hp

/-- A drain ends if it has one layer more than there are files that were not visited, and if no
reference waits, one layer less will do. -/
theorem drain_isSome (hhost : host.LeadsInto files) {layers : Nat} (h : f.Listed files) (s : σ)
    (hlayers : files.length < layers + f.visited.length ∨
      f.queries = [] ∧ files.length ≤ layers + f.visited.length) :
    (drain host layers f s).isSome = true := by
  have hle := h.length_le
  induction layers generalizing f s with
  | zero =>
    by_cases hp : f.hasPending = true
    · exfalso
      rcases hlayers with hlayers | ⟨hq, hlayers⟩
      · omega
      · have hvisits := length_visits_pos hp hq
        omega
    · rw [drain_of_idle (by simpa using hp)]
      rfl
  | succ layers ih =>
    by_cases hp : f.hasPending = true
    · rw [drain_succ hp]
      obtain ⟨h₁, hvisited⟩ := flushVisits_listed host h s
      obtain ⟨h₂, hvisited', hempty⟩ :=
        resolveQueue_listed hhost (flushVisits host f s).1.queries h₁ (flushVisits host f s).2
      unfold flushQueries
      generalize resolveQueue host _ (flushVisits host f s).1 (flushVisits host f s).2 = resolved
        at h₂ hvisited' hempty ⊢
      obtain ⟨result₁, f₂, s₂⟩ := resolved
      cases result₁ with
      | error failure => rfl
      | ok found =>
        dsimp only at h₂ hvisited' hempty
        have hlen : f₂.visited.length = f.visited.length + f.visits.length := by
          rw [hvisited', hvisited, List.length_append, List.length_map]
        refine ih h₂ s₂ (Or.inr ⟨hempty rfl, ?_⟩) h₂.length_le
        rcases hlayers with hlayers | ⟨hq, hlayers⟩
        · omega
        · have hvisits := length_visits_pos hp hq
          omega
    · rw [drain_of_idle (by simpa using hp)]
      rfl

/-- A drain that ends does so alike in more layers. -/
theorem drain_mono {layers layers' : Nat} {answer : Except Failure Unit × Frontier × σ}
    (hle : layers ≤ layers') (h : drain host layers f s = some answer) :
    drain host layers' f s = some answer := by
  induction layers generalizing layers' f s with
  | zero =>
    by_cases hp : f.hasPending = true
    · rw [drain_zero hp] at h
      cases h
    · have hidle : f.hasPending = false := by simpa using hp
      rw [drain_of_idle hidle] at h ⊢
      exact h
  | succ layers ih =>
    by_cases hp : f.hasPending = true
    · obtain ⟨more, rfl⟩ := Nat.exists_eq_add_of_le' (Nat.le_of_add_left_le hle : 1 ≤ layers')
      rw [drain_succ hp] at h ⊢
      generalize flushQueries host _ (flushVisits host f s).2 = flushed at h ⊢
      obtain ⟨failure | done, f₁, s₁⟩ := flushed
      · exact h
      · exact ih (Nat.le_of_succ_le_succ hle) h
    · have hidle : f.hasPending = false := by simpa using hp
      rw [drain_of_idle hidle] at h ⊢
      exact h

end Frontier

end StyleWeave
