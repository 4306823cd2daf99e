import Mathlib.Data.List.Flatten
import StyleWeave.Disk.Host
import StyleWeave.Proofs.Path.Ancestors
import StyleWeave.Proofs.Path.Completion
import StyleWeave.Proofs.Render.Lookup

/-!
# Where a host on a disk looks for packages

A package request stands for a file where its longest alias leads, and for files beneath the module
directories of the context and of all directories above it (`candidates_of_package`).

The directories above the context are those of the context as it is written. A context with a `..`
goes through a directory that is not above it, and the module directories of that one are searched
too. So the host looks where it should, in the right order, but it looks nowhere else only if there
is no `..` in the context.
-/

namespace StyleWeave

theorem Text.stripPrefix?_eq_some_iff {start s rest : String} :
    stripPrefix? start s = some rest ↔ s = start ++ rest := by
  constructor
  · intro h
    obtain ⟨cs, hcs, rfl⟩ := Option.map_eq_some_iff.1 h
    rw [List.isPrefixOf?_eq_some_iff_append_eq] at hcs
    rw [← String.toList_inj, String.toList_append, String.toList_ofList, hcs]
  · intro h
    exact stripPrefix?_eq_some h

namespace Disk

variable {aliases : Dictionary Path} {request name : String} {dir : Path}

/-! ## Aliases -/

/-- The request is the alias, or goes on behind it with a slash. -/
def StartsWithAlias (request name : String) : Prop :=
  request = name ∨ ∃ rest, request = name ++ "/" ++ rest

theorem hasAlias_iff : hasAlias request name = true ↔ StartsWithAlias request name := by
  unfold hasAlias StartsWithAlias
  constructor
  · intro h
    cases hstrip : Text.stripPrefix? name request with
    | none => simp [hstrip] at h
    | some rest =>
      rw [hstrip] at h
      rw [Text.stripPrefix?_eq_some_iff] at hstrip
      rcases Bool.or_eq_true_iff.1 h with hempty | hslash
      · left
        rw [hstrip, String.isEmpty_iff.1 hempty, String.append_empty]
      · right
        obtain ⟨behind, hbehind⟩ := Text.startsWith_iff.1 hslash
        refine ⟨String.ofList behind, ?_⟩
        rw [hstrip, String.append_assoc, ← String.toList_inj]
        simp [String.toList_append, hbehind]
  · rintro (rfl | ⟨rest, rfl⟩)
    · have hstrip : Text.stripPrefix? request request = some "" :=
        Text.stripPrefix?_eq_some String.append_empty.symm
      rw [hstrip]
      rfl
    · have hstrip : Text.stripPrefix? name (name ++ "/" ++ rest) = some ("/" ++ rest) :=
        Text.stripPrefix?_eq_some String.append_assoc
      rw [hstrip]
      simp [Text.startsWith_iff, String.toList_append]

theorem StartsWithAlias.isPrefix (h : StartsWithAlias request name) :
    name.toList <+: request.toList := by
  rcases h with rfl | ⟨rest, rfl⟩
  · exact List.prefix_rfl
  · rw [String.append_assoc, String.toList_append]
    exact List.prefix_append _ _

/-- Of two aliases of a request, the one with fewer bytes is the beginning of the other. -/
theorem length_le_of_utf8ByteSize_le {a b : String} (ha : StartsWithAlias request a)
    (hb : StartsWithAlias request b) (h : a.utf8ByteSize ≤ b.utf8ByteSize) :
    a.length ≤ b.length := by
  rcases List.prefix_or_prefix_of_prefix ha.isPrefix hb.isPrefix with hab | ⟨rest, hrest⟩
  · exact hab.length_le
  · have hlonger : a = b ++ String.ofList rest := by
      rw [← String.toList_inj, String.toList_append, String.toList_ofList, hrest]
    rw [hlonger, String.utf8ByteSize_append] at h
    have hempty : String.ofList rest = "" := String.utf8ByteSize_eq_zero_iff.1 (by omega)
    rw [hlonger, hempty, String.append_empty]

/-- `name` is the longest alias of the request, and stands for `dir`. -/
structure LongestAlias (aliases : Dictionary Path) (request name : String) (dir : Path) :
    Prop where
  mem : (name, dir) ∈ aliases.entries
  starts : StartsWithAlias request name
  longest : ∀ e ∈ aliases.entries, StartsWithAlias request e.1 → e.1.length ≤ name.length

/-- The longer of two entries, and the later one if they are equally long. -/
def longer (best e : String × Path) : String × Path :=
  if best.1.utf8ByteSize ≤ e.1.utf8ByteSize then e else best

theorem foldl_longer_spec (entries : List (String × Path)) (first : String × Path) :
    entries.foldl longer first ∈ first :: entries ∧
      ∀ e ∈ first :: entries, e.1.utf8ByteSize ≤ (entries.foldl longer first).1.utf8ByteSize := by
  induction entries generalizing first with
  | nil => simp
  | cons next rest ih =>
    obtain ⟨hmem, hmax⟩ := ih (longer first next)
    rw [List.foldl_cons]
    have hchosen : longer first next = first ∨ longer first next = next := by
      unfold longer
      by_cases hle : first.1.utf8ByteSize ≤ next.1.utf8ByteSize
      · exact Or.inr (if_pos hle)
      · exact Or.inl (if_neg hle)
    have hboth : first.1.utf8ByteSize ≤ (longer first next).1.utf8ByteSize ∧
        next.1.utf8ByteSize ≤ (longer first next).1.utf8ByteSize := by
      unfold longer
      by_cases hle : first.1.utf8ByteSize ≤ next.1.utf8ByteSize
      · rw [if_pos hle]
        omega
      · rw [if_neg hle]
        omega
    have hlast := hmax _ List.mem_cons_self
    constructor
    · rcases List.mem_cons.1 hmem with hfirst | hrest
      · rw [hfirst]
        rcases hchosen with hsame | hsame
        · simp [hsame]
        · simp [hsame]
      · exact List.mem_cons_of_mem _ (List.mem_cons_of_mem _ hrest)
    · intro e he
      rcases List.mem_cons.1 he with rfl | he
      · omega
      · rcases List.mem_cons.1 he with rfl | he
        · omega
        · exact hmax e (List.mem_cons_of_mem _ he)

theorem alias?_of_filter {aliases : Dictionary Path} {request : String}
    {first : String × Path} {rest : List (String × Path)}
    (hfilter : aliases.entries.filter (fun e => hasAlias request e.1) = first :: rest) :
    alias? aliases request = some (rest.foldl longer first) := by
  unfold alias?
  rw [hfilter, List.foldl_cons]
  dsimp only
  clear hfilter
  induction rest generalizing first with
  | nil => rfl
  | cons next rest ih =>
    rw [List.foldl_cons, List.foldl_cons, ← ih]
    unfold longer
    by_cases hle : first.1.utf8ByteSize ≤ next.1.utf8ByteSize
    · simp [hle]
    · simp [hle]

theorem alias?_spec (aliases : Dictionary Path) (request : String) :
    (alias? aliases request = none ∧ ∀ e ∈ aliases.entries, ¬ StartsWithAlias request e.1) ∨
      ∃ name dir, alias? aliases request = some (name, dir) ∧
        LongestAlias aliases request name dir := by
  cases hfilter : aliases.entries.filter fun e => hasAlias request e.1 with
  | nil =>
    have hnone : alias? aliases request = none := by
      unfold alias?
      rw [hfilter, List.foldl_nil]
    refine Or.inl ⟨hnone, ?_⟩
    intro e he hstarts
    exact List.filter_eq_nil_iff.1 hfilter e he (hasAlias_iff.2 hstarts)
  | cons first rest =>
    obtain ⟨hmem, hmax⟩ := foldl_longer_spec rest first
    rw [← hfilter] at hmem hmax
    obtain ⟨hentry, halias⟩ := List.mem_filter.1 hmem
    have hstarts := hasAlias_iff.1 halias
    refine Or.inr ⟨_, _, alias?_of_filter hfilter, hentry, hstarts, ?_⟩
    intro e he hother
    have hle := hmax e (List.mem_filter.2 ⟨he, hasAlias_iff.2 hother⟩)
    exact length_le_of_utf8ByteSize_le hother hstarts hle

/-- The file where the longest alias leads: what follows the alias, without slashes in front of it,
is joined to the alias's directory. -/
theorem aliasCandidates_spec (aliases : Dictionary Path) (request : String) :
    (aliasCandidates aliases request = [] ∧
      ∀ e ∈ aliases.entries, ¬ StartsWithAlias request e.1) ∨
    ∃ name dir slashes rest, LongestAlias aliases request name dir ∧
      request = name ++ slashes ++ rest ∧ (∀ c ∈ slashes.toList, c = '/') ∧
      Path.isAbsolute ⟨rest⟩ = false ∧
      aliasCandidates aliases request = [(dir.join ⟨rest⟩).normalize] := by
  rcases alias?_spec aliases request with
    ⟨hnone, hall⟩ | ⟨name, dir, hsome, hlongest⟩
  · left
    exact ⟨by rw [aliasCandidates, hnone], hall⟩
  · right
    obtain ⟨behind, hbehind⟩ := hlongest.starts.isPrefix
    have hstrip : Text.stripPrefix? name request = some (String.ofList behind) := by
      rw [Text.stripPrefix?_eq_some_iff, ← String.toList_inj, String.toList_append,
        String.toList_ofList, hbehind]
    refine ⟨name, dir, String.ofList (behind.takeWhile (· = '/')),
      String.ofList (behind.dropWhile (· = '/')), hlongest, ?_, ?_, ?_, ?_⟩
    · rw [← String.toList_inj, ← hbehind]
      simp [String.toList_append, List.append_assoc]
    · intro c hc
      rw [String.toList_ofList] at hc
      simpa using List.mem_takeWhile_imp hc
    · rw [Path.isAbsolute, String.toList_ofList]
      refine Bool.eq_false_iff.2 fun hhead => ?_
      have hslash := of_decide_eq_true hhead
      have hnot := List.head?_dropWhile_not (fun c => decide (c = '/')) behind
      rw [hslash] at hnot
      simp at hnot
    · unfold aliasCandidates
      rw [hsome]
      dsimp only
      rw [hstrip, Option.getD_some, String.toList_ofList]

/-! ## Module directories -/

/-- The files that a request stands for in the module directories of some directories. -/
def beneathAll (moduleDirs : List String) (request : String) (dirs : List Path) : List Path :=
  dirs.flatMap fun dir => moduleDirs.map fun m => ((dir.join ⟨m⟩).join ⟨request⟩).normalize

theorem length_beneathAll (moduleDirs : List String) (request : String) (dirs : List Path) :
    (beneathAll moduleDirs request dirs).length = dirs.length * moduleDirs.length := by
  induction dirs with
  | nil => simp [beneathAll]
  | cons dir dirs ih =>
    unfold beneathAll at ih ⊢
    rw [List.flatMap_cons, List.length_append, ih, List.length_map, List.length_cons,
      Nat.succ_mul, Nat.add_comm]

/-- Only the normal forms of the directories matter. -/
theorem beneathAll_normalize (moduleDirs : List String) (request : String) (dirs : List Path) :
    beneathAll moduleDirs request (dirs.map Path.normalize) =
      beneathAll moduleDirs request dirs := by
  have hfile : ∀ (dir : Path) (m : String),
      ((dir.normalize.join ⟨m⟩).join ⟨request⟩).normalize =
        ((dir.join ⟨m⟩).join ⟨request⟩).normalize := by
    intro dir m
    rw [← Path.normalize_join_normalize (dir.normalize.join ⟨m⟩),
      Path.normalize_join_normalize dir, Path.normalize_join_normalize (dir.join ⟨m⟩)]
  simp only [beneathAll, List.flatMap_map, hfile]

theorem moduleCandidates_eq (moduleDirs : List String) (key : Reference) :
    moduleCandidates moduleDirs key =
      beneathAll moduleDirs key.request key.context.ancestors := rfl

/-- All directories above the normal context are searched, the nearest first. -/
theorem beneathAll_ancestors_sublist (moduleDirs : List String) (request : String) {context : Path}
    (habs : context.isAbsolute = true) :
    (beneathAll moduleDirs request context.normalize.ancestors).Sublist
      (beneathAll moduleDirs request context.ancestors) := by
  rw [← beneathAll_normalize, ← beneathAll_normalize moduleDirs request context.ancestors]
  exact (Path.normalize_ancestors_sublist habs).flatMap _

/-- Nothing else is searched exactly if the context has no `..`. -/
theorem beneathAll_ancestors_eq_iff (moduleDirs : List String) (request : String) {context : Path}
    (habs : context.isAbsolute = true) :
    beneathAll moduleDirs request context.ancestors =
        beneathAll moduleDirs request context.normalize.ancestors ↔
      moduleDirs = [] ∨ .parent ∉ context.components := by
  obtain ⟨hnormal, -, hshorter, hsame⟩ := Path.normalize_of_isAbsolute habs
  constructor
  · intro heq
    by_cases hnone : moduleDirs = []
    · exact Or.inl hnone
    · right
      intro hparent
      have hlength := congrArg List.length heq
      rw [length_beneathAll, length_beneathAll, Path.length_ancestors habs,
        Path.length_ancestors hnormal] at hlength
      have hpos : 0 < moduleDirs.length := List.length_pos_iff.2 hnone
      have hcount := Nat.eq_of_mul_eq_mul_right hpos hlength
      have hless := hshorter hparent
      omega
  · rintro (rfl | hparent)
    · have hnone : ∀ dirs, beneathAll [] request dirs = [] := by
        intro dirs
        refine List.length_eq_zero_iff.1 ?_
        rw [length_beneathAll, List.length_nil, Nat.mul_zero]
      rw [hnone, hnone]
    · rw [← beneathAll_normalize, ← beneathAll_normalize moduleDirs request
        context.normalize.ancestors]
      congr 1
      have hlevels : context.normalize.ancestors.map Path.components =
          context.ancestors.map Path.components := by
        rw [Path.components_ancestors habs, Path.components_ancestors hnormal, hsame hparent]
      have hpaths := congrArg
        (List.map fun cs => Path.ofComponents (Path.normalComponents cs)) hlevels
      rw [List.map_map, List.map_map] at hpaths
      exact hpaths.symm

/-! ## Packages -/

/-- A package request from an absolute context stands for the file where its longest alias leads,
if it has an alias, and then for the files in the module directories of the context and of each
directory above it, the nearest first. Those of the normal context and above it are among them, in
their order; they are all of them exactly if the context has no `..`, or there are no module
directories. -/
theorem candidates_of_package (options : Options) {key : Reference}
    (hcontext : key.context.isAbsolute = true) (hrel : Reference.isRelative key.request = false)
    (habs : Path.isAbsolute ⟨key.request⟩ = false) :
    ∃ aliased : List Path,
      candidates options key =
        aliased ++ beneathAll options.moduleDirs key.request key.context.ancestors ∧
      ((aliased = [] ∧ ∀ e ∈ options.aliases.entries, ¬ StartsWithAlias key.request e.1) ∨
        ∃ name dir slashes rest, LongestAlias options.aliases key.request name dir ∧
          key.request = name ++ slashes ++ rest ∧ (∀ c ∈ slashes.toList, c = '/') ∧
          Path.isAbsolute ⟨rest⟩ = false ∧ aliased = [(dir.join ⟨rest⟩).normalize]) ∧
      key.context.ancestors.map Path.components = Path.levels key.context.components ∧
      (beneathAll options.moduleDirs key.request key.context.normalize.ancestors).Sublist
        (beneathAll options.moduleDirs key.request key.context.ancestors) ∧
      (candidates options key =
          aliased ++ beneathAll options.moduleDirs key.request key.context.normalize.ancestors ↔
        options.moduleDirs = [] ∨ .parent ∉ key.context.components) := by
  have hcandidates : candidates options key = aliasCandidates options.aliases key.request ++
      beneathAll options.moduleDirs key.request key.context.ancestors := by
    unfold candidates
    dsimp only
    rw [if_neg (by simp [hrel]), if_neg (by simp [habs]), moduleCandidates_eq]
  refine ⟨aliasCandidates options.aliases key.request, hcandidates,
    aliasCandidates_spec options.aliases key.request, Path.components_ancestors hcontext,
    beneathAll_ancestors_sublist options.moduleDirs key.request hcontext, ?_⟩
  rw [hcandidates, List.append_cancel_left_eq]
  exact beneathAll_ancestors_eq_iff options.moduleDirs key.request hcontext

/-- From `/app/../lib`, a request goes through its longest alias first, and the module directories
of `/lib` and `/` are searched in this order. -/
theorem candidates_of_package_printTheme :
    let options : Options := { aliases := .ofList [("theme", ⟨"/srv/theme"⟩),
      ("theme/print", ⟨"/srv/print"⟩)] }
    let key : Reference := ⟨⟨"/app/../lib"⟩, "theme/print//page.styl"⟩
    key.context.isAbsolute = true ∧ Reference.isRelative key.request = false ∧
      Path.isAbsolute ⟨key.request⟩ = false ∧
      (beneathAll options.moduleDirs key.request key.context.normalize.ancestors).Sublist
        (beneathAll options.moduleDirs key.request key.context.ancestors) ∧
      ∃ aliased : List Path, aliased.length = 1 ∧ candidates options key =
        aliased ++ beneathAll options.moduleDirs key.request key.context.ancestors := by
  intro options key
  have hcontext : key.context.isAbsolute = true := by decide
  have hrel : Reference.isRelative key.request = false := by decide
  have habs : Path.isAbsolute ⟨key.request⟩ = false := by decide
  obtain ⟨aliased, hall, halias, -, hsublist, -⟩ :=
    candidates_of_package options hcontext hrel habs
  refine ⟨hcontext, hrel, habs, hsublist, aliased, ?_, hall⟩
  rcases halias with ⟨-, hnone⟩ | ⟨name, dir, slashes, rest, -, -, -, -, rfl⟩
  · refine absurd ?_ (hnone ("theme", ⟨"/srv/theme"⟩) (List.mem_of_mem_head? rfl))
    exact Or.inr ⟨"print//page.styl", by decide⟩
  · rfl

/-- From `/app/../lib`, a package in the module directory of `/app` is found, although `/app` is not
above `/lib`. -/
theorem candidates_of_leftDirectory :
    let key : Reference := ⟨⟨"/app/../lib"⟩, "pkg/a.styl"⟩
    let disk : Disk := { entries := [("app", .directory [("node_modules",
      .directory [("pkg", .directory [("a.styl", .file ⟨#[]⟩)])])])] }
    key.context.isAbsolute = true ∧ Reference.isRelative key.request = false ∧
      Path.isAbsolute ⟨key.request⟩ = false ∧
      (beneathAll ["node_modules"] key.request key.context.normalize.ancestors).map Path.text =
        ["/lib/node_modules/pkg/a.styl", "/node_modules/pkg/a.styl"] ∧
      (candidates {} key).map Path.text = ["/lib/node_modules/pkg/a.styl",
        "/node_modules/pkg/a.styl", "/app/node_modules/pkg/a.styl", "/node_modules/pkg/a.styl"] ∧
      (disk.resolve {} key).toOption.map Path.text = some "/app/node_modules/pkg/a.styl" := by
  decide +kernel

end Disk

end StyleWeave
