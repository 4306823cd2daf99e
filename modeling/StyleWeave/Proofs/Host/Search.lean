import StyleWeave.Proofs.Host.Finite
import StyleWeave.Proofs.Host.Names
import StyleWeave.Proofs.Path.Completion

/-!
# Normal forms find the files in memory

The files in memory are kept by normal path, and both the host and the search of the tree ask for
them by the normal form of where a name leads. Since a normal form is its own normal form, what the
host resolves to is found again by the tree and read by both (`isFile_of_resolve`,
`exists_read_of_isFile`). Since a `./` in front drops out, a path and the request for it lead to the
same file from one directory (`nativeFind_of_unrouted`).
-/

namespace StyleWeave

namespace Reference

theorem isRelative_here (name : String) : isRelative ("./" ++ name) = true := by
  refine isRelative_iff.2 (Or.inl ?_)
  rw [String.toList_append]
  exact List.prefix_append _ _

end Reference

namespace Lookup

variable {l : Lookup} {dir : Path} {name : String}

/-- In one directory a relative path is searched for at its normal form. -/
theorem nativeFind_singleton (hrel : Path.isAbsolute ⟨name⟩ = false) (ignore : Option Path) :
    l.nativeFind name [dir] ignore =
      if !isIgnored ignore (dir.join ⟨name⟩).normalize &&
          l.tree.isFile (dir.join ⟨name⟩).normalize then
        some (dir.join ⟨name⟩).normalize
      else none := by
  unfold nativeFind
  dsimp only
  rw [if_neg (by simp [hrel])]
  show [(dir.join ⟨name⟩).normalize].find? _ = _
  rw [List.find?_singleton]

end Lookup

namespace Memory

variable {m : Memory} {key : Reference} {target dir : Path} {name : String}

/-- Without a route, the host only resolves a reference to a file that is in its tree. -/
theorem isFile_of_resolve (hroute : m.routes.lookup key = none) (h : m.resolve key = .ok target) :
    m.tree.isFile target = true := by
  have hfind := find?_of_resolve hroute h
  have hthere := List.find?_some hfind
  obtain ⟨p, rfl⟩ := exists_normalize_of_mem_candidates (List.mem_of_find?_eq_some hfind)
  show (m.files.lookup p.normalize.normalize).isSome = true
  rwa [Path.normalize_normalize]

/-- The host and the tree read the same text from a file that is there. -/
theorem exists_read_of_isFile (h : m.tree.isFile target = true) :
    ∃ text, m.read target = .ok text ∧ m.tree.read target = .ok text := by
  obtain ⟨text, htext⟩ := Option.isSome_iff_exists.1 h
  refine ⟨text, ?_, ?_⟩
  · simp [read, htext]
  · simp [tree, htext]

/-- Without a route, the request for a path leads to the file at its normal form. -/
theorem resolve_here (hrel : Path.isAbsolute ⟨name⟩ = false)
    (hroute : m.routes.lookup ⟨dir, "./" ++ name⟩ = none) :
    (m.resolve ⟨dir, "./" ++ name⟩).toOption =
      if m.tree.isFile (dir.join ⟨name⟩).normalize then some (dir.join ⟨name⟩).normalize
      else none := by
  have hcandidates : m.candidates ⟨dir, "./" ++ name⟩ = [(dir.join ⟨name⟩).normalize] := by
    unfold candidates
    dsimp only
    rw [if_pos (Reference.isRelative_here name), ← Path.normalize_join_here dir hrel]
  have hfile : m.tree.isFile (dir.join ⟨name⟩).normalize =
      (m.files.lookup (dir.join ⟨name⟩).normalize).isSome := by
    show (m.files.lookup (dir.join ⟨name⟩).normalize.normalize).isSome = _
    rw [Path.normalize_normalize]
  unfold resolve
  rw [hroute, hcandidates, hfile]
  dsimp only
  rw [List.find?_singleton]
  by_cases hthere : (m.files.lookup (dir.join ⟨name⟩).normalize).isSome = true
  · rw [if_pos hthere]
    rfl
  · rw [if_neg hthere]
    rfl

/-- Without a route, the search of one directory finds what the host resolves the request for the
path to, unless that is the importing document. -/
theorem nativeFind_of_unrouted (cache : Cache) (options : Options) (ignore : Option Path)
    (hrel : Path.isAbsolute ⟨name⟩ = false)
    (hroute : m.routes.lookup ⟨dir, "./" ++ name⟩ = none) :
    Lookup.nativeFind ⟨m.tree, cache, options⟩ name [dir] ignore =
      (m.resolve ⟨dir, "./" ++ name⟩).toOption.filter
        fun file => !Lookup.isIgnored ignore file := by
  rw [Lookup.nativeFind_singleton hrel, resolve_here hrel hroute]
  dsimp only
  by_cases hfile : m.tree.isFile (dir.join ⟨name⟩).normalize = true
  · rw [if_pos hfile, hfile, Bool.and_true, Option.filter_some]
  · rw [if_neg hfile, Option.filter_none, if_neg]
    simp [hfile]

/-- Normal forms are canonical and compatible with joining. Hence what a host in memory resolves to
without a route is a file that can be read, and the search of one directory for a relative path
agrees with the host's answer to the request for it. -/
theorem normalize_canonical (m : Memory) (a b : Path) :
    a.normalize.normalize = a.normalize ∧
    (∀ a' : Path, a == a' → a.normalize = a'.normalize) ∧
    Path.Component.current ∉ a.normalize.components ∧
    (∀ before after, a.normalize.components = before ++ .parent :: after →
      (∀ c ∈ before, c = .parent) ∧ a.normalize.isAbsolute = false) ∧
    (a.normalize.join b).normalize = (a.join b).normalize ∧
    (∀ key target, m.routes.lookup key = none → m.resolve key = .ok target →
      m.tree.isFile target = true ∧
        ∃ text, m.read target = .ok text ∧ m.tree.read target = .ok text) ∧
    (∀ cache options dir name ignore, Path.isAbsolute ⟨name⟩ = false →
      m.routes.lookup ⟨dir, "./" ++ name⟩ = none →
      Lookup.nativeFind ⟨m.tree, cache, options⟩ name [dir] ignore =
        (m.resolve ⟨dir, "./" ++ name⟩).toOption.filter
          fun file => !Lookup.isIgnored ignore file) := by
  refine ⟨a.normalize_normalize, ?_, a.current_notMem_normalize, ?_,
    a.normalize_join_normalize b, ?_, ?_⟩
  · intro a' heq
    exact Path.normalize_congr (Path.beq_iff.1 heq)
  · intro before after hcomponents
    exact Path.parent_in_front hcomponents
  · intro key target hroute hresolve
    have hfile : m.tree.isFile target = true := isFile_of_resolve hroute hresolve
    exact ⟨hfile, exists_read_of_isFile hfile⟩
  · intro cache options dir name ignore hrel hroute
    exact nativeFind_of_unrouted cache options ignore hrel hroute

/-- The directory `/app/x` is left again, and the file in `/app` is found, resolved to and read. -/
theorem normalize_canonical_leftDirectory :
    let m : Memory := { files := [(⟨"/app/a.styl"⟩, "a\n")] }
    m.routes.lookup ⟨⟨"/app/x"⟩, "./../a.styl"⟩ = none ∧
    m.resolve ⟨⟨"/app/x"⟩, "./../a.styl"⟩ = .ok ⟨"/app/a.styl"⟩ ∧
    (∃ text, m.read ⟨"/app/a.styl"⟩ = .ok text ∧ m.tree.read ⟨"/app/a.styl"⟩ = .ok text) ∧
    Lookup.nativeFind ⟨m.tree, {}, {}⟩ "../a.styl" [⟨"/app/x"⟩] none = some ⟨"/app/a.styl"⟩ := by
  intro m
  have hroute : m.routes.lookup ⟨⟨"/app/x"⟩, "./../a.styl"⟩ = none := rfl
  have hresolve : m.resolve ⟨⟨"/app/x"⟩, "./../a.styl"⟩ = .ok ⟨"/app/a.styl"⟩ := by
    rfl
  obtain ⟨-, -, -, -, -, hread, hfind⟩ := normalize_canonical m ⟨"/app/x"⟩ ⟨"../a.styl"⟩
  refine ⟨hroute, hresolve, (hread _ _ hroute hresolve).2, ?_⟩
  rw [hfind {} {} ⟨"/app/x"⟩ "../a.styl" none (by decide) hroute]
  show (m.resolve ⟨⟨"/app/x"⟩, "./../a.styl"⟩).toOption.filter _ = _
  rw [hresolve]
  rfl

end Memory

end StyleWeave
