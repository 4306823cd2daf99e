import StyleWeave.Disk.Walk
import StyleWeave.Proofs.Path.Along

/-!
# The documents beneath a directory

A walk of a directory meets the files beneath it, each once (`Tree.mem_walk`, `Tree.pairwise_walk`).
-/

namespace StyleWeave.Disk

variable {α : Type} {name : String} {names : List String}

theorem lookup_eq_some_iff {entries : List (String × α)} (h : (entries.map Prod.fst).Nodup)
    {value : α} : entries.lookup name = some value ↔ (name, value) ∈ entries := by
  induction entries with
  | nil => simp
  | cons entry rest ih =>
    obtain ⟨k, v⟩ := entry
    obtain ⟨hfresh, hrest⟩ := List.nodup_cons.1 h
    by_cases hk : name = k
    · subst hk
      rw [List.lookup_cons_self, List.mem_cons]
      constructor
      · intro hv
        exact Or.inl (by rw [Option.some.inj hv])
      · rintro (hv | hmem)
        · rw [(Prod.mk.inj hv).2]
        · exact absurd (List.mem_map_of_mem hmem) hfresh
    · rw [List.lookup_cons, beq_eq_false_iff_ne.2 hk, List.mem_cons]
      dsimp only
      rw [ih hrest]
      constructor
      · intro hmem
        exact Or.inr hmem
      · rintro (hv | hmem)
        · exact absurd (Prod.mk.inj hv).1 hk
        · exact hmem

namespace Tree

variable {t u : Tree} {entries : List (String × Tree)}

/-! ## Proper trees -/

/-- No directory of the tree holds two entries of one name, and all names are such as files and
directories can have. -/
def Proper (t : Tree) : Prop :=
  ∀ names entries, t.descend names = some (.directory entries) →
    (entries.map Prod.fst).Nodup ∧ Path.LegalNames (entries.map Prod.fst)

theorem descend_append (t : Tree) (names names' : List String) :
    t.descend (names ++ names') = (t.descend names).bind (descend names') := by
  induction names generalizing t with
  | nil => rfl
  | cons name names ih =>
    rw [List.cons_append, descend, descend, Option.bind_assoc]
    congr 1
    funext u
    exact ih u

theorem Proper.descend (ht : t.Proper) (h : t.descend names = some u) : u.Proper := by
  intro names' entries hentries
  refine ht (names ++ names') entries ?_
  rw [descend_append, h, Option.bind_some, hentries]

theorem Proper.distinct (ht : (directory entries).Proper) :
    (entries.map Prod.fst).Nodup ∧ Path.LegalNames (entries.map Prod.fst) :=
  ht [] entries rfl

theorem Proper.lookup (ht : (directory entries).Proper) :
    entries.lookup name = some u ↔ (name, u) ∈ entries :=
  lookup_eq_some_iff ht.distinct.1

theorem Proper.of_mem (ht : (directory entries).Proper) (hmem : (name, u) ∈ entries) :
    u.Proper := by
  have hdescend : (directory entries).descend [name] = some u := by
    show (entries.lookup name).bind (Tree.descend []) = some u
    rw [ht.lookup.2 hmem]
    rfl
  exact ht.descend hdescend

theorem proper_file (bytes : ByteArray) : (file bytes).Proper := by
  intro names entries h
  cases names with
  | nil => cases h
  | cons name names => cases h

theorem proper_directory (hdistinct : (entries.map Prod.fst).Nodup)
    (hlegal : Path.LegalNames (entries.map Prod.fst)) (hproper : ∀ e ∈ entries, e.2.Proper) :
    (directory entries).Proper := by
  intro names below h
  cases names with
  | nil =>
    obtain rfl := directory.inj (Option.some.inj h)
    exact ⟨hdistinct, hlegal⟩
  | cons name names =>
    obtain ⟨u, hu, hrest⟩ := Option.bind_eq_some_iff.1 h
    exact hproper (name, u) ((lookup_eq_some_iff hdistinct).1 hu) names below hrest

/-- What leads on in a proper tree are names that files and directories can have. -/
theorem Proper.legalNames (ht : t.Proper) (h : t.descend names = some u) :
    Path.LegalNames names := by
  induction names generalizing t with
  | nil =>
    intro name hname
    cases hname
  | cons name names ih =>
    obtain ⟨v, hv, hrest⟩ := Option.bind_eq_some_iff.1 h
    cases t with
    | file bytes => cases hv
    | directory entries =>
      have hmem : (name, v) ∈ entries := ht.lookup.1 hv
      intro other hother
      rcases List.mem_cons.1 hother with rfl | hother
      · exact ht.distinct.2 _ (List.mem_map_of_mem hmem)
      · exact ih (ht.of_mem hmem) hrest other hother

/-! ## Walks -/

/-- The directories that the names lead through from a path can be listed: the system follows their
paths. -/
def Listable (p : Path) : List String → Prop
  | [] => True
  | name :: names => p.text.utf8ByteSize ≤ maxPath ∧ Listable (p.join ⟨name⟩) names

mutual

/-- A walk meets the files that names lead to through directories that can be listed. -/
theorem mem_walk : (t : Tree) → t.Proper → ∀ p q : Path,
    q ∈ t.walk p ↔ ∃ names bytes, t.descend names = some (.file bytes) ∧ Listable p names ∧
      q = p.along names
  | .file bytes, _, p, q => by
    rw [walk, List.mem_singleton]
    constructor
    · rintro rfl
      exact ⟨[], bytes, rfl, trivial, rfl⟩
    · rintro ⟨names, bytes', hfile, -, rfl⟩
      cases names with
      | nil => rfl
      | cons name names => cases hfile
  | .directory entries, ht, p, q => by
    have hall := mem_walkAll entries (fun e he => ht.of_mem he) p q
    rw [walk]
    constructor
    · intro hq
      by_cases hlong : maxPath < p.text.utf8ByteSize
      · rw [if_pos hlong] at hq
        cases hq
      · rw [if_neg hlong] at hq
        obtain ⟨⟨name, u⟩, hmem, names, bytes, hfile, hlist, rfl⟩ := hall.1 hq
        refine ⟨name :: names, bytes, ?_, ⟨Nat.le_of_not_lt hlong, hlist⟩, rfl⟩
        rw [Tree.descend, show (directory entries).contents = entries from rfl,
          ht.lookup.2 hmem]
        exact hfile
    · rintro ⟨names, bytes, hfile, hlist, rfl⟩
      cases names with
      | nil => cases hfile
      | cons name names =>
        obtain ⟨u, hu, hrest⟩ := Option.bind_eq_some_iff.1 hfile
        obtain ⟨hshort, hlist⟩ := hlist
        rw [if_neg (Nat.not_lt.2 hshort)]
        exact hall.2 ⟨(name, u), ht.lookup.1 hu, names, bytes, hrest, hlist, rfl⟩

theorem mem_walkAll : (entries : List (String × Tree)) → (∀ e ∈ entries, e.2.Proper) →
    ∀ p q : Path, q ∈ walkAll p entries ↔ ∃ e ∈ entries, ∃ names bytes,
      e.2.descend names = some (.file bytes) ∧ Listable (p.join ⟨e.1⟩) names ∧
        q = (p.join ⟨e.1⟩).along names
  | [], _, p, q => by simp [walkAll]
  | (name, t) :: rest, h, p, q => by
    have hfirst := mem_walk t (h _ List.mem_cons_self) (p.join ⟨name⟩) q
    have hrest := mem_walkAll rest (fun e he => h e (List.mem_cons_of_mem _ he)) p q
    rw [walkAll, List.mem_append, hfirst, hrest]
    simp only [List.mem_cons, exists_eq_or_imp]

end

/-- What is met beneath one entry of a directory is found behind its name. -/
theorem components_of_mem_walk (hname : (Path.Component.name name).Legal) (ht : t.Proper)
    {p q : Path} (h : q ∈ t.walk (p.join ⟨name⟩)) :
    ∃ names, q.components = p.components ++ .name name :: names := by
  obtain ⟨names, bytes, hfile, -, rfl⟩ := (mem_walk t ht _ q).1 h
  have hnames : Path.LegalNames (name :: names) := by
    intro other hother
    rcases List.mem_cons.1 hother with rfl | hother
    · exact hname
    · exact ht.legalNames hfile other hother
  exact ⟨names.map .name, Path.components_along p hnames⟩

mutual

/-- A walk meets no file twice. -/
theorem pairwise_walk : (t : Tree) → t.Proper → ∀ p : Path,
    (t.walk p).Pairwise fun q q' => (q == q') = false
  | .file bytes, _, p => by
    rw [walk]
    exact List.pairwise_singleton _ _
  | .directory entries, ht, p => by
    rw [walk]
    by_cases hlong : maxPath < p.text.utf8ByteSize
    · rw [if_pos hlong]
      exact List.Pairwise.nil
    · rw [if_neg hlong]
      exact pairwise_walkAll entries ht.distinct.1 ht.distinct.2 (fun e he => ht.of_mem he) p

theorem pairwise_walkAll : (entries : List (String × Tree)) → (entries.map Prod.fst).Nodup →
    Path.LegalNames (entries.map Prod.fst) → (∀ e ∈ entries, e.2.Proper) → ∀ p : Path,
    (walkAll p entries).Pairwise fun q q' => (q == q') = false
  | [], _, _, _, p => List.Pairwise.nil
  | (name, t) :: rest, hdistinct, hlegal, hproper, p => by
    obtain ⟨hfresh, hrest⟩ := List.nodup_cons.1 hdistinct
    have ht : t.Proper := hproper _ List.mem_cons_self
    have hothers : ∀ e ∈ rest, e.2.Proper := fun e he => hproper e (List.mem_cons_of_mem _ he)
    rw [walkAll, List.pairwise_append]
    refine ⟨pairwise_walk t ht (p.join ⟨name⟩),
      pairwise_walkAll rest hrest hlegal.tail hothers p, ?_⟩
    intro q hq q' hq'
    obtain ⟨e, he, names, bytes, hfile, hlist, rfl⟩ := (mem_walkAll rest hothers p q').1 hq'
    have hother := (mem_walk e.2 (hothers e he) (p.join ⟨e.1⟩) _).2
      ⟨names, bytes, hfile, hlist, rfl⟩
    obtain ⟨behind, hcomponents⟩ := components_of_mem_walk (hlegal name List.mem_cons_self) ht hq
    obtain ⟨behind', hcomponents'⟩ := components_of_mem_walk
      (hlegal.tail e.1 (List.mem_map_of_mem he)) (hothers e he) hother
    refine Bool.eq_false_iff.2 fun heq => hfresh ?_
    have hsame := Path.beq_iff.1 heq
    rw [hcomponents, hcomponents', List.append_cancel_left_eq] at hsame
    obtain ⟨hname, -⟩ := List.cons.inj hsame
    rw [Path.Component.name.inj hname]
    exact List.mem_map.2 ⟨e, he, rfl⟩

end

end Tree

/-! ## Documents beneath a directory -/

/-- The directories of the disk hold distinct names such as files and directories can have. -/
def Proper (d : Disk) : Prop :=
  d.root.Proper

variable {d : Disk} {options : Options} {p : Path}

theorem bind_eq_ok {ε β γ : Type} {x : Except ε β} {f : β → Except ε γ} {c : γ} :
    (x >>= f) = .ok c ↔ ∃ b, x = .ok b ∧ f b = .ok c := by
  cases x with
  | error e =>
    constructor
    · intro h
      cases h
    · rintro ⟨b, hb, -⟩
      cases hb
  | ok b =>
    constructor
    · intro h
      exact ⟨b, rfl, h⟩
    · rintro ⟨b', hb, h⟩
      rw [Except.ok.inj hb]
      exact h

/-- A path leads to what the names that it is followed along lead to. -/
theorem locate_eq_ok_iff {t : Tree} {start : List String} :
    d.locate p = .ok (start, t) ↔ checkPath p = .ok () ∧
      d.follow (d.origin p) (Path.segments p.text.toList) = .ok start.reverse ∧
        d.root.descend start = some t := by
  unfold locate
  rw [bind_eq_ok]
  constructor
  · rintro ⟨⟨⟩, hcheck, h⟩
    obtain ⟨names, hfollow, h⟩ := bind_eq_ok.1 h
    cases hdescend : d.root.descend names.reverse with
    | none =>
      rw [hdescend] at h
      cases h
    | some u =>
      rw [hdescend] at h
      obtain ⟨rfl, rfl⟩ := Prod.mk.inj (Except.ok.inj h)
      exact ⟨hcheck, by rw [List.reverse_reverse, hfollow], hdescend⟩
  · rintro ⟨hcheck, hfollow, hdescend⟩
    refine ⟨(), hcheck, bind_eq_ok.2 ⟨start.reverse, hfollow, ?_⟩⟩
    rw [List.reverse_reverse, hdescend]
    rfl

theorem text_ne_of_checkPath (h : checkPath p = .ok ()) : p.text ≠ "" := by
  intro hempty
  unfold checkPath at h
  rw [hempty] at h
  cases h

/-- The names lead from a directory to a document that lies in no module directory beneath it. -/
structure Beneath (d : Disk) (options : Options) (p : Path) (names : List String) : Prop where
  file : ∃ start t bytes, d.locate p = .ok (start, t) ∧ t.descend names = some (.file bytes)
  dialect : options.dialect.isDialectFile (p.along names) = true
  outside : ∀ name ∈ names.dropLast, name ∉ options.moduleDirs

theorem isInModules_along (hnames : Path.LegalNames names) :
    isInModules options (p.along names) = false ↔
      (∀ c ∈ p.components, c.text ∉ options.moduleDirs) ∧
        ∀ name ∈ names, name ∉ options.moduleDirs := by
  unfold isInModules
  rw [Path.components_along p hnames, List.any_append, Bool.or_eq_false_iff, List.any_eq_false,
    List.any_eq_false]
  simp only [List.contains_iff_mem, List.mem_map, forall_exists_index, and_imp,
    forall_apply_eq_imp_iff₂]
  exact Iff.rfl

theorem isDirectory_iff : d.isDirectory p = true ↔
    ∃ start entries, d.locate p = .ok (start, .directory entries) := by
  unfold isDirectory
  constructor
  · intro h
    cases hlocate : d.locate p with
    | error e =>
      rw [hlocate] at h
      cases h
    | ok found =>
      obtain ⟨start, t⟩ := found
      rw [hlocate] at h
      cases t with
      | file bytes => cases h
      | directory entries => exact ⟨start, entries, rfl⟩
  · rintro ⟨start, entries, hlocate⟩
    rw [hlocate]

theorem isFile_of_isDirectory (hp : d.isDirectory p = true) : d.isFile p = false := by
  obtain ⟨start, entries, hlocate⟩ := isDirectory_iff.1 hp
  rw [isFile, hlocate]

theorem documents_of_isDirectory (options : Options) (hp : d.isDirectory p = true) :
    ∃ start entries, d.locate p = .ok (start, .directory entries) ∧
      d.documents options p = ((Tree.directory entries).walk p).filter fun file =>
        options.dialect.isDialectFile file && !isInModules options file := by
  obtain ⟨start, entries, hlocate⟩ := isDirectory_iff.1 hp
  refine ⟨start, entries, hlocate, ?_⟩
  rw [documents, if_neg (by simp [isFile_of_isDirectory hp]), filesBeneath, hlocate]

/-- The document that the names lead to is met and not left out. -/
def Listed (options : Options) (p : Path) (names : List String) : Prop :=
  (∀ c ∈ p.components, c.text ∉ options.moduleDirs) ∧
    (∀ name, names.getLast? = some name → name ∉ options.moduleDirs) ∧ Tree.Listable p names

theorem mem_documents_iff (hd : d.Proper) (hp : d.isDirectory p = true) {q : Path} :
    q ∈ d.documents options p ↔
      ∃ names, d.Beneath options p names ∧ Listed options p names ∧ q = p.along names := by
  obtain ⟨start, entries, hlocate, hdocuments⟩ := documents_of_isDirectory options hp
  obtain ⟨-, -, hdescend⟩ := locate_eq_ok_iff.1 hlocate
  have ht : (Tree.directory entries).Proper := Tree.Proper.descend hd hdescend
  have houtside : ∀ names : List String, (∀ name ∈ names, name ∉ options.moduleDirs) ↔
      (∀ name ∈ names.dropLast, name ∉ options.moduleDirs) ∧
        ∀ name, names.getLast? = some name → name ∉ options.moduleDirs := by
    intro names
    rcases List.eq_nil_or_concat names with rfl | ⟨directories, last, rfl⟩
    · simp
    · simp [List.concat_eq_append, or_imp, forall_and]
  rw [hdocuments, List.mem_filter, Tree.mem_walk _ ht]
  constructor
  · rintro ⟨⟨names, bytes, hfile, hlist, rfl⟩, hkept⟩
    rw [Bool.and_eq_true, Bool.not_eq_true', isInModules_along (ht.legalNames hfile),
      houtside names] at hkept
    obtain ⟨hdialect, hroot, hdirectories, hlast⟩ := hkept
    exact ⟨names, ⟨⟨start, _, bytes, hlocate, hfile⟩, hdialect, hdirectories⟩,
      ⟨hroot, hlast, hlist⟩, rfl⟩
  · rintro ⟨names, ⟨⟨start', t', bytes, hlocate', hfile⟩, hdialect, hdirectories⟩,
      ⟨hroot, hlast, hlist⟩, rfl⟩
    rw [hlocate] at hlocate'
    obtain ⟨rfl, rfl⟩ := Prod.mk.inj (Except.ok.inj hlocate')
    refine ⟨⟨names, bytes, hfile, hlist, rfl⟩, ?_⟩
    rw [Bool.and_eq_true, Bool.not_eq_true', isInModules_along (ht.legalNames hfile),
      houtside names]
    exact ⟨hdialect, hroot, hdirectories, hlast⟩

/-- No document is listed twice. -/
theorem pairwise_documents (hd : d.Proper) (hp : d.isDirectory p = true) :
    (d.documents options p).Pairwise fun q q' => (q == q') = false := by
  obtain ⟨start, entries, hlocate, hdocuments⟩ := documents_of_isDirectory options hp
  obtain ⟨-, -, hdescend⟩ := locate_eq_ok_iff.1 hlocate
  have ht : (Tree.directory entries).Proper := Tree.Proper.descend hd hdescend
  rw [hdocuments]
  exact (Tree.pairwise_walk _ ht p).filter _

/-! ## Targets -/

/-- A document beneath a directory is a name behind the names of directories. -/
theorem Beneath.exists_name (h : d.Beneath options p names) (hd : d.Proper)
    (hp : d.isDirectory p = true) : p.text ≠ "" ∧ Path.LegalNames names ∧
      ∃ directories name, names = directories ++ [name] := by
  obtain ⟨start, entries, hlocate⟩ := isDirectory_iff.1 hp
  obtain ⟨hcheck, -, hdescend⟩ := locate_eq_ok_iff.1 hlocate
  obtain ⟨start', t', bytes, hlocate', hfile⟩ := h.file
  rw [hlocate] at hlocate'
  obtain ⟨rfl, rfl⟩ := Prod.mk.inj (Except.ok.inj hlocate')
  have ht : (Tree.directory entries).Proper := Tree.Proper.descend hd hdescend
  refine ⟨text_ne_of_checkPath hcheck, ht.legalNames hfile, ?_⟩
  rcases List.eq_nil_or_concat names with rfl | ⟨directories, name, rfl⟩
  · cases hfile
  · exact ⟨directories, name, List.concat_eq_append⟩

theorem Beneath.mem_documents_iff (h : d.Beneath options p names) (hd : d.Proper)
    (hp : d.isDirectory p = true) :
    p.along names ∈ d.documents options p ↔ Listed options p names := by
  rw [Disk.mem_documents_iff hd hp]
  constructor
  · rintro ⟨names', h', hlisted, hsame⟩
    obtain ⟨-, hnames, -⟩ := h.exists_name hd hp
    obtain ⟨-, hnames', -⟩ := h'.exists_name hd hp
    rw [Path.along_inj hnames hnames' hsame]
    exact hlisted
  · intro hlisted
    exact ⟨names, h, hlisted, rfl⟩

/-- The target of a document beneath a directory is found along the same names, with another
extension. -/
theorem target_along (hp : d.isFile p = false) (hne : p.text ≠ "") (hnames : Path.LegalNames names)
    (hsome : names ≠ []) (out : Path) :
    d.target p (p.along names) out = (out.along names).withExtension "css" := by
  unfold target
  rw [if_neg (by simp [hp]), Path.relativeTo?_along hne hnames, Option.getD_some,
    Path.along_eq out hnames hsome, Path.join_of_relative out (Path.isAbsolute_names hnames)]

/-- Two documents in one directory whose names differ in the extension only. -/
def Twins (q q' : Path) : Prop :=
  q.directory == q'.directory ∧ q.stem? = q'.stem?

instance (q q' : Path) : Decidable (Twins q q') :=
  inferInstanceAs (Decidable (_ ∧ _))

section

variable {directories directories' : List String} {name' : String}

theorem directory_along (hnames : Path.LegalNames (directories ++ [name])) (p : Path) :
    (p.along (directories ++ [name])).directory.components =
      p.components ++ directories.map .name := by
  rw [Path.components_directory, Path.components_along p hnames, List.map_append,
    ← List.append_assoc]
  exact List.dropLast_concat

theorem stem?_along (hnames : Path.LegalNames (directories ++ [name])) (p : Path) :
    (p.along (directories ++ [name])).stem? = some (Path.splitExtension name).1 := by
  have hname := hnames name (by simp)
  rw [Path.along_concat, Path.stem?, Path.fileName?_join _ (Path.fileName?_of_legal hname)]
  rfl

theorem twins_along (hnames : Path.LegalNames (directories ++ [name]))
    (hnames' : Path.LegalNames (directories' ++ [name'])) (p : Path) :
    Twins (p.along (directories ++ [name])) (p.along (directories' ++ [name'])) ↔
      directories = directories' ∧
        (Path.splitExtension name).1 = (Path.splitExtension name').1 := by
  unfold Twins
  rw [Path.beq_iff, directory_along hnames, directory_along hnames', List.append_cancel_left_eq,
    Path.map_name_inj, stem?_along hnames, stem?_along hnames', Option.some_inj]

theorem components_target (hp : d.isFile p = false) (hne : p.text ≠ "")
    (hnames : Path.LegalNames (directories ++ [name])) (out : Path) :
    (d.target p (p.along (directories ++ [name])) out).components =
      out.components ++ directories.map .name ++ [Path.extendedComponent name "css"] := by
  have hdirectories : Path.LegalNames directories := fun other hother =>
    hnames other (List.mem_append_left _ hother)
  rw [target_along hp hne hnames (by simp), Path.along_concat,
    Path.components_withExtension _ (hnames name (by simp)) (by decide) (by decide),
    Path.components_along out hdirectories]

end

/-- Two documents beneath a directory have one target exactly if they are in one directory and
differ in the extension only. -/
theorem target_beq_iff (hd : d.Proper) (hp : d.isDirectory p = true) {names' : List String}
    (h : d.Beneath options p names) (h' : d.Beneath options p names') (out : Path) :
    d.target p (p.along names) out == d.target p (p.along names') out ↔
      Twins (p.along names) (p.along names') := by
  have hfile := isFile_of_isDirectory hp
  obtain ⟨hne, hnames, directories, name, rfl⟩ := h.exists_name hd hp
  obtain ⟨-, hnames', directories', name', rfl⟩ := h'.exists_name hd hp
  rw [twins_along hnames hnames', Path.beq_iff, components_target hfile hne hnames,
    components_target hfile hne hnames', List.append_assoc, List.append_assoc,
    List.append_cancel_left_eq, ← @Path.extendedComponent_inj name name' "css"]
  constructor
  · intro heq
    obtain ⟨hdirectories, hlast⟩ := List.append_inj' heq rfl
    exact ⟨Path.map_name_inj.1 hdirectories, List.singleton_inj.1 hlast⟩
  · rintro ⟨rfl, hlast⟩
    rw [hlast]

end StyleWeave.Disk
