import StyleWeave.Proofs.CommandLine.Acts
import StyleWeave.Proofs.Disk.Writing

/-!
# Rendering a directory

The command renders the documents that a directory stands for one after the other, each to the file
that stands beneath the output directory as the document does beneath its own, with the extension
`css` (`render_directory`). Documents whose names differ in the extension only go to one file, and
the last of them stays.
-/

namespace StyleWeave

namespace Disk

variable {d d' : Disk} {name : String} {directories : List String}

/-! ## Files with another extension -/

/-- The names of the file that a document is rendered to, or of its source map. -/
def renamed (directories : List String) (name ext : String) : List String :=
  directories ++ [(Path.splitExtension name).1 ++ "." ++ ext]

theorem renamed_ne_nil (directories : List String) (name ext : String) :
    renamed directories name ext ≠ [] := by
  simp [renamed]

theorem legalNames_renamed (hnames : Path.LegalNames (directories ++ [name])) {ext : String}
    (hne : ext ≠ "") (hslash : '/' ∉ ext.toList) :
    Path.LegalNames (renamed directories name ext) := by
  intro other hother
  rcases List.mem_append.1 hother with hother | hother
  · exact hnames other (List.mem_append_left _ hother)
  · rw [List.mem_singleton.1 hother]
    exact Path.legal_of_stem (hnames name (by simp)) hne hslash

/-- A document with another extension is found along its renamed names, or is a step up. -/
theorem withExtension_along (out : Path) (hnames : Path.LegalNames (directories ++ [name]))
    {ext : String} (hne : ext ≠ "") (hslash : '/' ∉ ext.toList) :
    (out.along (directories ++ [name])).withExtension ext =
      if (Path.splitExtension name).1 = "." then ⟨(out.along directories).entrance ++ ".."⟩
      else out.along (renamed directories name ext) := by
  have hname := hnames name (by simp)
  rw [Path.along_concat, Path.withExtension_join _ hname, Path.extended]
  by_cases hdot : (Path.splitExtension name).1 = "."
  · rw [if_pos hdot, if_pos hdot]
  · obtain ⟨habs, -⟩ :=
      Path.components_of_legal (Path.legal_of_stem hname hne hslash) true
    rw [if_neg hdot, if_neg hdot, renamed, Path.along_concat, Path.join_of_relative _ habs]

/-- The source map stands beside the rendered document. -/
theorem withExtension_renamed (out : Path) (hnames : Path.LegalNames (directories ++ [name]))
    (hdot : (Path.splitExtension name).1 ≠ ".") :
    (out.along (renamed directories name "css")).withExtension "css.map" =
      out.along (renamed directories name "css.map") := by
  have hlegal : Path.LegalNames (renamed directories name "css") :=
    legalNames_renamed hnames (by decide) (by decide)
  have hstem : (Path.splitExtension ((Path.splitExtension name).1 ++ "." ++ "css")).1 =
      (Path.splitExtension name).1 := by
    have hname : name ≠ "" := by
      rw [Ne, ← String.toList_eq_nil_iff]
      exact (hnames name (by simp)).1
    rw [Path.splitExtension_append (Path.stem_spec name hname).1 (by decide)]
  have hmap : (out.along (renamed directories name "css")).withExtension "css.map" = _ :=
    withExtension_along out hlegal (by decide) (by decide)
  rw [hmap, hstem, if_neg hdot, renamed, renamed, hstem]

/-- No source map stands where a rendered document does. -/
theorem renamed_ne (directories directories' : List String) (name name' : String) :
    renamed directories name "css" ≠ renamed directories' name' "css.map" := by
  intro h
  obtain ⟨-, hlast⟩ := List.append_inj' h rfl
  have htext := congrArg (fun s : String => s.toList.getLast?) (List.singleton_inj.1 hlast)
  simp [String.toList_append] at htext

theorem renamed_inj {directories directories' : List String} {name name' ext : String} :
    renamed directories name ext = renamed directories' name' ext ↔ directories = directories' ∧
      (Path.splitExtension name).1 = (Path.splitExtension name').1 := by
  constructor
  · intro h
    obtain ⟨hdirectories, hlast⟩ := List.append_inj' h rfl
    have htext := congrArg String.toList (List.singleton_inj.1 hlast)
    simp only [String.append_assoc, String.toList_append] at htext
    exact ⟨hdirectories, String.toList_inj.1 (List.append_cancel_right htext)⟩
  · rintro ⟨rfl, hstem⟩
    rw [renamed, renamed, hstem]

end Disk

namespace CommandLine

variable {s s' : Session}

/-! ## Writing one document -/

/-- A rendered document and its source map are written, behind the directories for them. -/
inductive Wrote (target : Path) (rendered : Rendered) (d d' : Disk) : Prop where
  | intro {d₁ d₂ : Disk} (directories : d₁ = d ∨ ∃ paths, d.makeDirectories paths = .ok d₁)
      (css : d₁.write target rendered.css = .ok d₂)
      (sourceMap : d' = d₂ ∨ ∃ map, d₂.write (target.withExtension "css.map") map = .ok d') :
      Wrote target rendered d d'

/-- The three steps of writing: the directories, the rendered document, and its source map. -/
theorem writeRendered_eq (target : Path) (rendered : Rendered) :
    writeRendered target rendered = (do
      target.parent?.elim (pure ()) fun parent => changeDisk (·.makeDirectories parent.ancestors)
      changeDisk (·.write target rendered.css)
      rendered.sourceMap.elim (pure ()) fun map =>
        changeDisk (·.write (target.withExtension "css.map") map)) := by
  unfold writeRendered
  cases target.parent? with
  | none => cases rendered.sourceMap <;> rfl
  | some parent => cases rendered.sourceMap <;> rfl

/-- A change for a value that may be missing. -/
theorem does_elim_changeDisk {α : Type} {value : Option α}
    {change : α → Disk → Except SystemError Disk}
    (h : Does (value.elim (pure ()) fun a => changeDisk (change a)) s () s') :
    s'.disk = s.disk ∨ ∃ a, change a s.disk = .ok s'.disk := by
  cases value with
  | none =>
    obtain ⟨-, rfl⟩ := does_pure_iff.1 h
    exact Or.inl rfl
  | some a =>
    obtain ⟨d, hchange, rfl⟩ := does_changeDisk_iff.1 h
    exact Or.inr ⟨a, hchange⟩

theorem writeRendered_spec {target : Path} {rendered : Rendered}
    (h : Does (writeRendered target rendered) s () s') :
    Wrote target rendered s.disk s'.disk := by
  rw [writeRendered_eq] at h
  obtain ⟨_, s₁, hmake, hbehind⟩ := does_bind_iff.1 h
  obtain ⟨_, s₂, hcss, hmap⟩ := does_bind_iff.1 hbehind
  obtain ⟨d₂, hwrite, rfl⟩ := does_changeDisk_iff.1 hcss
  refine ⟨?_, hwrite, does_elim_changeDisk hmap⟩
  rcases does_elim_changeDisk hmake with hsame | ⟨parent, hdirectories⟩
  · exact Or.inl hsame
  · exact Or.inr ⟨_, hdirectories⟩

/-- Writing a document leaves it at its target, and leaves all that was written along other
names. -/
theorem Wrote.spec {out : Path} {rendered : Rendered} {d d' : Disk} {directories : List String}
    {name : String} (hnames : Path.LegalNames (directories ++ [name]))
    (h : Wrote ((out.along (directories ++ [name])).withExtension "css") rendered d d') :
    (out.along (directories ++ [name])).withExtension "css" =
        out.along (Disk.renamed directories name "css") ∧
      d'.read (out.along (Disk.renamed directories name "css")) = .ok rendered.css ∧
      (∀ p, d.isDirectory p = true → d'.isDirectory p = true) ∧
      ∀ names text, Path.LegalNames names → names ≠ [] →
        names ≠ Disk.renamed directories name "css" →
        names ≠ Disk.renamed directories name "css.map" →
        d.read (out.along names) = .ok text → d'.read (out.along names) = .ok text := by
  obtain @⟨d₁, d₂, hmake, hcss, hmap⟩ := h
  have hlegal : Path.LegalNames (Disk.renamed directories name "css") :=
    Disk.legalNames_renamed hnames (by decide) (by decide)
  have hlegal' : Path.LegalNames (Disk.renamed directories name "css.map") :=
    Disk.legalNames_renamed hnames (by decide) (by decide)
  have hdot : (Path.splitExtension name).1 ≠ "." := by
    intro hdot
    rw [Disk.withExtension_along out hnames (by decide) (by decide), if_pos hdot] at hcss
    exact Disk.not_write_parent hcss
  have htarget : (out.along (directories ++ [name])).withExtension "css" =
      out.along (Disk.renamed directories name "css") := by
    rw [Disk.withExtension_along out hnames (by decide) (by decide), if_neg hdot]
  rw [htarget] at hcss hmap
  obtain ⟨hdirectory, hfile⟩ : (∀ p, d.isDirectory p = true → d₁.isDirectory p = true) ∧
      ∀ p text, d.read p = .ok text → d₁.read p = .ok text := by
    rcases hmake with rfl | ⟨paths, hmake⟩
    · exact ⟨fun _ hp => hp, fun _ _ hread => hread⟩
    · exact Disk.stays_of_makeDirectories hmake
  obtain ⟨_, -, hadds, hread⟩ :=
    Disk.write_along hlegal (Disk.renamed_ne_nil directories name "css") hcss
  refine ⟨htarget, ?_⟩
  rcases hmap with rfl | ⟨map, hmap⟩
  · refine ⟨hread, fun p hp => hadds.isDirectory (hdirectory p hp), ?_⟩
    intro names text hnames' hne hother _ hthere
    exact Disk.read_of_write_along hlegal (Disk.renamed_ne_nil _ _ _) hnames' hne hother
      (hfile _ _ hthere) hcss
  · rw [Disk.withExtension_renamed out hnames hdot] at hmap
    obtain ⟨_, -, hadds', -⟩ :=
      Disk.write_along hlegal' (Disk.renamed_ne_nil directories name "css.map") hmap
    refine ⟨?_, fun p hp => hadds'.isDirectory (hadds.isDirectory (hdirectory p hp)), ?_⟩
    · exact Disk.read_of_write_along hlegal' (Disk.renamed_ne_nil _ _ _) hlegal
        (Disk.renamed_ne_nil _ _ _) (Disk.renamed_ne _ _ _ _) hread hmap
    · intro names text hnames' hne hother hother' hthere
      have hthere' := Disk.read_of_write_along hlegal (Disk.renamed_ne_nil _ _ _) hnames' hne
        hother (hfile _ _ hthere) hcss
      exact Disk.read_of_write_along hlegal' (Disk.renamed_ne_nil _ _ _) hnames' hne hother'
        hthere' hmap

/-! ## Rendering one document -/

/-- In the session, the document is read and compiled to `rendered`. -/
def Compiles (options : Options) (s : Session) (document : Path) (rendered : Rendered) : Prop :=
  ∃ source step output, s.disk.readText document = .ok source ∧
    s.disk.compile options options document source s.files s.parsed = some step ∧
      step.result = .ok output ∧ output.rendered = rendered

/-- What is printed first does not change the disk. -/
theorem does_after_print {condition : Prop} [Decidable condition] {text : String} {act : Act Unit}
    (h : Does (if condition then (do printLine text; act) else act) s () s') :
    ∃ t, t.disk = s.disk ∧ Does act t () s' := by
  by_cases hcondition : condition
  · rw [if_pos hcondition] at h
    obtain ⟨_, t, hprint, h⟩ := does_bind_iff.1 h
    exact ⟨t, by rw [does_printLine_iff.1 hprint], h⟩
  · rw [if_neg hcondition] at h
    exact ⟨s, rfl, h⟩

theorem disk_of_printLines {files : List Path}
    (h : Does (files.forM fun file => printLine file.text) s () s') : s'.disk = s.disk := by
  induction files generalizing s with
  | nil =>
    obtain ⟨-, rfl⟩ := does_pure_iff.1 h
    rfl
  | cons file rest ih =>
    obtain ⟨_, t, hprint, h⟩ := does_bind_iff.1 h
    rw [ih h, does_printLine_iff.1 hprint]

variable {arguments : RenderArguments} {options : Options} {root document out : Path}

/-- A document that was rendered was compiled and written to its target. -/
theorem renderDocument_spec (hout : arguments.out = some out)
    (h : Does (renderDocument arguments options root document) s () s') :
    ∃ rendered, (∃ t, t.disk = s.disk ∧ Compiles options t document rendered) ∧
      Wrote (s.disk.target root document out) rendered s.disk s'.disk := by
  unfold renderDocument at h
  rw [hout] at h
  dsimp only at h
  obtain ⟨t, ht, h⟩ := does_after_print h
  obtain ⟨_, _, hget, h⟩ := does_bind_iff.1 h
  obtain ⟨rfl, rfl⟩ := does_get_iff.1 hget
  obtain ⟨source, _, hsource, h⟩ := does_bind_iff.1 h
  obtain ⟨hread, rfl⟩ := does_orFail_iff.1 hsource
  obtain ⟨output, t₁, hcompile, h⟩ := does_bind_iff.1 h
  obtain ⟨hdisk, step, hstep, hresult⟩ := does_compile hcompile
  obtain ⟨_, _, hget, h⟩ := does_bind_iff.1 h
  obtain ⟨rfl, rfl⟩ := does_get_iff.1 hget
  obtain ⟨_, t₂, hwrite, h⟩ := does_bind_iff.1 h
  obtain ⟨t₃, ht₃, h⟩ := does_after_print h
  have hwrote := writeRendered_spec hwrite
  rw [hdisk, ht] at hwrote
  refine ⟨output.rendered, ⟨t, ht, source, step, output, hread, hstep, hresult, rfl⟩, ?_⟩
  have hsame : s'.disk = t₃.disk := by
    by_cases hdeps : arguments.deps = true
    · rw [if_pos hdeps] at h
      obtain ⟨_, t₄, hprint, h⟩ := does_bind_iff.1 h
      rw [disk_of_printLines h, does_printLine_iff.1 hprint]
    · rw [if_neg hdeps] at h
      obtain ⟨-, rfl⟩ := does_pure_iff.1 h
      rfl
  rw [hsame, ht₃]
  exact hwrote

/-! ## Rendering several documents -/

/-- Documents that a directory stands for are compiled and written one after the other. -/
inductive Renders (options : Options) (root out : Path) :
    Disk → List (Path × Rendered) → Disk → Prop where
  | nil (d : Disk) : Renders options root out d [] d
  | cons {s : Session} {document : Path} {rendered : Rendered} {d d' : Disk}
      {rest : List (Path × Rendered)} (compiles : Compiles options s document rendered)
      (wrote : Wrote (s.disk.target root document out) rendered s.disk d)
      (behind : Renders options root out d rest d') :
      Renders options root out s.disk ((document, rendered) :: rest) d'

theorem renders_of_does (hout : arguments.out = some out) {documents : List Path}
    (h : Does (documents.forM (renderDocument arguments options root)) s () s') :
    ∃ results, results.map Prod.fst = documents ∧
      Renders options root out s.disk results s'.disk := by
  induction documents generalizing s with
  | nil =>
    obtain ⟨-, rfl⟩ := does_pure_iff.1 h
    exact ⟨[], rfl, .nil _⟩
  | cons document documents ih =>
    obtain ⟨_, s₁, hfirst, hrest⟩ := does_bind_iff.1 h
    obtain ⟨rendered, ⟨t, ht, hcompiles⟩, hwrote⟩ := renderDocument_spec hout hfirst
    obtain ⟨results, hresults, hbehind⟩ := ih hrest
    refine ⟨(document, rendered) :: results, by rw [List.map_cons, hresults], ?_⟩
    rw [← ht] at hwrote ⊢
    exact .cons hcompiles hwrote hbehind

theorem target_congr {d d' : Disk} (hd : d.isDirectory root = true)
    (hd' : d'.isDirectory root = true) :
    d.target root document out = d'.target root document out := by
  rw [Disk.target, Disk.target, Disk.isFile_of_isDirectory hd, Disk.isFile_of_isDirectory hd']

/-- The documents are found beneath the directory. -/
def AllAlong (root : Path) (results : List (Path × Rendered)) : Prop :=
  ∀ e ∈ results, ∃ directories name,
    Path.LegalNames (directories ++ [name]) ∧ e.1 = root.along (directories ++ [name])

/-- What the first of the documents is written to, and what stays when it is written. -/
theorem Wrote.beneath {d d' : Disk} {rendered : Rendered}
    {directories : List String} {name : String} (hroot : d.isDirectory root = true)
    (hnames : Path.LegalNames (directories ++ [name]))
    (h : Wrote (d.target root (root.along (directories ++ [name])) out) rendered d d') :
    d.target root (root.along (directories ++ [name])) out =
        out.along (Disk.renamed directories name "css") ∧
      d'.read (out.along (Disk.renamed directories name "css")) = .ok rendered.css ∧
      d'.isDirectory root = true ∧
      ∀ directories' name' text, Path.LegalNames (directories' ++ [name']) →
        ¬Disk.Twins (root.along (directories' ++ [name'])) (root.along (directories ++ [name])) →
        d.read (out.along (Disk.renamed directories' name' "css")) = .ok text →
        d'.read (out.along (Disk.renamed directories' name' "css")) = .ok text := by
  obtain ⟨start, entries, hlocate⟩ := Disk.isDirectory_iff.1 hroot
  have hne := Disk.text_ne_of_checkPath (Disk.locate_eq_ok_iff.1 hlocate).1
  have htarget := Disk.target_along (Disk.isFile_of_isDirectory hroot) hne hnames (by simp) out
  rw [htarget] at h ⊢
  obtain ⟨hplace, hread, hdirectory, hkept⟩ := h.spec hnames
  refine ⟨hplace, hread, hdirectory root hroot, ?_⟩
  intro directories' name' text hnames' htwins hthere
  rw [Disk.twins_along hnames' hnames, ← Disk.renamed_inj] at htwins
  exact hkept _ text (Disk.legalNames_renamed hnames' (by decide) (by decide))
    (Disk.renamed_ne_nil _ _ _) htwins (Disk.renamed_ne _ _ _ _) hthere

/-- What stands at the target of a document stays there until a twin is rendered. -/
theorem Renders.keeps {d d' : Disk} {results : List (Path × Rendered)}
    (h : Renders options root out d results d') (hroot : d.isDirectory root = true)
    (halong : AllAlong root results) {directories : List String} {name text : String}
    (hnames : Path.LegalNames (directories ++ [name]))
    (hother : ∀ e ∈ results, ¬Disk.Twins (root.along (directories ++ [name])) e.1)
    (hread : d.read (out.along (Disk.renamed directories name "css")) = .ok text) :
    d'.read (out.along (Disk.renamed directories name "css")) = .ok text := by
  induction h with
  | nil d => exact hread
  | cons compiles wrote behind ih =>
    obtain ⟨directories', name', hnames', hdocument⟩ := halong _ List.mem_cons_self
    dsimp only at hdocument
    subst hdocument
    obtain ⟨-, -, hroot', hkept⟩ := wrote.beneath hroot hnames'
    have htwins := hother _ List.mem_cons_self
    refine ih hroot' (fun e he => halong e (List.mem_cons_of_mem _ he))
      (fun e he => hother e (List.mem_cons_of_mem _ he)) ?_
    exact hkept directories name text hnames htwins hread

/-- A document without a later twin is found at its target when all are rendered. -/
theorem Renders.read {d d' : Disk} {results : List (Path × Rendered)}
    (h : Renders options root out d results d') (hroot : d.isDirectory root = true)
    (halong : AllAlong root results) {before after : List (Path × Rendered)}
    {e : Path × Rendered} (hsplit : results = before ++ e :: after)
    (hother : ∀ e' ∈ after, ¬Disk.Twins e.1 e'.1) :
    d'.read (d.target root e.1 out) = .ok e.2.css := by
  induction h generalizing before with
  | nil d => simp at hsplit
  | cons compiles wrote behind ih =>
    obtain ⟨directories, name, hnames, hdocument⟩ := halong _ List.mem_cons_self
    dsimp only at hdocument
    subst hdocument
    obtain ⟨hplace, hread, hroot', -⟩ := wrote.beneath hroot hnames
    have halong' : AllAlong root _ := fun e he => halong e (List.mem_cons_of_mem _ he)
    cases before with
    | nil =>
      obtain ⟨rfl, rfl⟩ := List.cons.inj hsplit
      rw [hplace]
      exact behind.keeps hroot' halong' hnames hother hread
    | cons first before =>
      rw [target_congr hroot hroot']
      exact ih hroot' halong' (List.cons.inj hsplit).2

/-- Rendering a directory compiles and writes the documents that it stands for. -/
theorem renders_of_render (hout : arguments.out = some out)
    (hoptions : Does (loadOptions arguments.source) s options s)
    (h : Does (render arguments) s () s') :
    ∃ results,
      results.map Prod.fst = s.disk.documents options (s.disk.absolute arguments.path) ∧
        Renders options (s.disk.absolute arguments.path) out s.disk results s'.disk := by
  obtain ⟨loaded, s₁, hload, hbehind⟩ := does_bind_iff.1 h
  obtain ⟨rfl, rfl⟩ := does_unique hload hoptions
  obtain ⟨_, _, hget, hdocuments⟩ := does_bind_iff.1 hbehind
  obtain ⟨rfl, rfl⟩ := does_get_iff.1 hget
  exact renders_of_does hout hdocuments

/-- A directory stands for the documents beneath it, each once. All are listed but those whose path
or name has the name of a module directory in it, or whose path is too long for the system. Two of
them are rendered to one file exactly if they are twins. What a run of the command wrote for a
document is at its target when the run ends, unless a twin was rendered after it. -/
theorem render_directory {d : Disk} (hd : d.Proper) (hroot : d.isDirectory root = true)
    (options : Options) :
    ((d.documents options root).Pairwise fun q q' => (q == q') = false) ∧
    (∀ q ∈ d.documents options root, ∃ names, d.Beneath options root names ∧
      q = root.along names) ∧
    (∀ names, d.Beneath options root names →
      (root.along names ∈ d.documents options root ↔ Disk.Listed options root names)) ∧
    (∀ out, ∀ q ∈ d.documents options root, ∀ q' ∈ d.documents options root,
      (d.target root q out == d.target root q' out ↔ Disk.Twins q q')) ∧
    ∀ arguments out s s', s.disk = d → d.absolute arguments.path = root →
      arguments.out = some out → Does (loadOptions arguments.source) s options s →
      Does (render arguments) s () s' →
      ∃ results, results.map Prod.fst = d.documents options root ∧
        Renders options root out d results s'.disk ∧
        ∀ before e after, results = before ++ e :: after →
          (∀ e' ∈ after, ¬Disk.Twins e.1 e'.1) →
          s'.disk.read (d.target root e.1 out) = .ok e.2.css := by
  have hbeneath : ∀ q ∈ d.documents options root, ∃ names, d.Beneath options root names ∧
      q = root.along names := by
    intro q hq
    obtain ⟨names, hnames, -, rfl⟩ := (Disk.mem_documents_iff hd hroot).1 hq
    exact ⟨names, hnames, rfl⟩
  refine ⟨Disk.pairwise_documents hd hroot, hbeneath, ?_, ?_, ?_⟩
  · intro names hnames
    exact hnames.mem_documents_iff hd hroot
  · intro out q hq q' hq'
    obtain ⟨names, hnames, rfl⟩ := hbeneath q hq
    obtain ⟨names', hnames', rfl⟩ := hbeneath q' hq'
    exact Disk.target_beq_iff hd hroot hnames hnames' out
  · rintro arguments out s s' rfl rfl hout hoptions h
    obtain ⟨results, hresults, hrenders⟩ := renders_of_render hout hoptions h
    have halong : AllAlong (s.disk.absolute arguments.path) results := by
      intro e he
      have hmem : e.1 ∈ s.disk.documents options (s.disk.absolute arguments.path) := by
        rw [← hresults]
        exact List.mem_map_of_mem he
      obtain ⟨names, hnames, hdocument⟩ := hbeneath e.1 hmem
      obtain ⟨-, hlegal, directories, name, rfl⟩ := hnames.exists_name hd hroot
      exact ⟨directories, name, hlegal, hdocument⟩
    refine ⟨results, hresults, hrenders, ?_⟩
    intro before e after hsplit hother
    exact hrenders.read hroot halong hsplit hother

/-- Two documents beneath `/app`, one of them in a directory of its own, are rendered into `/dist`
and are there when the run ends. -/
theorem render_directory_twoSheets :
    let disk : Disk := { entries := [("app", .directory [("a.styl", .file "x\n".toUTF8),
      ("pages", .directory [("b.styl", .file "y\n".toUTF8)])])] }
    let arguments : RenderArguments := { path := ⟨"/app"⟩, out := some ⟨"/dist"⟩ }
    disk.Proper ∧ disk.isDirectory (disk.absolute arguments.path) = true ∧
      Does (loadOptions arguments.source) { disk } {} { disk } ∧
      ∃ s', Does (render arguments) { disk } () s' ∧ ∃ results : List (Path × Rendered),
        results.map (·.1.text) = ["/app/a.styl", "/app/pages/b.styl"] ∧
        ∀ e ∈ results, s'.disk.read (disk.target (disk.absolute arguments.path) e.1 ⟨"/dist"⟩) =
          .ok e.2.css := by
  intro disk arguments
  have hproper : disk.Proper := by
    have hpages : (Disk.Tree.directory [("b.styl", .file "y\n".toUTF8)]).Proper :=
      Disk.Tree.proper_directory (by decide) (by simp [Path.LegalNames, Path.Component.Legal])
        (by simp [Disk.Tree.proper_file])
    have happ : (Disk.Tree.directory [("a.styl", .file "x\n".toUTF8),
        ("pages", .directory [("b.styl", .file "y\n".toUTF8)])]).Proper :=
      Disk.Tree.proper_directory (by decide) (by simp [Path.LegalNames, Path.Component.Legal])
        (by simpa [Disk.Tree.proper_file] using hpages)
    exact Disk.Tree.proper_directory (by decide)
      (by simp [disk, Path.LegalNames, Path.Component.Legal]) (by simpa [disk] using happ)
  have hroot : disk.isDirectory (disk.absolute arguments.path) = true := by decide +kernel
  have hoptions : Does (loadOptions arguments.source) { disk } {} { disk } := rfl
  have hends : ∃ a s', Does (render arguments) { disk } a s' := exists_does (by decide +kernel)
  obtain ⟨_, s', hrender⟩ := hends
  obtain ⟨-, -, -, -, hrun⟩ := render_directory hproper hroot {}
  obtain ⟨results, hresults, -, hread⟩ :=
    hrun arguments ⟨"/dist"⟩ { disk } s' rfl rfl rfl hoptions hrender
  have halone : (disk.documents {} (disk.absolute arguments.path)).Pairwise
      fun q q' => ¬Disk.Twins q q' := by decide +kernel
  refine ⟨hproper, hroot, hoptions, s', hrender, results, ?_, ?_⟩
  · have htexts : (results.map Prod.fst).map Path.text = ["/app/a.styl", "/app/pages/b.styl"] := by
      rw [hresults]
      decide +kernel
    rw [← htexts, List.map_map]
    rfl
  · intro e he
    obtain ⟨before, after, hsplit⟩ := List.append_of_mem he
    refine hread before e after hsplit ?_
    rw [← hresults, List.pairwise_map, hsplit, List.pairwise_append] at halone
    exact (List.pairwise_cons.1 halone.2.1).1

/-- Nothing stands for `/app/node_modules/pkg`, although there is a document in it. The two sheets
in `/app` are rendered to one file, which holds the second of them when the run ends. -/
theorem documents_of_moduleDirectory :
    let disk : Disk := { entries := [("app", .directory [("a.STYL", .file "upper\n".toUTF8),
      ("a.styl", .file "lower\n".toUTF8), ("node_modules", .directory [("pkg",
        .directory [("b.styl", .file "x\n".toUTF8)])])])] }
    disk.isDirectory ⟨"/app/node_modules/pkg"⟩ = true ∧
      disk.Beneath {} ⟨"/app/node_modules/pkg"⟩ ["b.styl"] ∧
      disk.documents {} ⟨"/app/node_modules/pkg"⟩ = [] ∧
      (disk.documents {} ⟨"/app"⟩).map Path.text = ["/app/a.STYL", "/app/a.styl"] ∧
      (disk.target ⟨"/app"⟩ ⟨"/app/a.STYL"⟩ ⟨"/dist"⟩).text = "/dist/a.css" ∧
      (disk.target ⟨"/app"⟩ ⟨"/app/a.styl"⟩ ⟨"/dist"⟩).text = "/dist/a.css" ∧
      (run disk ["render", "/app", "--out", "/dist"]).map (fun ending => (ending.exitCode,
        (ending.disk.filesBeneath ⟨"/dist"⟩).map Path.text,
        (ending.disk.read ⟨"/dist/a.css"⟩).toOption)) =
          some (0, ["/dist/a.css"], some "lower\n") := by
  intro disk
  have hbeneath : disk.Beneath {} ⟨"/app/node_modules/pkg"⟩ ["b.styl"] :=
    ⟨⟨["app", "node_modules", "pkg"], _, "x\n".toUTF8, rfl, rfl⟩, by decide +kernel, by simp⟩
  exact ⟨by decide +kernel, hbeneath, by decide +kernel⟩

end CommandLine

end StyleWeave
