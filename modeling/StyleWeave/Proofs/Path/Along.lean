import StyleWeave.Proofs.Path.Extension

/-!
# Paths along names

A path leads on along names, one for each directory and the last for what is there (`along`). What
leads from a path to one that goes on along names is these names again (`relativeTo?_along`), and
another extension takes the place of that of the last name (`components_withExtension`).
-/

namespace StyleWeave.Path

variable {p q : Path} {name : String} {names : List String}

/-- The path that leads on along names. -/
def along (p : Path) (names : List String) : Path :=
  names.foldl (fun q name => q.join ⟨name⟩) p

@[simp] theorem along_nil (p : Path) : p.along [] = p := rfl

@[simp] theorem along_cons (p : Path) (name : String) (names : List String) :
    p.along (name :: names) = (p.join ⟨name⟩).along names := rfl

theorem along_concat (p : Path) (names : List String) (name : String) :
    p.along (names ++ [name]) = (p.along names).join ⟨name⟩ := by
  rw [along, List.foldl_append]
  rfl

/-- The names are such as directories and files can have. -/
def LegalNames (names : List String) : Prop :=
  ∀ name ∈ names, (Component.name name).Legal

theorem LegalNames.tail (h : LegalNames (name :: names)) : LegalNames names :=
  fun other hother => h other (List.mem_cons_of_mem _ hother)

/-! ## Texts -/

/-- The text of a path with a slash at its end, behind which a relative path goes on. -/
def entrance (p : Path) : String :=
  if p.text = "" || p.text.toList.getLast? = some '/' then p.text else p.text ++ "/"

theorem join_of_relative (p : Path) (hq : q.isAbsolute = false) :
    p.join q = ⟨p.entrance ++ q.text⟩ := by
  unfold join entrance
  rw [if_neg (by simp [hq])]
  by_cases hend : (p.text = "" || p.text.toList.getLast? = some '/') = true
  · rw [if_pos hend, if_pos hend]
  · rw [if_neg hend, if_neg hend]

theorem entrance_spec (p : Path) :
    p.entrance.toList = [] ∨ ∃ before, p.entrance.toList = before ++ ['/'] := by
  unfold entrance
  by_cases hempty : p.text = ""
  · left
    rw [hempty]
    rfl
  · right
    by_cases hslash : p.text.toList.getLast? = some '/'
    · rw [if_pos (by simp [hslash])]
      exact List.getLast?_eq_some_iff.1 hslash
    · rw [if_neg (by simp [hempty, hslash]), String.toList_append]
      exact ⟨p.text.toList, rfl⟩

theorem entrance_join (p : Path) (h : (Component.name name).Legal) :
    (p.join ⟨name⟩).entrance = p.entrance ++ name ++ "/" := by
  obtain ⟨habs, -⟩ := components_of_legal h true
  obtain ⟨hne, hslash, -, -⟩ := h
  have hlast : (p.entrance ++ name).toList.getLast? ≠ some '/' := by
    rw [String.toList_append, List.getLast?_append, List.getLast?_eq_some_getLast hne,
      Option.some_or]
    intro hlast
    exact hslash (Option.some.inj hlast ▸ List.getLast_mem hne)
  have hnonempty : p.entrance ++ name ≠ "" := by
    rw [Ne, ← String.toList_eq_nil_iff, String.toList_append, List.append_eq_nil_iff]
    exact fun hnil => hne hnil.2
  rw [join_of_relative p habs, entrance, if_neg (by simpa [hnonempty] using hlast)]

/-- The text of a path along names is theirs with slashes between them. -/
theorem along_eq (p : Path) (hnames : LegalNames names) (hne : names ≠ []) :
    p.along names = ⟨p.entrance ++ "/".intercalate names⟩ := by
  induction names generalizing p with
  | nil => exact absurd rfl hne
  | cons name names ih =>
    have hname := hnames name List.mem_cons_self
    cases names with
    | nil =>
      obtain ⟨habs, -⟩ := components_of_legal hname true
      rw [along_cons, along_nil, join_of_relative p habs, String.intercalate_singleton]
    | cons next rest =>
      rw [along_cons, ih (p.join ⟨name⟩) hnames.tail (by simp), entrance_join p hname,
        String.intercalate_cons_cons]
      simp only [String.append_assoc]

theorem components_along (p : Path) (hnames : LegalNames names) :
    (p.along names).components = p.components ++ names.map .name := by
  induction names generalizing p with
  | nil => exact (List.append_nil _).symm
  | cons name names ih =>
    have hname := hnames name List.mem_cons_self
    obtain ⟨habs, hcomponents⟩ := components_of_legal hname false
    have hjoin : (p.join ⟨name⟩).components = p.components ++ [.name name] := by
      by_cases hempty : p.text = ""
      · have hnone : p.components = [] := by
          obtain ⟨text⟩ := p
          obtain rfl : text = "" := hempty
          decide
        have hsame : p.join ⟨name⟩ = ⟨name⟩ := by simp [join, habs, hempty]
        rw [hsame, hnone, components_name hname]
        rfl
      · rw [components_join hempty habs, hcomponents]
    rw [along_cons, ih (p.join ⟨name⟩) hnames.tail, hjoin, List.append_assoc]
    rfl

theorem map_name_inj {names names' : List String} :
    names.map Component.name = names'.map .name ↔ names = names' :=
  List.map_inj_right fun _ _ h => Component.name.inj h

/-- Different names lead from a path to different paths. -/
theorem along_inj {p : Path} {names' : List String} (hnames : LegalNames names)
    (hnames' : LegalNames names') (h : p.along names = p.along names') : names = names' := by
  have hcomponents := congrArg components h
  rw [components_along p hnames, components_along p hnames', List.append_cancel_left_eq,
    map_name_inj] at hcomponents
  exact hcomponents

theorem isAbsolute_along (p : Path) (hnames : LegalNames names) :
    (p.along names).isAbsolute = p.isAbsolute := by
  rw [Bool.eq_iff_iff, isAbsolute_iff_head?, isAbsolute_iff_head?, components_along p hnames]
  cases p.components with
  | cons c rest => exact Iff.rfl
  | nil =>
    cases names with
    | nil => exact Iff.rfl
    | cons name names => simp

/-! ## Pieces -/

theorem piecesFrom_append (first : Bool) (start : Nat) {segs : List (List Char)} (h : segs ≠ [])
    (others : List (List Char)) :
    piecesFrom first start (segs ++ others) = piecesFrom first start segs ++
      piecesFrom false (start + (List.intercalate ['/'] segs).length + 1) others := by
  induction segs generalizing first start with
  | nil => exact absurd rfl h
  | cons segment rest ih =>
    have hrest : piecesFrom false (start + segment.length + 1) (rest ++ others) =
        piecesFrom false (start + segment.length + 1) rest ++
          piecesFrom false (start + (List.intercalate ['/'] (segment :: rest)).length + 1)
            others := by
      cases rest with
      | nil => simp [piecesFrom]
      | cons next rest =>
        rw [ih false _ (by simp), List.intercalate_cons_cons]
        simp only [List.length_append, List.length_singleton]
        congr 2
        omega
    rw [List.cons_append, piecesFrom, piecesFrom, hrest]
    cases component? first segment with
    | none => rfl
    | some c => rfl

/-- The pieces of a text that goes on behind a slash. -/
theorem piecesFrom_append_slash (a b : List Char) :
    piecesFrom true 0 (segments (a ++ '/' :: b)) =
      piecesFrom true 0 (segments a) ++ piecesFrom false (a.length + 1) (segments b) := by
  rw [segments_append_slash, piecesFrom_append true 0 (segments_ne_nil a), intercalate_segments,
    Nat.zero_add]

/-- A relative path behind another one keeps its pieces, further on in the text. -/
theorem pieces_join (hp : p.text ≠ "") (hq : q.isAbsolute = false) :
    (p.join q).pieces =
      p.pieces ++ piecesFrom false p.entrance.length (segments q.text.toList) := by
  have hne : p.text.toList ≠ [] := by rwa [Ne, String.toList_eq_nil_iff]
  have hentrance : ∃ rest, p.entrance.toList = p.text.toList ++ rest ∧
      piecesFrom true 0 (segments (p.text.toList ++ (rest ++ q.text.toList))) =
        piecesFrom true 0 (segments p.text.toList) ++
          piecesFrom false (p.text.toList ++ rest).length (segments q.text.toList) := by
    unfold entrance
    by_cases hslash : p.text.toList.getLast? = some '/'
    · rw [if_pos (by simp [hslash])]
      obtain ⟨before, hbefore⟩ := List.getLast?_eq_some_iff.1 hslash
      refine ⟨[], (List.append_nil _).symm, ?_⟩
      rw [List.append_nil, List.nil_append, hbefore, List.append_assoc, List.singleton_append,
        piecesFrom_append_slash, piecesFrom_append_slash, List.length_append]
      simp [segments, piecesFrom, component?]
    · rw [if_neg (by simp [hp, hslash]), String.toList_append]
      refine ⟨['/'], rfl, ?_⟩
      rw [List.singleton_append, piecesFrom_append_slash, List.length_append]
      rfl
  obtain ⟨rest, htext, hpieces⟩ := hentrance
  have hwhole : (p.join q).text.toList = p.text.toList ++ (rest ++ q.text.toList) := by
    rw [join_of_relative p hq, String.toList_append, htext, List.append_assoc]
  have habs : (p.join q).isAbsolute = p.isAbsolute := by
    unfold isAbsolute
    rw [hwhole, List.head?_append_of_ne_nil _ hne]
  unfold pieces
  dsimp only
  rw [habs, hwhole, hpieces, ← htext, String.length_toList]
  by_cases hroot : p.isAbsolute = true
  · rw [if_pos hroot, if_pos hroot, List.cons_append]
  · rw [if_neg hroot, if_neg hroot]

theorem component?_of_legal (h : (Component.name name).Legal) (first : Bool) :
    component? first name.toList = some (.name name) := by
  have hsteps : (Component.name name).Steps := ⟨h, by simp, by simp⟩
  exact (hsteps.text_spec first).2.2

theorem piecesFrom_name (h : (Component.name name).Legal) (first : Bool) (start : Nat)
    (rest : List (List Char)) :
    piecesFrom first start (name.toList :: rest) =
      ⟨.name name, start + name.length⟩ :: piecesFrom false (start + name.length + 1) rest := by
  rw [piecesFrom, component?_of_legal h, String.length_toList]

/-- The last piece of a path along names ends with the text. -/
theorem stopOf_names (hnames : LegalNames names) (hne : names ≠ []) (start : Nat) :
    stopOf (piecesFrom false start (names.map String.toList)) =
      start + ("/".intercalate names).length := by
  induction names generalizing start with
  | nil => exact absurd rfl hne
  | cons name names ih =>
    rw [List.map_cons, piecesFrom_name (hnames name List.mem_cons_self)]
    cases names with
    | nil => simp [piecesFrom, stopOf]
    | cons next rest =>
      have hrest := ih hnames.tail (by simp) (start + name.length + 1)
      rw [List.map_cons, piecesFrom_name (hnames.tail next List.mem_cons_self)] at hrest ⊢
      unfold stopOf at hrest ⊢
      rw [List.getLast?_cons_cons, hrest, String.intercalate_cons_cons]
      simp only [String.length_append, show "/".length = 1 from rfl]
      omega

theorem segments_names (hnames : LegalNames names) (hne : names ≠ []) :
    segments ("/".intercalate names).toList = names.map String.toList := by
  rw [String.toList_intercalate]
  refine segments_intercalate (by simpa using hne) ?_
  intro segment hsegment
  obtain ⟨name, hname, rfl⟩ := List.mem_map.1 hsegment
  exact (hnames name hname).2.1

theorem isAbsolute_names (hnames : LegalNames names) :
    isAbsolute ⟨"/".intercalate names⟩ = false := by
  have hsteps : ∀ c ∈ names.map Component.name, c.Steps := by
    intro c hc
    obtain ⟨name, hname, rfl⟩ := List.mem_map.1 hc
    exact ⟨hnames name hname, by simp, by simp⟩
  have hhead := head?_intercalate hsteps
  rw [List.map_map] at hhead
  have hsame : names.map (Component.text ∘ Component.name) = names := List.map_id names
  rw [hsame] at hhead
  simpa [isAbsolute] using hhead

/-- What leads from a path to one along names is the names. -/
theorem relativeTo?_along (hp : p.text ≠ "") (hnames : LegalNames names) :
    (p.along names).relativeTo? p = some ⟨"/".intercalate names⟩ := by
  have hprefix : p.components.isPrefixOf (p.along names).components = true := by
    rw [components_along p hnames, List.isPrefixOf_iff_prefix]
    exact List.prefix_append _ _
  unfold relativeTo?
  rw [if_pos hprefix]
  cases names with
  | nil => simp
  | cons name names =>
    have hpieces : (p.along (name :: names)).pieces.drop p.pieces.length =
        ⟨.name name, p.entrance.length + name.length⟩ ::
          piecesFrom false (p.entrance.length + name.length + 1) (names.map String.toList) := by
      rw [along_eq p hnames (by simp), ← join_of_relative p (isAbsolute_names hnames),
        pieces_join hp (isAbsolute_names hnames), List.drop_left, segments_names hnames (by simp),
        List.map_cons, piecesFrom_name (hnames name List.mem_cons_self)]
    have hstop := stopOf_names hnames (by simp) p.entrance.length
    rw [List.map_cons, piecesFrom_name (hnames name List.mem_cons_self)] at hstop
    rw [hpieces]
    dsimp only
    rw [hstop, along_eq p hnames (by simp)]
    have hstart : p.entrance.length + name.length - (Component.name name).text.length =
        p.entrance.toList.length := by
      show p.entrance.length + name.length - name.length = _
      rw [String.length_toList]
      omega
    have htake : (p.entrance ++ "/".intercalate (name :: names)).toList.take
        (p.entrance.length + ("/".intercalate (name :: names)).length) =
          p.entrance.toList ++ ("/".intercalate (name :: names)).toList := by
      rw [String.toList_append, ← String.length_toList, ← String.length_toList,
        ← List.length_append, List.take_length]
    rw [htake, hstart, List.drop_left, String.ofList_toList]

/-! ## Extensions -/

theorem stem_spec (file : String) (h : file ≠ "") :
    (splitExtension file).1 ≠ "" ∧ (splitExtension file).1.toList <+: file.toList := by
  unfold splitExtension
  cases hsplit : Text.splitLastDot file.toList with
  | none => exact ⟨h, List.prefix_rfl⟩
  | some parts =>
    obtain ⟨before, after⟩ := parts
    obtain ⟨htext, -⟩ := Text.splitLastDot_eq_some_iff.1 hsplit
    dsimp only
    by_cases hnil : before = []
    · rw [if_pos hnil]
      exact ⟨h, List.prefix_rfl⟩
    · rw [if_neg hnil]
      refine ⟨by simpa using hnil, ?_⟩
      rw [String.toList_ofList, htext]
      exact List.prefix_append _ _

theorem splitExtension_append {stem ext : String} (hstem : stem ≠ "") (hext : '.' ∉ ext.toList) :
    splitExtension (stem ++ "." ++ ext) = (stem, some ext) := by
  have htext : (stem ++ "." ++ ext).toList = stem.toList ++ '.' :: ext.toList := by
    simp [String.toList_append]
  unfold splitExtension
  rw [htext, Text.splitLastDot_append hext]
  dsimp only
  rw [if_neg (by rwa [String.toList_eq_nil_iff]), String.ofList_toList, String.ofList_toList]

/-- The last segment of a path once `ext` has taken the place of the extension of its file name. A
stem that is a dot leaves the step up. -/
def extended (file ext : String) : String :=
  if (splitExtension file).1 = "." then ".." else (splitExtension file).1 ++ "." ++ ext

theorem fileName?_of_legal (h : (Component.name name).Legal) :
    fileName? ⟨name⟩ = some name := by
  rw [fileName?_eq_some_iff, components_name h]
  rfl

/-- A path that ends in a name ends with its last piece. -/
theorem stopOf_join (p : Path) (h : (Component.name name).Legal) :
    stopOf (p.join ⟨name⟩).pieces = (p.join ⟨name⟩).text.length := by
  obtain ⟨habs, -⟩ := components_of_legal h true
  have hsegments : segments name.toList = [name.toList] := segments_of_no_slash h.2.1
  by_cases hempty : p.text = ""
  · have hsame : p.join ⟨name⟩ = ⟨name⟩ := by simp [join, habs, hempty]
    rw [hsame]
    unfold pieces
    rw [habs]
    dsimp only
    rw [hsegments, piecesFrom_name h]
    simp [stopOf, piecesFrom]
  · rw [pieces_join hempty habs, join_of_relative p habs]
    dsimp only
    rw [hsegments, piecesFrom_name h, piecesFrom, stopOf, List.getLast?_concat,
      String.length_append]
    rfl

/-- Another extension takes the place of that of the last name. -/
theorem withExtension_join (p : Path) (h : (Component.name name).Legal) (ext : String) :
    (p.join ⟨name⟩).withExtension ext = ⟨p.entrance ++ extended name ext⟩ := by
  obtain ⟨habs, -⟩ := components_of_legal h true
  have hne : name ≠ "" := by
    rw [Ne, ← String.toList_eq_nil_iff]
    exact h.1
  obtain ⟨-, hstem⟩ := stem_spec name hne
  have hlength : (p.join ⟨name⟩).text.length = p.entrance.length + name.length := by
    rw [join_of_relative p habs, String.length_append]
  have hkept : (p.join ⟨name⟩).takeText (stopOf (p.join ⟨name⟩).pieces - name.length +
      (splitExtension name).1.length) = ⟨p.entrance ++ (splitExtension name).1⟩ := by
    obtain ⟨rest, hrest⟩ := hstem
    have htext : (p.join ⟨name⟩).text.toList =
        (p.entrance.toList ++ (splitExtension name).1.toList) ++ rest := by
      rw [join_of_relative p habs, String.toList_append, ← hrest, List.append_assoc]
    have hstop : stopOf (p.join ⟨name⟩).pieces - name.length + (splitExtension name).1.length =
        (p.entrance.toList ++ (splitExtension name).1.toList).length := by
      rw [stopOf_join p h, hlength, List.length_append, String.length_toList,
        String.length_toList]
      omega
    unfold takeText
    rw [hstop, htext, List.take_left, String.ofList_append, String.ofList_toList,
      String.ofList_toList]
  unfold withExtension extended
  rw [fileName?_join p (fileName?_of_legal h)]
  dsimp only
  rw [hkept, stopOf_join p h]
  by_cases hdot : (splitExtension name).1 = "."
  · rw [if_pos (by simp [hdot]), if_pos hdot, hdot, String.append_assoc]
    rfl
  · rw [if_neg (by simp [hdot]), if_neg hdot, String.append_assoc, String.append_assoc]
    simp only [String.append_assoc]

theorem components_join_parent (p : Path) :
    (p.join ⟨".."⟩).components = p.components ++ [.parent] := by
  have habs : isAbsolute ⟨".."⟩ = false := by decide
  by_cases hempty : p.text = ""
  · obtain ⟨text⟩ := p
    obtain rfl : text = "" := hempty
    decide
  · rw [components_join hempty habs]
    rfl

/-- A stem with an extension behind it is a file name again. -/
theorem legal_of_stem (h : (Component.name name).Legal) {ext : String} (hne : ext ≠ "")
    (hslash : '/' ∉ ext.toList) :
    (Component.name ((splitExtension name).1 ++ "." ++ ext)).Legal := by
  have hname : name ≠ "" := by
    rw [Ne, ← String.toList_eq_nil_iff]
    exact h.1
  obtain ⟨hstem, hstart⟩ := stem_spec name hname
  have htext : ((splitExtension name).1 ++ "." ++ ext).toList =
      (splitExtension name).1.toList ++ '.' :: ext.toList := by
    simp [String.toList_append]
  have hlength : 3 ≤ ((splitExtension name).1 ++ "." ++ ext).toList.length := by
    have hfront : (splitExtension name).1.toList ≠ [] := by rwa [Ne, String.toList_eq_nil_iff]
    have hback : ext.toList ≠ [] := by rwa [Ne, String.toList_eq_nil_iff]
    have hfront' := List.length_pos_iff.2 hfront
    have hback' := List.length_pos_iff.2 hback
    rw [htext, List.length_append, List.length_cons]
    omega
  refine ⟨?_, ?_, ?_, ?_⟩
  · intro hnil
    rw [hnil, List.length_nil] at hlength
    omega
  · rw [htext, List.mem_append, List.mem_cons]
    rintro (hmem | hmem | hmem)
    · exact h.2.1 (List.IsPrefix.subset hstart hmem)
    · cases hmem
    · exact hslash hmem
  · intro hdot
    rw [hdot, List.length_singleton] at hlength
    omega
  · intro hdots
    rw [hdots, List.length_cons, List.length_singleton] at hlength
    omega

/-- The last component of a path once its extension is replaced. -/
def extendedComponent (file ext : String) : Component :=
  if (splitExtension file).1 = "." then .parent
  else .name ((splitExtension file).1 ++ "." ++ ext)

theorem components_withExtension (p : Path) (h : (Component.name name).Legal) {ext : String}
    (hne : ext ≠ "") (hslash : '/' ∉ ext.toList) :
    ((p.join ⟨name⟩).withExtension ext).components =
      p.components ++ [extendedComponent name ext] := by
  rw [withExtension_join p h]
  unfold extended extendedComponent
  by_cases hdot : (splitExtension name).1 = "."
  · rw [if_pos hdot, if_pos hdot, ← join_of_relative p (q := ⟨".."⟩) (by decide)]
    exact components_join_parent p
  · have hlegal := legal_of_stem h hne hslash
    have hnames : LegalNames [(splitExtension name).1 ++ "." ++ ext] := by
      intro other hother
      rwa [List.mem_singleton.1 hother]
    have hjoin := components_along p hnames
    rw [along_cons, along_nil, join_of_relative p (components_of_legal hlegal true).1] at hjoin
    rw [if_neg hdot, if_neg hdot]
    exact hjoin

theorem extendedComponent_inj {file file' ext : String} :
    extendedComponent file ext = extendedComponent file' ext ↔
      (splitExtension file).1 = (splitExtension file').1 := by
  constructor
  · intro h
    unfold extendedComponent at h
    by_cases hdot : (splitExtension file).1 = "."
    · by_cases hdot' : (splitExtension file').1 = "."
      · rw [hdot, hdot']
      · rw [if_pos hdot, if_neg hdot'] at h
        cases h
    · by_cases hdot' : (splitExtension file').1 = "."
      · rw [if_neg hdot, if_pos hdot'] at h
        cases h
      · rw [if_neg hdot, if_neg hdot'] at h
        have htext := congrArg String.toList (Component.name.inj h)
        simp only [String.append_assoc, String.toList_append] at htext
        exact String.toList_inj.1 (List.append_cancel_right htext)
  · intro h
    unfold extendedComponent
    rw [h]

end StyleWeave.Path
