import StyleWeave.Proofs.Disk.Walk
import StyleWeave.Proofs.Scope

/-!
# What writing a file leaves as it is

Making a directory and writing a file put one entry into a directory. All directories stay, and so
does every file but the one that is written (`Adds`). So a path that is followed is followed to the
same names afterwards, and a file that was read is read again, unless it is the one that was
written.
-/

namespace StyleWeave.Disk

variable {name : String} {names place : List String}

namespace Tree

variable {t u : Tree} {entries : List (String × Tree)}

theorem descend_cons (name : String) (names : List String) (entries : List (String × Tree)) :
    (directory entries).descend (name :: names) =
      (entries.lookup name).bind (Tree.descend names) := rfl

/-- What is there at the end of names is an entry of the directory above. -/
theorem descend_concat {above : List String} (h : t.descend above = some u) (name : String) :
    t.descend (above ++ [name]) = u.contents.lookup name := by
  rw [descend_append, h, Option.bind_some]
  show (u.contents.lookup name).bind some = _
  cases u.contents.lookup name with
  | none => rfl
  | some v => rfl

/-- Nothing but a directory leads on along names. -/
theorem eq_directory_of_descend (h : t.descend (name :: names) = some u) :
    t = .directory t.contents := by
  cases t with
  | file bytes => cases h
  | directory entries => rfl

/-- What was there stays: directories stay directories, and files other than the one at `place`
stay as they are. -/
structure Adds (t u : Tree) (place : List String) : Prop where
  directories : ∀ names entries, t.descend names = some (.directory entries) →
    ∃ entries', u.descend names = some (.directory entries')
  files : ∀ names bytes, names ≠ place → t.descend names = some (.file bytes) →
    u.descend names = some (.file bytes)
  present : (u.descend place).isSome = true

theorem Adds.isSome (h : Adds t u place) (hnames : (t.descend names).isSome = true) :
    (u.descend names).isSome = true := by
  obtain ⟨v, hv⟩ := Option.isSome_iff_exists.1 hnames
  cases v with
  | directory entries =>
    obtain ⟨entries', hentries⟩ := h.directories names entries hv
    rw [hentries]
    rfl
  | file bytes =>
    by_cases hplace : names = place
    · rw [hplace]
      exact h.present
    · rw [h.files names bytes hplace hv]
      rfl

/-- What stays in an entry of a directory stays in the directory when the entry is put back. -/
theorem Adds.insertInto (h : ∀ v, entries.lookup name = some v → Adds v u place)
    (hnew : (u.descend place).isSome = true) :
    Adds (.directory entries) (.directory (Dictionary.insertInto name u entries))
      (name :: place) := by
  have hlookup := fun other => Dictionary.lookup_insertInto name u entries other
  refine ⟨?_, ?_, ?_⟩
  · intro names others hdirectory
    cases names with
    | nil => exact ⟨_, rfl⟩
    | cons other names =>
      rw [descend_cons] at hdirectory ⊢
      rw [hlookup]
      by_cases hname : other = name
      · subst hname
        obtain ⟨v, hv, hrest⟩ := Option.bind_eq_some_iff.1 hdirectory
        rw [if_pos rfl]
        exact (h v hv).directories names others hrest
      · rw [if_neg hname]
        exact ⟨others, hdirectory⟩
  · intro names bytes hplace hfile
    cases names with
    | nil => cases hfile
    | cons other names =>
      rw [descend_cons] at hfile ⊢
      rw [hlookup]
      by_cases hname : other = name
      · subst hname
        obtain ⟨v, hv, hrest⟩ := Option.bind_eq_some_iff.1 hfile
        rw [if_pos rfl]
        exact (h v hv).files names bytes (fun heq => hplace (by rw [heq])) hrest
      · rw [if_neg hname]
        exact hfile
  · rw [descend_cons, hlookup, if_pos rfl]
    exact hnew

theorem adds_of_file (ht : t.isDirectory = false) : Adds t u [] := by
  cases t with
  | directory entries => cases ht
  | file bytes =>
    refine ⟨?_, ?_, rfl⟩
    · intro names entries hdirectory
      cases names with
      | nil => cases hdirectory
      | cons name names => cases hdirectory
    · intro names bytes' hplace hfile
      cases names with
      | nil => exact absurd rfl hplace
      | cons name names => cases hfile

theorem insertAt_cons (t : Tree) (first : String) (above : List String) (name : String)
    (entries : List (String × Tree)) :
    insertAt t (first :: (above ++ [name])) entries = Dictionary.insertInto first
      (directory (insertAt t (above ++ [name])
        (((entries.lookup first).map contents).getD []))) entries := by
  cases above with
  | nil => rfl
  | cons next above => rfl

theorem eq_directory (ht : t.isDirectory = true) : t = .directory t.contents := by
  cases t with
  | file bytes => cases ht
  | directory entries => rfl

/-- Putting an entry into a directory, but not in place of a directory, adds it. -/
theorem adds_insertAt (t : Tree) {above : List String}
    (hparent : (Tree.directory entries).descend above = some u) (hu : u.isDirectory = true)
    (hfree : ∀ v, u.contents.lookup name = some v → v.isDirectory = false) :
    Adds (.directory entries) (.directory (insertAt t (above ++ [name]) entries))
        (above ++ [name]) ∧
      (Tree.directory (insertAt t (above ++ [name]) entries)).descend (above ++ [name]) =
        some t := by
  induction above generalizing entries with
  | nil =>
    obtain rfl : Tree.directory entries = u := Option.some.inj hparent
    refine ⟨Adds.insertInto (fun v hv => adds_of_file (hfree v hv)) rfl, ?_⟩
    rw [List.nil_append, insertAt, descend_cons, Dictionary.lookup_insertInto, if_pos rfl]
    rfl
  | cons first above ih =>
    rw [descend_cons] at hparent
    obtain ⟨v, hv, hrest⟩ := Option.bind_eq_some_iff.1 hparent
    have hdirectory : v = .directory v.contents := by
      cases above with
      | nil =>
        obtain rfl : v = u := Option.some.inj hrest
        exact eq_directory hu
      | cons next above => exact eq_directory_of_descend hrest
    rw [hdirectory] at hrest
    obtain ⟨hadds, hthere⟩ := ih hrest
    rw [List.cons_append, insertAt_cons, hv, Option.map_some, Option.getD_some]
    constructor
    · refine Adds.insertInto ?_ (by rw [hthere]; rfl)
      intro v' hv'
      rw [hv] at hv'
      rw [← Option.some.inj hv', hdirectory]
      exact hadds
    · rw [descend_cons, Dictionary.lookup_insertInto, if_pos rfl]
      exact hthere

end Tree

variable {d d' : Disk} {p : Path}

/-! ## Following paths -/

/-- What one segment of a path leads to from a directory: it stays there, or leads to the directory
above, or to an entry. -/
inductive Step (entries : List (String × Tree)) (start : List String) :
    List Char → List String → Prop where
  | stay {segment : List Char} (same : (segment = [] || segment = ['.']) = true) :
      Step entries start segment start
  | up : Step entries start ['.', '.'] start.tail
  | enter {segment : List Char} (isName : isNoName segment = false)
      (short : (String.ofList segment).utf8ByteSize ≤ maxName)
      (there : (entries.lookup (String.ofList segment)).isSome = true) :
      Step entries start segment (String.ofList segment :: start)

variable {start reached : List String} {segment : List Char} {rest : List (List Char)}

theorem isNoName_eq_false_iff : isNoName segment = false ↔
    (segment = [] || segment = ['.']) = false ∧ segment ≠ ['.', '.'] := by
  unfold isNoName
  rw [Bool.or_eq_false_iff, decide_eq_false_iff_not]

theorem follow_cons_eq_ok_iff :
    d.follow start (segment :: rest) = .ok reached ↔ ∃ entries next,
      d.root.descend start.reverse = some (.directory entries) ∧
        Step entries start segment next ∧ d.follow next rest = .ok reached := by
  constructor
  · intro h
    unfold Disk.follow at h
    cases hhere : d.root.descend start.reverse with
    | none =>
      rw [hhere] at h
      cases h
    | some here =>
      rw [hhere] at h
      cases here with
      | file bytes => cases h
      | directory entries =>
        refine ⟨entries, ?_⟩
        dsimp only at h
        rw [if_neg (by simp [Tree.isDirectory])] at h
        by_cases hstay : (segment = [] || segment = ['.']) = true
        · rw [if_pos hstay] at h
          exact ⟨start, rfl, .stay hstay, h⟩
        rw [if_neg hstay] at h
        by_cases hup : segment = ['.', '.']
        · rw [if_pos hup] at h
          exact ⟨start.tail, rfl, hup ▸ .up, h⟩
        rw [if_neg hup] at h
        by_cases hlong : maxName < (String.ofList segment).utf8ByteSize
        · rw [if_pos hlong] at h
          cases h
        rw [if_neg hlong] at h
        by_cases hthere :
            ((Tree.directory entries).contents.lookup (String.ofList segment)).isSome = true
        · rw [if_pos hthere] at h
          exact ⟨_, rfl, .enter (isNoName_eq_false_iff.2 ⟨by simpa using hstay, hup⟩)
            (Nat.le_of_not_lt hlong) hthere, h⟩
        · rw [if_neg hthere] at h
          cases h
  · rintro ⟨entries, next, hhere, hstep, h⟩
    unfold Disk.follow
    rw [hhere]
    dsimp only
    rw [if_neg (by simp [Tree.isDirectory])]
    cases hstep with
    | stay same => rwa [if_pos same]
    | up => exact h
    | enter isName short there =>
      obtain ⟨hstay, hup⟩ := isNoName_eq_false_iff.1 isName
      rw [if_neg (by simp [hstay]), if_neg hup, if_neg (Nat.not_lt.2 short)]
      exact (if_pos there).trans h

theorem follow_append {front back : List (List Char)} :
    d.follow start (front ++ back) = .ok reached ↔
      ∃ between, d.follow start front = .ok between ∧ d.follow between back = .ok reached := by
  induction front generalizing start with
  | nil =>
    constructor
    · intro h
      exact ⟨start, rfl, h⟩
    · rintro ⟨between, hbetween, h⟩
      obtain rfl : start = between := Except.ok.inj hbetween
      exact h
  | cons segment front ih =>
    rw [List.cons_append, follow_cons_eq_ok_iff]
    simp only [follow_cons_eq_ok_iff, ih]
    constructor
    · rintro ⟨entries, next, hhere, hstep, between, hfront, hback⟩
      exact ⟨between, ⟨entries, next, hhere, hstep, hfront⟩, hback⟩
    · rintro ⟨between, ⟨entries, next, hhere, hstep, hfront⟩, hback⟩
      exact ⟨entries, next, hhere, hstep, between, hfront, hback⟩

/-- Names lead on to where they say. -/
theorem follow_names (hnames : Path.LegalNames names)
    (h : d.follow start (names.map String.toList) = .ok reached) :
    reached.reverse = start.reverse ++ names := by
  induction names generalizing start with
  | nil =>
    obtain rfl : start = reached := Except.ok.inj h
    exact (List.append_nil _).symm
  | cons name names ih =>
    obtain ⟨hne, -, hdot, hdots⟩ := hnames name List.mem_cons_self
    obtain ⟨entries, next, -, hstep, hrest⟩ := follow_cons_eq_ok_iff.1 h
    generalize hsegment : name.toList = segment at hstep
    cases hstep with
    | stay same =>
      rw [← hsegment] at same
      simp [hne, hdot] at same
    | up => exact absurd hsegment hdots
    | enter =>
      rw [ih hnames.tail hrest, ← hsegment, String.ofList_toList, List.reverse_cons,
        List.append_assoc]
      rfl

/-! ## The changed disk -/

/-- The disk got a file or directory at `place`, and lost nothing but a file that was there. -/
structure Adds (d d' : Disk) (place : List String) : Prop where
  workingDirectory : d'.workingDirectory = d.workingDirectory
  root : Tree.Adds d.root d'.root place

/-- A path that was followed is followed to the same names. -/
theorem Adds.follow (h : Adds d d' place) {segments : List (List Char)}
    (hfollow : d.follow start segments = .ok reached) :
    d'.follow start segments = .ok reached := by
  induction segments generalizing start with
  | nil => exact hfollow
  | cons segment rest ih =>
    obtain ⟨entries, next, hhere, hstep, hrest⟩ := follow_cons_eq_ok_iff.1 hfollow
    obtain ⟨entries', hhere'⟩ := h.root.directories _ _ hhere
    refine follow_cons_eq_ok_iff.2 ⟨entries', next, hhere', ?_, ih hrest⟩
    cases hstep with
    | stay same => exact .stay same
    | up => exact .up
    | enter isName short there =>
      refine .enter isName short ?_
      have hpresent :
          (d.root.descend (start.reverse ++ [String.ofList segment])).isSome = true := by
        rw [Tree.descend_concat hhere]
        exact there
      have hkept := h.root.isSome hpresent
      rwa [Tree.descend_concat hhere'] at hkept

theorem Adds.origin (h : Adds d d' place) (p : Path) : d'.origin p = d.origin p := by
  rw [Disk.origin, Disk.origin, h.workingDirectory]

/-- A path that led to something leads to the same place. -/
theorem Adds.read (h : Adds d d' place) {t : Tree} {text : String}
    (hlocate : d.locate p = .ok (start, t)) (hplace : start ≠ place) (hread : d.read p = .ok text) :
    d'.read p = .ok text := by
  obtain ⟨hcheck, hfollow, hdescend⟩ := locate_eq_ok_iff.1 hlocate
  unfold Disk.read at hread ⊢
  rw [hlocate] at hread
  cases t with
  | directory entries => cases hread
  | file bytes =>
    have hlocate' : d'.locate p = .ok (start, .file bytes) :=
      locate_eq_ok_iff.2 ⟨hcheck, h.origin p ▸ h.follow hfollow,
        h.root.files start bytes hplace hdescend⟩
    rw [hlocate']
    exact hread

/-- A directory stays one. -/
theorem Adds.isDirectory (h : Adds d d' place) (hp : d.isDirectory p = true) :
    d'.isDirectory p = true := by
  obtain ⟨start, entries, hlocate⟩ := isDirectory_iff.1 hp
  obtain ⟨hcheck, hfollow, hdescend⟩ := locate_eq_ok_iff.1 hlocate
  obtain ⟨entries', hentries⟩ := h.root.directories _ _ hdescend
  exact isDirectory_iff.2
    ⟨start, entries', locate_eq_ok_iff.2 ⟨hcheck, h.origin p ▸ h.follow hfollow, hentries⟩⟩

/-! ## Writing -/

theorem lastSegment_spec (hslash : p.text.toList.getLast? ≠ some '/') :
    Path.segments p.text.toList = (lastSegment p).1 ++ [(lastSegment p).2] := by
  have htrim : (Text.trimSlashes p.text).toList = p.text.toList := by
    rw [Text.trimSlashes, Text.trimEndWhile, String.toList_ofList, Text.dropEndWhile_eq_self_iff]
    intro c hc
    refine decide_eq_false ?_
    rintro rfl
    exact hslash hc
  have hne := Path.segments_ne_nil p.text.toList
  unfold lastSegment
  dsimp only
  rw [htrim, List.getLast?_eq_some_getLast hne, Option.getD_some,
    List.dropLast_append_getLast hne]

theorem fromUTF8?_toUTF8 (text : String) : String.fromUTF8? text.toUTF8 = some text := by
  unfold String.fromUTF8?
  rw [String.toUTF8_eq_toByteArray, dif_pos text.isValidUTF8]
  rfl

theorem parentOf_eq_ok {above : List String} {parent : Tree}
    (h : d.parentOf p = .ok (above, parent)) : checkPath p = .ok () ∧
      d.follow (d.origin p) (lastSegment p).1 = .ok above ∧ parent.isDirectory = true ∧
        d.root.descend above.reverse = some parent := by
  unfold parentOf at h
  obtain ⟨⟨⟩, hcheck, h⟩ := bind_eq_ok.1 h
  obtain ⟨names, hfollow, h⟩ := bind_eq_ok.1 h
  cases hdescend : d.root.descend names.reverse with
  | none =>
    rw [hdescend] at h
    cases h
  | some u =>
    rw [hdescend] at h
    cases u with
    | file bytes => cases h
    | directory entries =>
      obtain ⟨rfl, rfl⟩ := Prod.mk.inj (Except.ok.inj h)
      exact ⟨hcheck, hfollow, rfl, hdescend⟩

/-- A disk that gets an entry in a directory, but not in place of a directory. -/
theorem adds_insert {above : List String} {parent : Tree} (t : Tree)
    (hparent : d.root.descend above.reverse = some parent) (hdirectory : parent.isDirectory = true)
    (hfree : ∀ v, parent.contents.lookup name = some v → v.isDirectory = false) :
    Adds d (d.insert (name :: above).reverse t) (above.reverse ++ [name]) ∧
      (d.insert (name :: above).reverse t).root.descend (above.reverse ++ [name]) = some t := by
  rw [List.reverse_cons]
  obtain ⟨hadds, hthere⟩ := Tree.adds_insertAt t hparent hdirectory hfree
  exact ⟨⟨rfl, hadds⟩, hthere⟩

theorem read_of_locate {text : String} {start : List String}
    (h : d.locate p = .ok (start, .file text.toUTF8)) : d.read p = .ok text := by
  unfold Disk.read
  rw [h, bind_eq_ok]
  refine ⟨_, rfl, ?_⟩
  dsimp only
  rw [fromUTF8?_toUTF8]
  rfl

/-- A path leads to the entry that was added for its last segment. -/
theorem Adds.locate {above : List String} {parent t : Tree} (hcheck : checkPath p = .ok ())
    (hfollow : d.follow (d.origin p) (lastSegment p).1 = .ok above)
    (hparent : d.root.descend above.reverse = some parent) (hdirectory : parent.isDirectory = true)
    (hname : isNoName (lastSegment p).2 = false) (hslash : p.text.toList.getLast? ≠ some '/')
    (hshort : (String.ofList (lastSegment p).2).utf8ByteSize ≤ maxName)
    (h : Adds d d' (above.reverse ++ [String.ofList (lastSegment p).2]))
    (hthere : d'.root.descend (above.reverse ++ [String.ofList (lastSegment p).2]) = some t) :
    d'.locate p = .ok (above.reverse ++ [String.ofList (lastSegment p).2], t) := by
  refine locate_eq_ok_iff.2 ⟨hcheck, ?_, hthere⟩
  rw [lastSegment_spec hslash, List.reverse_append, List.reverse_reverse, h.origin]
  refine follow_append.2 ⟨above, h.follow hfollow, ?_⟩
  obtain ⟨entries, hentries⟩ := h.root.directories above.reverse parent.contents
    (by rw [hparent, ← Tree.eq_directory hdirectory])
  refine follow_cons_eq_ok_iff.2 ⟨entries, _, hentries, .enter hname hshort ?_, rfl⟩
  rw [Tree.descend_concat hentries] at hthere
  exact Option.isSome_iff_exists.2 ⟨_, hthere⟩

/-- A file that could be written was added to a directory that is there, and is read again. -/
theorem write_spec {text : String} (h : d.write p text = .ok d') :
    ∃ above, d.follow (d.origin p) (lastSegment p).1 = .ok above ∧
      isNoName (lastSegment p).2 = false ∧ p.text.toList.getLast? ≠ some '/' ∧
      Adds d d' (above.reverse ++ [String.ofList (lastSegment p).2]) ∧ d'.read p = .ok text := by
  unfold write at h
  obtain ⟨⟨above, parent⟩, hparent, h⟩ := bind_eq_ok.1 h
  obtain ⟨hcheck, hfollow, hdirectory, hdescend⟩ := parentOf_eq_ok hparent
  dsimp only at h
  by_cases hplain : isNoName (lastSegment p).2 = true ∨ p.text.toList.getLast? = some '/'
  · rw [if_pos (by simpa using hplain)] at h
    cases h
  rw [if_neg (by simpa using hplain)] at h
  obtain ⟨hname, hslash⟩ := not_or.1 hplain
  have hisName : isNoName (lastSegment p).2 = false := by simpa using hname
  by_cases hlong : maxName < (String.ofList (lastSegment p).2).utf8ByteSize
  · rw [if_pos hlong] at h
    cases h
  rw [if_neg hlong] at h
  have hfree : (∀ v, parent.contents.lookup (String.ofList (lastSegment p).2) = some v →
      v.isDirectory = false) ∧
        d' = d.insert (String.ofList (lastSegment p).2 :: above).reverse (.file text.toUTF8) := by
    cases hlookup : parent.contents.lookup (String.ofList (lastSegment p).2) with
    | none =>
      rw [hlookup] at h
      refine ⟨?_, (Except.ok.inj h).symm⟩
      intro v hv
      cases hv
    | some u =>
      rw [hlookup] at h
      cases u with
      | directory entries => cases h
      | file bytes =>
        refine ⟨?_, (Except.ok.inj h).symm⟩
        rintro v hv
        obtain rfl := Option.some.inj hv
        rfl
  obtain ⟨hfree, rfl⟩ := hfree
  obtain ⟨hadds, hthere⟩ := adds_insert (.file text.toUTF8) hdescend hdirectory hfree
  refine ⟨above, hfollow, hisName, hslash, hadds, ?_⟩
  exact read_of_locate (hadds.locate hcheck hfollow hdescend hdirectory hisName hslash
    (Nat.le_of_not_lt hlong) hthere)

/-! ## Making directories -/

/-- A file that is read from a path was located. -/
theorem locate_of_read {text : String} (hread : d.read p = .ok text) :
    ∃ start t, d.locate p = .ok (start, t) := by
  cases hlocate : d.locate p with
  | error e =>
    rw [Disk.read, hlocate] at hread
    cases hread
  | ok found => exact ⟨found.1, found.2, rfl⟩

theorem makeDirectory_spec (h : d.makeDirectory p = .ok d') :
    ∃ place, Adds d d' place ∧ d.root.descend place = none := by
  unfold makeDirectory at h
  obtain ⟨⟨above, parent⟩, hparent, h⟩ := bind_eq_ok.1 h
  obtain ⟨-, -, hdirectory, hdescend⟩ := parentOf_eq_ok hparent
  dsimp only at h
  by_cases hname : isNoName (lastSegment p).2 = true
  · rw [if_pos hname] at h
    cases h
  rw [if_neg hname] at h
  by_cases hlong : maxName < (String.ofList (lastSegment p).2).utf8ByteSize
  · rw [if_pos hlong] at h
    cases h
  rw [if_neg hlong] at h
  by_cases hthere : (parent.contents.lookup (String.ofList (lastSegment p).2)).isSome = true
  · rw [if_pos hthere] at h
    cases h
  rw [if_neg hthere] at h
  have hnone : parent.contents.lookup (String.ofList (lastSegment p).2) = none :=
    Option.not_isSome_iff_eq_none.1 hthere
  obtain rfl := Except.ok.inj h
  have hfree : ∀ v, parent.contents.lookup (String.ofList (lastSegment p).2) = some v →
      v.isDirectory = false := by
    intro v hv
    rw [hnone] at hv
    cases hv
  refine ⟨_, (adds_insert (.directory []) hdescend hdirectory hfree).1, ?_⟩
  rw [Tree.descend_concat hdescend, hnone]

/-- Directories are made above a directory if it is missing, and then the directory itself, if it is
not there. -/
theorem makeDirectories_cons {above : List Path} (h : d.makeDirectories (p :: above) = .ok d') :
    ∃ d₁, (d₁ = d ∨ d.makeDirectories above = .ok d₁) ∧
      (d' = d₁ ∨ d₁.makeDirectory p = .ok d') := by
  unfold makeDirectories at h
  by_cases hempty : p.text.isEmpty = true
  · rw [if_pos hempty] at h
    exact ⟨d, Or.inl rfl, Or.inl (Except.ok.inj h).symm⟩
  rw [if_neg hempty] at h
  cases hmake : d.makeDirectory p with
  | ok d₁ =>
    rw [hmake] at h
    obtain rfl := Except.ok.inj h
    exact ⟨d, Or.inl rfl, Or.inr hmake⟩
  | error e =>
    rw [hmake] at h
    dsimp only at h
    by_cases hmissing : e = .notFound
    · rw [if_pos hmissing] at h
      obtain ⟨d₁, habove, hbehind⟩ := bind_eq_ok.1 h
      refine ⟨d₁, Or.inr habove, ?_⟩
      cases hagain : d₁.makeDirectory p with
      | ok d₂ =>
        rw [hagain] at hbehind
        exact Or.inr hbehind
      | error e =>
        rw [hagain] at hbehind
        by_cases hthere : d₁.isDirectory p = true
        · exact Or.inl (Except.ok.inj ((if_pos hthere).symm.trans hbehind)).symm
        · cases (if_neg hthere).symm.trans hbehind
    · rw [if_neg hmissing] at h
      by_cases hthere : d.isDirectory p = true
      · rw [if_pos hthere] at h
        exact ⟨d, Or.inl rfl, Or.inl (Except.ok.inj h).symm⟩
      · rw [if_neg hthere] at h
        cases h

/-- What the making of one directory keeps, the making of several keeps. -/
theorem makeDirectories_keeps {P : Disk → Prop}
    (hstep : ∀ {d d' : Disk} {place : List String}, Adds d d' place →
      d.root.descend place = none → P d → P d') {paths : List Path}
    (h : d.makeDirectories paths = .ok d') (hd : P d) : P d' := by
  induction paths generalizing d' with
  | nil =>
    obtain rfl : d = d' := Except.ok.inj h
    exact hd
  | cons p above ih =>
    obtain ⟨d₁, hfirst, hlast⟩ := makeDirectories_cons h
    have hd₁ : P d₁ := by
      rcases hfirst with rfl | habove
      · exact hd
      · exact ih habove
    rcases hlast with rfl | hmake
    · exact hd₁
    · obtain ⟨place, hadds, hfresh⟩ := makeDirectory_spec hmake
      exact hstep hadds hfresh hd₁

/-- Directories stay, and what is read from files does not change, when directories are made. -/
theorem stays_of_makeDirectories {paths : List Path} (h : d.makeDirectories paths = .ok d') :
    (∀ p, d.isDirectory p = true → d'.isDirectory p = true) ∧
      ∀ p text, d.read p = .ok text → d'.read p = .ok text := by
  constructor
  · intro p
    exact makeDirectories_keeps (P := fun d => d.isDirectory p = true)
      (fun hadds _ hp => hadds.isDirectory hp) h
  · intro p text
    refine makeDirectories_keeps (P := fun d => d.read p = .ok text) ?_ h
    intro d d' place hadds hfresh hread
    obtain ⟨start, t, hlocate⟩ := locate_of_read hread
    refine hadds.read hlocate ?_ hread
    rintro rfl
    obtain ⟨-, -, hdescend⟩ := locate_eq_ok_iff.1 hlocate
    rw [hfresh] at hdescend
    cases hdescend

/-! ## Files along names -/

/-- The segments of a path before what is joined to it. -/
def entrySegments (out : Path) : List (List Char) :=
  (Path.segments out.entrance.toList).dropLast

theorem segments_entrance (out : Path) (text : String) :
    Path.segments (out.entrance ++ text).toList =
      entrySegments out ++ Path.segments text.toList := by
  rw [String.toList_append, entrySegments]
  rcases out.entrance_spec with hempty | ⟨before, hbefore⟩
  · rw [hempty]
    rfl
  · rw [hbefore, List.append_assoc, List.singleton_append, Path.segments_append_slash,
      Path.segments_append_slash]
    congr 1
    exact List.dropLast_concat.symm

theorem segments_along (out : Path) (hnames : Path.LegalNames names) (hne : names ≠ []) :
    Path.segments (out.along names).text.toList = entrySegments out ++ names.map String.toList := by
  rw [Path.along_eq out hnames hne, segments_entrance, Path.segments_names hnames hne]

theorem origin_along (d : Disk) (out : Path) (hnames : Path.LegalNames names) :
    d.origin (out.along names) = d.origin out := by
  rw [origin, origin, Path.isAbsolute_along out hnames]

/-- A file is found along names behind what the path before them leads to. -/
theorem locate_along {out : Path} {t : Tree} (hnames : Path.LegalNames names) (hne : names ≠ [])
    (h : d.locate (out.along names) = .ok (start, t)) :
    ∃ base, d.follow (d.origin out) (entrySegments out) = .ok base ∧
      start = base.reverse ++ names := by
  obtain ⟨-, hfollow, -⟩ := locate_eq_ok_iff.1 h
  rw [origin_along d out hnames, segments_along out hnames hne] at hfollow
  obtain ⟨base, hbase, hrest⟩ := follow_append.1 hfollow
  refine ⟨base, hbase, ?_⟩
  rw [← follow_names hnames hrest, List.reverse_reverse]

/-- A file is written along names behind what the path before them leads to. -/
theorem write_along {out : Path} {text : String} (hnames : Path.LegalNames names)
    (hne : names ≠ []) (h : d.write (out.along names) text = .ok d') :
    ∃ base, d.follow (d.origin out) (entrySegments out) = .ok base ∧
      Adds d d' (base.reverse ++ names) ∧ d'.read (out.along names) = .ok text := by
  obtain ⟨above, hfollow, -, hslash, hadds, hread⟩ := write_spec h
  obtain ⟨directories, name, rfl⟩ : ∃ directories name, names = directories ++ [name] := by
    rcases List.eq_nil_or_concat names with hnil | ⟨directories, name, hconcat⟩
    · exact absurd hnil hne
    · exact ⟨directories, name, by rw [hconcat, List.concat_eq_append]⟩
  have hsegments := lastSegment_spec hslash
  rw [segments_along out hnames hne, List.map_append, ← List.append_assoc] at hsegments
  obtain ⟨hfront, hlast⟩ := List.append_inj' hsegments rfl
  rw [origin_along d out hnames, ← hfront] at hfollow
  obtain ⟨base, hbase, hrest⟩ := follow_append.1 hfollow
  have hdirectories : Path.LegalNames directories := fun other hother =>
    hnames other (List.mem_append_left _ hother)
  have habove := follow_names hdirectories hrest
  rw [habove, ← List.singleton_inj.1 hlast, String.ofList_toList, List.append_assoc] at hadds
  exact ⟨base, hbase, hadds, hread⟩

/-- What was written along other names is read as before. -/
theorem read_of_write_along {out : Path} {text text' : String} {names' : List String}
    (hnames : Path.LegalNames names) (hne : names ≠ []) (hnames' : Path.LegalNames names')
    (hne' : names' ≠ []) (hother : names' ≠ names) (hread : d.read (out.along names') = .ok text')
    (h : d.write (out.along names) text = .ok d') : d'.read (out.along names') = .ok text' := by
  obtain ⟨base, hbase, hadds, -⟩ := write_along hnames hne h
  obtain ⟨start, t, hlocate⟩ := locate_of_read hread
  obtain ⟨base', hbase', rfl⟩ := locate_along hnames' hne' hlocate
  rw [hbase] at hbase'
  obtain rfl := Except.ok.inj hbase'
  refine hadds.read hlocate ?_ hread
  rw [Ne, List.append_cancel_left_eq]
  exact hother

/-- A step up is no file that can be written. -/
theorem not_write_parent {out : Path} {text : String} :
    d.write ⟨out.entrance ++ ".."⟩ text ≠ .ok d' := by
  intro h
  obtain ⟨above, hfollow, hname, hslash, hrest⟩ := write_spec h
  have hsegments := lastSegment_spec hslash
  rw [segments_entrance, Path.segments_of_no_slash (by decide)] at hsegments
  obtain ⟨-, hlast⟩ := List.append_inj' hsegments (by simp)
  have hdots : isNoName "..".toList = true := by decide
  rw [← List.singleton_inj.1 hlast, hdots] at hname
  cases hname

end StyleWeave.Disk
