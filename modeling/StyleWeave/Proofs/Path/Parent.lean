import Mathlib.Data.List.Infix
import StyleWeave.Dialect
import StyleWeave.Proofs.Path.Normal

/-!
# Parents of paths

The directory of a path is its text up to where the last component but one ends, and has the
components of the path but the last (`components_directory`). A file name is read off the last
component. So equal paths have equal directories, and are documents of the same dialects.
-/

namespace StyleWeave

namespace Path

/-! ## Initial segments of a text -/

theorem intercalate_segments (cs : List Char) : List.intercalate ['/'] (segments cs) = cs := by
  induction cs with
  | nil => rfl
  | cons c cs ih =>
    obtain ⟨segment, rest, hs⟩ := List.exists_cons_of_ne_nil (segments_ne_nil cs)
    unfold segments
    rw [hs] at ih ⊢
    by_cases hc : c = '/'
    · rw [if_pos hc, List.intercalate_cons_cons, ih, hc]
      rfl
    · rw [if_neg hc]
      cases rest with
      | nil => simpa using ih
      | cons next rest =>
        rw [List.intercalate_cons_cons] at ih
        simpa [List.intercalate_cons_cons] using ih

theorem intercalate_isInitial {initial : List (List Char)} (hne : initial ≠ [])
    (others : List (List Char)) :
    List.intercalate ['/'] initial <+: List.intercalate ['/'] (initial ++ others) := by
  induction initial with
  | nil => exact absurd rfl hne
  | cons segment rest ih =>
    cases rest with
    | nil =>
      cases others with
      | nil => exact List.prefix_rfl
      | cons next others =>
        rw [List.singleton_append, List.intercalate_cons_cons, List.append_assoc]
        simp
    | cons next rest =>
      have hrest := ih (by simp)
      rw [List.cons_append] at hrest
      rw [List.cons_append, List.cons_append, List.intercalate_cons_cons,
        List.intercalate_cons_cons]
      exact (List.prefix_append_right_inj _).2 hrest

/-- Up to the end of a piece lie the segments that the pieces up to it stand for. -/
theorem exists_segments_of_piece {segs : List (List Char)} {first : Bool} {start : Nat}
    {before after : List Piece} {x : Piece}
    (h : piecesFrom first start segs = before ++ x :: after) :
    ∃ initial others, segs = initial ++ others ∧ initial ≠ [] ∧
      x.stop = start + (List.intercalate ['/'] initial).length ∧ start < x.stop ∧
      componentsOf first initial = before.map Piece.component ++ [x.component] := by
  induction segs generalizing first start before with
  | nil => simp [piecesFrom] at h
  | cons segment rest ih =>
    have hlonger : ∀ {before' : List Piece},
        piecesFrom false (start + segment.length + 1) rest = before' ++ x :: after →
        ∃ initial others, segment :: rest = segment :: initial ++ others ∧
          x.stop = start + (List.intercalate ['/'] (segment :: initial)).length ∧
          start < x.stop ∧
          componentsOf first (segment :: initial) = (component? first segment).toList ++
            (before'.map Piece.component ++ [x.component]) := by
      intro before' hrest
      obtain ⟨initial, others, rfl, hne, hstop, hlt, hcomponents⟩ := ih hrest
      obtain ⟨next, initial, rfl⟩ := List.exists_cons_of_ne_nil hne
      refine ⟨_, others, rfl, ?_, by omega, by rw [componentsOf, hcomponents]⟩
      rw [List.intercalate_cons_cons, hstop]
      simp only [List.length_append, List.length_singleton]
      omega
    unfold piecesFrom at h
    dsimp only at h
    cases hc : component? first segment with
    | none =>
      rw [hc] at h
      obtain ⟨initial, others, hsegs, hstop, hlt, hcomponents⟩ := hlonger h
      exact ⟨_, others, hsegs, by simp, hstop, hlt, by simpa [hc] using hcomponents⟩
    | some c =>
      rw [hc] at h
      cases before with
      | nil =>
        -- The piece is that of the first segment, which is not empty.
        obtain ⟨rfl, -⟩ := List.cons.inj h
        have hpos : 0 < segment.length := by
          refine List.length_pos_iff.2 fun hempty => ?_
          simp [component?, hempty] at hc
        exact ⟨[segment], rest, rfl, by simp, by simp, by simpa using hpos,
          by simp [componentsOf, hc]⟩
      | cons y before =>
        obtain ⟨rfl, hrest⟩ := List.cons.inj h
        obtain ⟨initial, others, hsegs, hstop, hlt, hcomponents⟩ := hlonger hrest
        exact ⟨_, others, hsegs, by simp, hstop, hlt, by simpa [hc] using hcomponents⟩

/-- A text up to the end of one of its pieces has the pieces up to it. -/
theorem componentsOf_take {cs : List Char} {before after : List Piece} {x : Piece}
    (h : piecesFrom true 0 (segments cs) = before ++ x :: after) :
    0 < x.stop ∧ componentsOf true (segments (cs.take x.stop)) =
      before.map Piece.component ++ [x.component] := by
  obtain ⟨initial, others, hsegs, hne, hstop, hlt, hcomponents⟩ := exists_segments_of_piece h
  have hslash : ∀ segment ∈ initial, '/' ∉ segment := fun segment hm =>
    no_slash_of_mem_segments (by rw [hsegs]; exact List.mem_append_left _ hm)
  have htake : cs.take x.stop = List.intercalate ['/'] initial := by
    have hinitial := List.prefix_iff_eq_take.1 (intercalate_isInitial hne others)
    rw [← hsegs, intercalate_segments] at hinitial
    rw [hinitial, hstop, Nat.zero_add]
  exact ⟨hlt, by rw [htake, segments_intercalate hne hslash, hcomponents]⟩

/-! ## Directories -/

/-- A path up to the end of one of its pieces has the components up to it. -/
theorem components_takeText {p : Path} {before after : List Piece} {x : Piece}
    (h : p.pieces = before ++ x :: after) :
    (p.takeText x.stop).components = (before ++ [x]).map Piece.component := by
  have htext : (p.takeText x.stop).text.toList = p.text.toList.take x.stop := by simp [takeText]
  have habs : 0 < x.stop → (p.takeText x.stop).isAbsolute = p.isAbsolute := by
    intro hpos
    unfold isAbsolute
    rw [htext, List.head?_take, if_neg (by omega)]
  unfold pieces at h
  dsimp only at h
  rw [components_eq, htext, List.map_append]
  by_cases hroot : p.isAbsolute = true
  · rw [if_pos hroot] at h
    cases before with
    | nil =>
      obtain ⟨rfl, -⟩ := List.cons.inj h
      obtain ⟨cs, hcs⟩ : ∃ cs, p.text.toList = '/' :: cs := by
        simpa [isAbsolute, List.head?_eq_some_iff] using hroot
      rw [habs (by decide), if_pos hroot, hcs]
      rfl
    | cons first before =>
      obtain ⟨rfl, hrest⟩ := List.cons.inj h
      obtain ⟨hpos, hcomponents⟩ := componentsOf_take hrest
      rw [habs hpos, if_pos hroot, hcomponents]
      rfl
  · rw [if_neg hroot] at h
    obtain ⟨hpos, hcomponents⟩ := componentsOf_take h
    rw [habs hpos, if_neg hroot, hcomponents]
    rfl

/-- Only the first component of a path can be the root. -/
theorem eq_nil_of_components_concat_root {p : Path} {before : List Component}
    (h : p.components = before ++ [.root]) : before = [] := by
  have hroot : Component.root ∉ componentsOf true (segments p.text.toList) := fun hm =>
    (legal_of_mem_componentsOf (fun _ => no_slash_of_mem_segments) hm).2 rfl
  rw [components_eq] at h
  rcases List.eq_nil_or_concat (componentsOf true (segments p.text.toList)) with
    hnil | ⟨initial, last, hconcat⟩
  · rw [hnil, List.append_nil] at h
    split at h
    · simpa using h
    · simp at h
  · rw [hconcat, List.concat_eq_append, ← List.append_assoc] at h
    obtain rfl : last = .root := (List.append_inj' h rfl).2 |> List.singleton_inj.1
    exact absurd (by simp [hconcat]) hroot

theorem directory_of_pieces {p : Path} {before : List Piece} {last : Piece}
    (h : p.pieces = before ++ [last]) :
    p.directory = if last.component = .root then ⟨""⟩ else p.takeText (stopOf before) := by
  obtain ⟨component, stop⟩ := last
  unfold directory parent?
  rw [h, List.getLast?_concat, List.dropLast_concat]
  cases component <;> rfl

/-- The directory of a path has its components but the last. -/
theorem components_directory (p : Path) : p.directory.components = p.components.dropLast := by
  have hempty : (Path.mk "").components = [] := by decide
  rcases List.eq_nil_or_concat p.pieces with hnil | ⟨before, last, hpieces⟩
  · simpa [directory, parent?, components, hnil] using hempty
  · rw [List.concat_eq_append] at hpieces
    have hcomponents : p.components = before.map Piece.component ++ [last.component] := by
      simp [components, hpieces]
    rw [hcomponents, List.dropLast_concat, directory_of_pieces hpieces]
    by_cases hroot : last.component = .root
    · rw [hroot] at hcomponents
      rw [if_pos hroot, eq_nil_of_components_concat_root hcomponents, hempty]
    · rw [if_neg hroot]
      rcases List.eq_nil_or_concat before with rfl | ⟨others, above, rfl⟩
      · exact hempty
      · rw [List.concat_eq_append] at hpieces ⊢
        rw [List.append_assoc] at hpieces
        rw [stopOf, List.getLast?_concat]
        exact components_takeText hpieces

theorem directory_congr {p q : Path} (h : p == q) : p.directory == q.directory := by
  rw [beq_iff] at h ⊢
  rw [components_directory, components_directory, h]

/-! ## File names -/

theorem fileName?_congr {p q : Path} (h : p == q) : p.fileName? = q.fileName? := by
  have hlast : p.pieces.getLast?.map Piece.component = q.pieces.getLast?.map Piece.component := by
    rw [← List.getLast?_map, ← List.getLast?_map]
    exact congrArg List.getLast? (beq_iff.1 h)
  unfold fileName?
  cases hp : p.pieces.getLast? with
  | none =>
    rw [hp] at hlast
    rw [Option.map_eq_none_iff.1 hlast.symm]
  | some x =>
    rw [hp] at hlast
    obtain ⟨y, hq, hsame⟩ := Option.map_eq_some_iff.1 hlast.symm
    obtain ⟨component, stop⟩ := x
    obtain ⟨component', stop'⟩ := y
    obtain rfl : component' = component := hsame
    rw [hq]
    cases component' <;> rfl

theorem fileName?_eq_some_iff {p : Path} {name : String} :
    p.fileName? = some name ↔ p.components.getLast? = some (.name name) := by
  unfold fileName? components
  rw [List.getLast?_map]
  rcases p.pieces.getLast? with _ | ⟨component, stop⟩
  · simp
  · cases component <;> simp

/-- A path with a file name is that name behind its directory. -/
theorem components_of_fileName {p : Path} {name : String} (h : p.fileName? = some name) :
    p.components = p.directory.components ++ [.name name] := by
  obtain ⟨before, hbefore⟩ := List.getLast?_eq_some_iff.1 (fileName?_eq_some_iff.1 h)
  rw [components_directory, hbefore, List.dropLast_concat]

theorem legal_of_fileName {p : Path} {name : String} (h : p.fileName? = some name) :
    (Component.name name).Legal := by
  have hmem : .name name ∈ p.components := List.mem_of_getLast? (fileName?_eq_some_iff.1 h)
  rw [components_eq] at hmem
  rcases List.mem_append.1 hmem with hroot | hmem
  · split at hroot
    · cases List.mem_singleton.1 hroot
    · cases hroot
  · exact (legal_of_mem_componentsOf (fun _ hs => no_slash_of_mem_segments hs) hmem).1

/-- A file name by itself is a relative path of one component. -/
theorem components_of_legal {name : String} (h : (Component.name name).Legal) (first : Bool) :
    isAbsolute ⟨name⟩ = false ∧ componentsOf first (segments name.toList) = [.name name] := by
  have hsteps : ∀ c ∈ [Component.name name], c.Steps := by
    intro c hc
    rw [List.mem_singleton.1 hc]
    exact ⟨h, by simp, by simp⟩
  constructor
  · refine Bool.eq_false_iff.2 fun habs => h.2.1 ?_
    exact List.mem_of_head? (of_decide_eq_true habs)
  · rw [segments_of_no_slash h.2.1]
    exact componentsOf_texts hsteps

theorem components_name {name : String} (h : (Component.name name).Legal) :
    (Path.mk name).components = [.name name] := by
  obtain ⟨habs, hsegments⟩ := components_of_legal h true
  rw [components_eq, habs]
  exact hsegments

/-- The file name leads from the directory to the file. -/
theorem normalize_join_fileName {p dir : Path} {name : String} (h : p.fileName? = some name)
    (hdir : dir == p.directory) : (dir.join ⟨name⟩).normalize = p.normalize := by
  have hlegal := legal_of_fileName h
  obtain ⟨habs, hsegments⟩ := components_of_legal hlegal false
  refine normalize_congr ?_
  rw [components_of_fileName h, ← beq_iff.1 hdir]
  by_cases hempty : dir.text = ""
  · have hjoin : dir.join ⟨name⟩ = ⟨name⟩ := by simp [join, habs, hempty]
    have hnone : dir.components = [] := by
      obtain ⟨text⟩ := dir
      obtain rfl : text = "" := hempty
      decide
    rw [hjoin, hnone, components_name hlegal]
    rfl
  · rw [components_join hempty habs, hsegments]

/-- Behind another path, only a `.` in front of a relative path gets lost. -/
theorem componentsOf_first (segs : List (List Char)) :
    componentsOf true segs = componentsOf false segs ∨
      componentsOf true segs = .current :: componentsOf false segs := by
  cases segs with
  | nil => exact Or.inl rfl
  | cons segment rest =>
    by_cases hdot : segment = ['.']
    · rw [hdot]
      exact Or.inr rfl
    · left
      unfold componentsOf component?
      rw [if_neg hdot, if_neg hdot]

theorem fileName?_join (p : Path) {q : Path} {name : String}
    (h : q.fileName? = some name) :
    (p.join q).fileName? = some name := by
  by_cases habs : q.isAbsolute = true
  · rwa [join, if_pos habs]
  · have hrel : q.isAbsolute = false := by simpa using habs
    by_cases hempty : p.text = ""
    · have hjoin : p.join q = q := by simp [join, hrel, hempty]
      rwa [hjoin]
    · rw [fileName?_eq_some_iff, components_eq, if_neg habs, List.nil_append] at h
      rw [fileName?_eq_some_iff, components_join hempty hrel, List.getLast?_append]
      rcases componentsOf_first (segments q.text.toList) with hsame | hdot
      · rw [← hsame, h, Option.some_or]
      · rw [hdot] at h
        cases hrest : componentsOf false (segments q.text.toList) with
        | nil =>
          rw [hrest] at h
          cases h
        | cons c rest =>
          rw [hrest, List.getLast?_cons_cons] at h
          rw [h, Option.some_or]

theorem fileName?_normalize {p : Path} {name : String} (h : p.fileName? = some name) :
    p.normalize.fileName? = some name := by
  obtain ⟨before, hbefore⟩ := List.getLast?_eq_some_iff.1 (fileName?_eq_some_iff.1 h)
  rw [fileName?_eq_some_iff, components_normalize, hbefore, normalComponents_append]
  show (Component.name name :: _).reverse.getLast? = _
  rw [List.reverse_cons, List.getLast?_concat]

end Path

/-- Whether a path names a document of a dialect is told by its file name. -/
theorem Dialect.isDialectFile_of_fileName (d : Dialect) {p q : Path}
    (h : p.fileName? = q.fileName?) : d.isDialectFile p = d.isDialectFile q := by
  unfold isDialectFile Path.extension?
  rw [h]

/-- Equal paths are documents of the same dialects. -/
theorem Dialect.isDialectFile_congr (d : Dialect) {p q : Path} (h : p == q) :
    d.isDialectFile p = d.isDialectFile q :=
  d.isDialectFile_of_fileName (Path.fileName?_congr h)

end StyleWeave
