import StyleWeave.Proofs.Path.Parent

/-!
# Ancestors of paths

The ancestors of an absolute path are its components with more and more of them left out at the end,
down to the root (`components_ancestors`). Those of its normal form are among the normal forms of
its own, in the same order (`normalize_ancestors_sublist`). They are fewer exactly if the path has a
`..` (`normalize_of_isAbsolute`): its own ancestors are then also those that the `..` leaves.
-/

namespace StyleWeave.Path

/-! ## Levels -/

/-- The initial parts of some components without the empty one, from the longest to the
shortest. -/
def levels (cs : List Component) : List (List Component) :=
  cs.inits.tail.reverse

@[simp] theorem levels_nil : levels [] = [] := rfl

@[simp] theorem levels_concat (cs : List Component) (c : Component) :
    levels (cs ++ [c]) = (cs ++ [c]) :: levels cs := by
  have hne : cs.inits ≠ [] := by cases cs <;> simp
  rw [levels, levels, List.inits_append]
  show (cs.inits ++ [cs ++ [c]]).tail.reverse = _
  rw [List.tail_append_of_ne_nil hne, List.reverse_append]
  rfl

theorem length_levels (cs : List Component) : (levels cs).length = cs.length := by
  simp [levels]

/-! ## Ancestors -/

theorem components_of_parent? {p q : Path} (h : p.parent? = some q) :
    q.components = p.components.dropLast := by
  rw [← components_directory, directory, h]
  rfl

theorem isSome_parent? {p : Path} {before : List Component} {last : Component}
    (h : p.components = before ++ [last]) (hlast : last ≠ .root) : p.parent?.isSome = true := by
  have hpiece : p.pieces.getLast?.map Piece.component = some last := by
    rw [← List.getLast?_map]
    exact (congrArg List.getLast? h).trans List.getLast?_concat
  obtain ⟨⟨component, stop⟩, hpieces, rfl⟩ := Option.map_eq_some_iff.1 hpiece
  unfold parent?
  rw [hpieces]
  cases component with
  | root => exact absurd rfl hlast
  | current => rfl
  | parent => rfl
  | name s => rfl

theorem parent?_of_root {p : Path} (h : p.components = [.root]) : p.parent? = none := by
  have hpiece : p.pieces.getLast?.map Piece.component = some .root := by
    rw [← List.getLast?_map]
    exact congrArg List.getLast? h
  obtain ⟨⟨component, stop⟩, hpieces, rfl⟩ := Option.map_eq_some_iff.1 hpiece
  unfold parent?
  rw [hpieces]

theorem components_ancestorsUpTo {n : Nat} {p : Path} (habs : p.isAbsolute = true)
    (hn : p.components.length ≤ n) : (ancestorsUpTo n p).map components = levels p.components := by
  induction n generalizing p with
  | zero =>
    rw [isAbsolute_iff_head?, List.length_eq_zero_iff.1 (Nat.le_zero.1 hn)] at habs
    cases habs
  | succ n ih =>
    have hhead := isAbsolute_iff_head?.1 habs
    rcases List.eq_nil_or_concat p.components with hnil | ⟨before, last, hconcat⟩
    · rw [hnil] at hhead
      cases hhead
    rw [List.concat_eq_append] at hconcat
    unfold ancestorsUpTo
    by_cases hlast : last = .root
    · -- Only the root itself ends with a root.
      rw [hlast] at hconcat
      obtain rfl := eq_nil_of_components_concat_root hconcat
      rw [parent?_of_root hconcat, hconcat]
      show [p.components] = levels ([] ++ [.root])
      rw [hconcat, levels_concat]
      rfl
    · obtain ⟨q, hq⟩ := Option.isSome_iff_exists.1 (isSome_parent? hconcat hlast)
      have hcomponents : q.components = before := by
        rw [components_of_parent? hq, hconcat, List.dropLast_concat]
      have habove : q.isAbsolute = true := by
        rw [isAbsolute_iff_head?, hcomponents]
        rw [hconcat] at hhead
        cases before with
        | nil =>
          obtain rfl : last = .root := by simpa using hhead
          exact absurd rfl hlast
        | cons c before => exact hhead
      have hlength : q.components.length ≤ n := by
        rw [hcomponents]
        rw [hconcat, List.length_append, List.length_singleton] at hn
        omega
      rw [hq]
      show p.components :: (ancestorsUpTo n q).map components = _
      rw [ih habove hlength, hconcat, levels_concat, hcomponents]

/-- The ancestors of an absolute path are its initial parts, the nearest first. -/
theorem components_ancestors {p : Path} (habs : p.isAbsolute = true) :
    p.ancestors.map components = levels p.components := by
  refine components_ancestorsUpTo habs ?_
  rw [components, List.length_map]
  omega

theorem length_ancestors {p : Path} (habs : p.isAbsolute = true) :
    p.ancestors.length = p.components.length := by
  rw [← length_levels, ← components_ancestors habs, List.length_map]

/-! ## Ancestors of normal forms -/

/-- A component goes on top of a stack, or changes nothing, or takes the top away. -/
theorem pushNormal_cases (stack : List Component) (c : Component) :
    pushNormal stack c = c :: stack ∨ pushNormal stack c = stack ∨
      pushNormal stack c = stack.tail := by
  cases c with
  | root => exact Or.inl rfl
  | current => exact Or.inr (Or.inl rfl)
  | name s => exact Or.inl rfl
  | parent =>
    cases stack with
    | nil => exact Or.inl rfl
    | cons top below =>
      cases top with
      | root => exact Or.inr (Or.inl rfl)
      | name s => exact Or.inr (Or.inr rfl)
      | current => exact Or.inl rfl
      | parent => exact Or.inl rfl

/-- The initial parts of a normal form were normal forms of initial parts. What a `..` takes away is
not met again. -/
theorem levels_normalComponents_sublist (cs : List Component) :
    (levels (normalComponents cs)).Sublist ((levels cs).map normalComponents) := by
  induction cs using List.reverseRecOn with
  | nil => exact List.Sublist.slnil
  | append_singleton cs c ih =>
    have hnext : normalComponents (cs ++ [c]) =
        (pushNormal (normalComponents cs).reverse c).reverse := normalComponents_append cs [c]
    rw [levels_concat, List.map_cons, hnext]
    rcases pushNormal_cases (normalComponents cs).reverse c with hpush | hsame | htail
    · rw [hpush, List.reverse_cons, List.reverse_reverse, levels_concat]
      exact ih.cons_cons _
    · rw [hsame, List.reverse_reverse]
      exact ih.cons _
    · rw [htail]
      refine List.Sublist.cons _ ?_
      cases hstack : (normalComponents cs).reverse with
      | nil => exact List.nil_sublist _
      | cons top below =>
        have hnormal : normalComponents cs = below.reverse ++ [top] := by
          rw [← List.reverse_cons, ← hstack, List.reverse_reverse]
        rw [hnormal, levels_concat] at ih
        exact List.sublist_of_cons_sublist ih

theorem current_notMem_componentsOf (segs : List (List Char)) :
    Component.current ∉ componentsOf false segs := by
  intro hmem
  induction segs with
  | nil => cases hmem
  | cons segment rest ih =>
    rw [componentsOf, List.mem_append, Option.mem_toList] at hmem
    rcases hmem with hfirst | hrest
    · unfold component? at hfirst
      split at hfirst
      · cases hfirst
      · split at hfirst
        · cases hfirst
        · split at hfirst
          · cases hfirst
          · cases hfirst
    · exact ih hrest

/-- The components of an absolute path lead on from the root. -/
theorem components_of_isAbsolute {p : Path} (habs : p.isAbsolute = true) :
    ∃ steps, p.components = .root :: steps ∧ ∀ c ∈ steps, c.Steps := by
  obtain ⟨cs, hcs⟩ : ∃ cs, p.text.toList = '/' :: cs := by
    simpa [isAbsolute, List.head?_eq_some_iff] using habs
  refine ⟨componentsOf false (segments cs), ?_, ?_⟩
  · rw [components_eq, if_pos habs, hcs]
    rfl
  · intro c hc
    obtain ⟨hlegal, hroot⟩ := legal_of_mem_componentsOf
      (fun _ => no_slash_of_mem_segments) hc
    refine ⟨hlegal, hroot, ?_⟩
    rintro rfl
    exact current_notMem_componentsOf _ hc

/-- Names collected over the root. -/
def OverRoot (stack : List Component) (height : Nat) : Prop :=
  ∃ above, stack = above ++ [.root] ∧ (∀ c ∈ above, ∃ s, c = .name s) ∧ above.length = height

/-- A step from names over the root leads to names over the root. It leads up by one at most, and a
`..` does not lead up. -/
theorem OverRoot.pushNormal {stack : List Component} {height : Nat} (h : OverRoot stack height)
    {c : Component} (hc : c.Steps) :
    ∃ next, OverRoot (pushNormal stack c) next ∧ next ≤ height + 1 ∧
      (c = .parent → next ≤ height) := by
  obtain ⟨above, rfl, hnames, rfl⟩ := h
  obtain ⟨-, hroot, hcurrent⟩ := hc
  cases c with
  | root => exact absurd rfl hroot
  | current => exact absurd rfl hcurrent
  | name s =>
    refine ⟨above.length + 1, ⟨.name s :: above, rfl, ?_, rfl⟩, le_refl _, ?_⟩
    · intro c hc
      rcases List.mem_cons.1 hc with rfl | hc
      · exact ⟨s, rfl⟩
      · exact hnames c hc
    · intro hparent
      cases hparent
  | parent =>
    cases above with
    | nil => exact ⟨0, ⟨[], rfl, hnames, rfl⟩, by simp, by simp⟩
    | cons top below =>
      obtain ⟨s, rfl⟩ := hnames top List.mem_cons_self
      refine ⟨below.length, ⟨below, rfl, ?_, rfl⟩, by simp only [List.length_cons]; omega, ?_⟩
      · intro c hc
        exact hnames c (List.mem_cons_of_mem _ hc)
      · intro _
        exact Nat.le_succ _

theorem OverRoot.foldl {stack : List Component} {height : Nat} (h : OverRoot stack height)
    {steps : List Component} (hsteps : ∀ c ∈ steps, c.Steps) :
    ∃ last, OverRoot (steps.foldl Path.pushNormal stack) last ∧ last ≤ height + steps.length ∧
      (.parent ∈ steps → last < height + steps.length) := by
  induction steps generalizing stack height with
  | nil => exact ⟨height, h, le_refl _, by simp⟩
  | cons c steps ih =>
    obtain ⟨next, hnext, hup, hparent⟩ := h.pushNormal (hsteps c List.mem_cons_self)
    obtain ⟨last, hlast, hle, hlt⟩ := ih hnext fun c' hc' => hsteps c' (List.mem_cons_of_mem _ hc')
    refine ⟨last, hlast, by rw [List.length_cons]; omega, ?_⟩
    intro hmem
    rw [List.length_cons]
    rcases List.mem_cons.1 hmem with hfirst | hrest
    · have hstay := hparent hfirst.symm
      omega
    · have hrest' := hlt hrest
      omega

/-- Names stay as they are. -/
theorem foldl_pushNormal_of_names {steps : List Component} (hsteps : ∀ c ∈ steps, c.Steps)
    (hparent : .parent ∉ steps) (stack : List Component) :
    steps.foldl pushNormal stack = steps.reverse ++ stack := by
  induction steps generalizing stack with
  | nil => rfl
  | cons c steps ih =>
    obtain ⟨hfirst, hrest⟩ := not_or.1 (mt List.mem_cons.2 hparent)
    obtain ⟨-, hroot, hcurrent⟩ := hsteps c List.mem_cons_self
    have hpush : pushNormal stack c = c :: stack := by
      cases c with
      | root => exact absurd rfl hroot
      | current => exact absurd rfl hcurrent
      | parent => exact absurd rfl hfirst
      | name s => rfl
    rw [List.foldl_cons, hpush, ih (fun c' hc' => hsteps c' (List.mem_cons_of_mem _ hc')) hrest,
      List.reverse_cons, List.append_assoc]
    rfl

/-- The normal form of an absolute path consists of names behind the root, and is shorter if the
path has a `..`. -/
theorem normalize_of_isAbsolute {p : Path} (habs : p.isAbsolute = true) :
    p.normalize.isAbsolute = true ∧ p.normalize.components.length ≤ p.components.length ∧
      (.parent ∈ p.components → p.normalize.components.length < p.components.length) ∧
      (.parent ∉ p.components → p.normalize.components = p.components) := by
  obtain ⟨steps, hcomponents, hsteps⟩ := components_of_isAbsolute habs
  have hroot : OverRoot [.root] 0 := ⟨[], rfl, by simp, rfl⟩
  obtain ⟨last, ⟨above, hfold, -, hlength⟩, hle, hlt⟩ := hroot.foldl hsteps
  have hnormal : p.normalize.components = .root :: above.reverse := by
    rw [components_normalize, hcomponents, normalComponents]
    show (steps.foldl pushNormal [.root]).reverse = _
    rw [hfold, List.reverse_append]
    rfl
  refine ⟨?_, ?_, ?_, ?_⟩
  · rw [isAbsolute_iff_head?, hnormal]
    rfl
  · rw [hnormal, hcomponents]
    simp only [List.length_cons, List.length_reverse]
    omega
  · intro hparent
    rw [hcomponents] at hparent
    have hless := hlt (by simpa using hparent)
    rw [hnormal, hcomponents]
    simp only [List.length_cons, List.length_reverse]
    omega
  · intro hparent
    rw [hcomponents] at hparent
    rw [components_normalize, hcomponents, normalComponents]
    show (steps.foldl pushNormal [.root]).reverse = _
    rw [foldl_pushNormal_of_names hsteps (by simpa using hparent), List.reverse_append,
      List.reverse_reverse]
    rfl

/-- The ancestors of the normal form are normal forms of ancestors, and met in the same order. -/
theorem normalize_ancestors_sublist {p : Path} (habs : p.isAbsolute = true) :
    (p.normalize.ancestors.map normalize).Sublist (p.ancestors.map normalize) := by
  have hlevels := levels_normalComponents_sublist p.components
  rw [← components_normalize, ← components_ancestors (normalize_of_isAbsolute habs).1,
    ← components_ancestors habs] at hlevels
  have hpaths := hlevels.map fun cs => ofComponents (normalComponents cs)
  rw [List.map_map, List.map_map, List.map_map] at hpaths
  have hagain : ∀ q : Path, ofComponents (normalComponents (normalComponents q.components)) =
      q.normalize := by
    intro q
    rw [← components_normalize]
    exact q.normalize_normalize
  simp only [Function.comp_def, hagain] at hpaths
  exact hpaths

end StyleWeave.Path
