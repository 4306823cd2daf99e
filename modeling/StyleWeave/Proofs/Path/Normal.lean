import StyleWeave.Proofs.Path.Join

/-!
# Normal forms

The components of a normal path are names behind a root, or behind any number of `..`. `Stacked`
says so of the reversed list in which they are collected. Such components can be read back from the
path that they make (`components_ofComponents`), and collecting them again changes nothing, so a
normal form is its own normal form (`normalize_normalize`). It may also stand for the path in front
of another one (`normalize_join_normalize`).
-/

namespace StyleWeave.Path

/-! ## Components of a path -/

/-- A component that a segment can stand for: a name is not empty, has no slash and is neither `.`
nor `..`. -/
def Component.Legal : Component → Prop
  | .name s => s.toList ≠ [] ∧ '/' ∉ s.toList ∧ s.toList ≠ ['.'] ∧ s.toList ≠ ['.', '.']
  | _ => True

theorem no_slash_of_mem_segments {cs segment : List Char} (h : segment ∈ segments cs) :
    '/' ∉ segment := by
  induction cs generalizing segment with
  | nil =>
    obtain rfl : segment = [] := by simpa [segments] using h
    simp
  | cons c cs ih =>
    unfold segments at h
    by_cases hc : c = '/'
    · rw [if_pos hc] at h
      rcases List.mem_cons.1 h with rfl | h
      · simp
      · exact ih h
    · rw [if_neg hc] at h
      cases hs : segments cs with
      | nil => exact absurd hs (segments_ne_nil cs)
      | cons first rest =>
        rw [hs] at h
        rcases List.mem_cons.1 h with rfl | h
        · rw [List.mem_cons, not_or]
          exact ⟨fun hslash => hc hslash.symm, ih (by rw [hs]; exact List.mem_cons_self)⟩
        · exact ih (by rw [hs]; exact List.mem_cons_of_mem _ h)

theorem legal_of_mem_componentsOf {first : Bool} {segs : List (List Char)}
    (hsegs : ∀ segment ∈ segs, '/' ∉ segment) {c : Component} (h : c ∈ componentsOf first segs) :
    c.Legal ∧ c ≠ .root := by
  induction segs generalizing first with
  | nil => simp [componentsOf] at h
  | cons segment rest ih =>
    unfold componentsOf at h
    rcases List.mem_append.1 h with h | h
    · have hslash := hsegs segment List.mem_cons_self
      unfold component? at h
      split at h
      · simp at h
      · split at h
        · split at h
          · obtain rfl : c = .current := by simpa using h
            exact ⟨trivial, by simp⟩
          · simp at h
        · split at h
          · obtain rfl : c = .parent := by simpa using h
            exact ⟨trivial, by simp⟩
          · obtain rfl : c = .name (String.ofList segment) := by simpa using h
            refine ⟨?_, by simp⟩
            simp only [Component.Legal, String.toList_ofList]
            exact ⟨‹_›, hslash, ‹_›, ‹_›⟩
    · exact ih (fun s hs => hsegs s (List.mem_cons_of_mem _ hs)) h

/-! ## Collecting components -/

/-- The components of a normal path, in reverse. -/
inductive Stacked : List Component → Prop where
  | nil : Stacked []
  | root : Stacked [.root]
  | parent {above : List Component} (parents : ∀ c ∈ above, c = .parent) :
      Stacked (.parent :: above)
  | name {s : String} {above : List Component} (legal : (Component.name s).Legal)
      (stacked : Stacked above) : Stacked (.name s :: above)

theorem Stacked.pushNormal {above : List Component} (h : Stacked above) {c : Component}
    (hc : c.Legal) (hroot : c ≠ .root) : Stacked (pushNormal above c) := by
  cases c with
  | root => exact absurd rfl hroot
  | current => exact h
  | name s => exact .name hc h
  | parent =>
    cases h with
    | nil => exact .parent (by simp)
    | root => exact .root
    | parent parents => exact .parent (by simpa using parents)
    | name _ stacked => exact stacked

theorem Stacked.foldl {above : List Component} (h : Stacked above) {cs : List Component}
    (hcs : ∀ c ∈ cs, c.Legal ∧ c ≠ .root) : Stacked (cs.foldl Path.pushNormal above) := by
  induction cs generalizing above with
  | nil => exact h
  | cons c cs ih =>
    obtain ⟨hlegal, hroot⟩ := hcs c List.mem_cons_self
    exact ih (h.pushNormal hlegal hroot) fun c' hc' => hcs c' (List.mem_cons_of_mem _ hc')

theorem stacked_normalComponents (p : Path) : Stacked (normalComponents p.components).reverse := by
  have hsegs : ∀ c ∈ componentsOf true (segments p.text.toList), c.Legal ∧ c ≠ .root :=
    fun c hc => legal_of_mem_componentsOf (fun _ => no_slash_of_mem_segments) hc
  rw [normalComponents, List.reverse_reverse, components_eq, List.foldl_append]
  refine Stacked.foldl ?_ hsegs
  by_cases habs : p.isAbsolute
  · rw [if_pos habs]
    exact .root
  · rw [if_neg habs]
    exact .nil

/-- Collecting the components of a normal path gives them back. -/
theorem Stacked.normalComponents_reverse {stack : List Component} (h : Stacked stack) :
    normalComponents stack.reverse = stack.reverse := by
  have hfold : stack.reverse.foldl Path.pushNormal [] = stack := by
    induction h with
    | nil => rfl
    | root => rfl
    | name _ _ ih => rw [List.reverse_cons, List.foldl_append, ih]; rfl
    | @parent above parents =>
      rw [List.eq_replicate_of_mem parents, ← List.replicate_succ, List.reverse_replicate]
      generalize above.length + 1 = n
      induction n with
      | zero => rfl
      | succ n ih =>
        have hpush : Path.pushNormal (List.replicate n .parent) .parent =
            List.replicate (n + 1) .parent := by
          cases n <;> rfl
        rw [List.replicate_succ', List.foldl_append, ih, List.foldl_cons, List.foldl_nil, hpush,
          List.replicate_succ']
  rw [normalComponents, hfold]

/-! ## Reading components back -/

theorem segments_of_no_slash {cs : List Char} (h : '/' ∉ cs) : segments cs = [cs] := by
  induction cs with
  | nil => rfl
  | cons c cs ih =>
    rw [List.mem_cons, not_or] at h
    rw [segments, if_neg fun hc => h.1 hc.symm, ih h.2]

theorem segments_intercalate {segs : List (List Char)} (hne : segs ≠ [])
    (h : ∀ segment ∈ segs, '/' ∉ segment) : segments (List.intercalate ['/'] segs) = segs := by
  induction segs with
  | nil => exact absurd rfl hne
  | cons segment rest ih =>
    have hslash := h segment List.mem_cons_self
    cases rest with
    | nil => rw [List.intercalate_singleton, segments_of_no_slash hslash]
    | cons next rest =>
      rw [List.intercalate_cons_cons, List.append_assoc]
      show segments (segment ++ '/' :: List.intercalate ['/'] (next :: rest)) = _
      rw [segments_append_slash, segments_of_no_slash hslash,
        ih (by simp) fun s hs => h s (List.mem_cons_of_mem _ hs)]
      rfl

/-- A component that leads on from a directory: a name, or a `..`. -/
def Component.Steps (c : Component) : Prop :=
  c.Legal ∧ c ≠ .root ∧ c ≠ .current

theorem Component.Steps.text_spec {c : Component} (h : c.Steps) (first : Bool) :
    c.text.toList ≠ [] ∧ '/' ∉ c.text.toList ∧ component? first c.text.toList = some c := by
  obtain ⟨hlegal, hroot, hcurrent⟩ := h
  cases c with
  | root => exact absurd rfl hroot
  | current => exact absurd rfl hcurrent
  | parent => cases first <;> decide
  | name s =>
    obtain ⟨hne, hslash, hdot, hdots⟩ := hlegal
    refine ⟨hne, hslash, ?_⟩
    show component? first s.toList = some (.name s)
    rw [component?, if_neg hne, if_neg hdot, if_neg hdots, String.ofList_toList]

theorem componentsOf_texts {first : Bool} {cs : List Component} (h : ∀ c ∈ cs, c.Steps) :
    componentsOf first (cs.map fun c => c.text.toList) = cs := by
  induction cs generalizing first with
  | nil => rfl
  | cons c cs ih =>
    obtain ⟨-, -, hc⟩ := (h c List.mem_cons_self).text_spec first
    rw [List.map_cons, componentsOf, hc, ih fun c' hc' => h c' (List.mem_cons_of_mem _ hc')]
    rfl

/-- The text of some steps, with slashes between them, has these components. -/
theorem componentsOf_intercalate {first : Bool} {cs : List Component} (h : ∀ c ∈ cs, c.Steps) :
    componentsOf first (segments ("/".intercalate (cs.map Component.text)).toList) = cs := by
  rw [String.toList_intercalate, List.map_map]
  cases cs with
  | nil => rfl
  | cons c cs =>
    have hsegs : segments (List.intercalate ['/'] ((c :: cs).map fun c => c.text.toList)) =
        (c :: cs).map fun c => c.text.toList := by
      refine segments_intercalate (by simp) fun segment hsegment => ?_
      obtain ⟨c', hc', rfl⟩ := List.mem_map.1 hsegment
      exact ((h c' hc').text_spec true).2.1
    exact (congrArg (componentsOf first) hsegs).trans (componentsOf_texts h)

theorem head?_intercalate {cs : List Component} (h : ∀ c ∈ cs, c.Steps) :
    ("/".intercalate (cs.map Component.text)).toList.head? ≠ some '/' := by
  rw [String.toList_intercalate, List.map_map]
  cases cs with
  | nil => simp
  | cons c cs =>
    obtain ⟨hne, hslash, -⟩ := (h c List.mem_cons_self).text_spec true
    intro hhead
    have hfirst : c.text.toList.head? = some '/' := by
      cases cs with
      | nil => simpa using hhead
      | cons next cs =>
        rwa [List.map_cons, List.map_cons, List.intercalate_cons_cons, List.append_assoc,
          Function.comp_apply, List.head?_append_of_ne_nil _ hne] at hhead
    exact hslash (List.mem_of_head? hfirst)

/-- A path made of steps, behind a root or not, has these components. -/
theorem components_ofComponents_of_steps {cs : List Component} (h : ∀ c ∈ cs, c.Steps) :
    (ofComponents cs).components = cs ∧ (ofComponents (.root :: cs)).components = .root :: cs := by
  constructor
  · have htext : ofComponents cs = ⟨"/".intercalate (cs.map Component.text)⟩ := by
      cases cs with
      | nil => rfl
      | cons c cs =>
        have hroot := (h c List.mem_cons_self).2.1
        cases c <;> first | exact absurd rfl hroot | rfl
    have habs : (ofComponents cs).isAbsolute = false := by
      rw [htext]
      simpa [isAbsolute] using head?_intercalate h
    rw [components_eq, habs, htext, componentsOf_intercalate h]
    rfl
  · rw [components_eq]
    have htext : (ofComponents (.root :: cs)).text.toList =
        '/' :: ("/".intercalate (cs.map Component.text)).toList := by
      simp [ofComponents, String.toList_append]
    have habs : (ofComponents (.root :: cs)).isAbsolute = true := by
      simp [isAbsolute, htext]
    rw [habs, if_pos rfl, htext, segments, if_pos rfl, componentsOf, componentsOf_intercalate h]
    rfl

/-- Stacked components are steps, or steps behind a root. -/
theorem Stacked.steps_or_root {stack : List Component} (h : Stacked stack) :
    ∃ cs : List Component, (∀ c ∈ cs, c.Steps) ∧
      (stack.reverse = cs ∨ stack.reverse = .root :: cs) := by
  induction h with
  | nil => exact ⟨[], by simp, Or.inl rfl⟩
  | root => exact ⟨[], by simp, Or.inr rfl⟩
  | @parent above parents =>
    refine ⟨_, fun c hc => ?_, Or.inl rfl⟩
    obtain rfl : c = .parent := by
      rcases List.mem_cons.1 (List.mem_reverse.1 hc) with hc | hc
      · exact hc
      · exact parents c hc
    exact ⟨trivial, by simp, by simp⟩
  | @name s above legal stacked ih =>
    obtain ⟨cs, hcs, hshape⟩ := ih
    have hname : (Component.name s).Steps := ⟨legal, by simp, by simp⟩
    refine ⟨cs ++ [.name s], ?_, ?_⟩
    · intro c hc
      rcases List.mem_append.1 hc with hc | hc
      · exact hcs c hc
      · rwa [List.mem_singleton.1 hc]
    · rw [List.reverse_cons]
      rcases hshape with hshape | hshape
      · exact Or.inl (by rw [hshape])
      · exact Or.inr (by rw [hshape, List.cons_append])

theorem Stacked.components_ofComponents {stack : List Component} (h : Stacked stack) :
    (ofComponents stack.reverse).components = stack.reverse := by
  obtain ⟨cs, hcs, hshape | hshape⟩ := h.steps_or_root
  · rw [hshape, (components_ofComponents_of_steps hcs).1]
  · rw [hshape, (components_ofComponents_of_steps hcs).2]

theorem components_normalize (p : Path) :
    p.normalize.components = normalComponents p.components := by
  have h := (stacked_normalComponents p).components_ofComponents
  rwa [List.reverse_reverse] at h

theorem normalize_normalize (p : Path) : p.normalize.normalize = p.normalize := by
  have h := (stacked_normalComponents p).normalComponents_reverse
  rw [List.reverse_reverse] at h
  rw [normalize, components_normalize, h, normalize]

/-! ## The shape of normal forms -/

theorem Stacked.current_notMem {stack : List Component} (h : Stacked stack) :
    Component.current ∉ stack := by
  intro hmem
  induction h with
  | nil => cases hmem
  | root => simp at hmem
  | parent parents =>
    rcases List.mem_cons.1 hmem with heq | hmem
    · cases heq
    · cases parents _ hmem
  | name legal stacked ih =>
    rcases List.mem_cons.1 hmem with heq | hmem
    · cases heq
    · exact ih hmem

/-- Below a `..` there is nothing but more of them. -/
theorem Stacked.eq_parent_of_below {stack above below : List Component} (h : Stacked stack)
    (hstack : stack = above ++ .parent :: below) : ∀ c ∈ below, c = .parent := by
  induction h generalizing above with
  | nil => simp at hstack
  | root =>
    cases above with
    | nil => simp at hstack
    | cons c above => simp at hstack
  | parent parents =>
    cases above with
    | nil =>
      obtain ⟨-, rfl⟩ := List.cons.inj hstack
      exact parents
    | cons c above =>
      obtain ⟨-, rfl⟩ := List.cons.inj hstack
      intro c hc
      exact parents c (List.mem_append_right _ (List.mem_cons_of_mem _ hc))
  | name legal stacked ih =>
    cases above with
    | nil => simp at hstack
    | cons c above => exact ih (List.cons.inj hstack).2

theorem isAbsolute_iff_head? {p : Path} :
    p.isAbsolute = true ↔ p.components.head? = some .root := by
  rw [components_eq]
  by_cases habs : p.isAbsolute = true
  · simp [habs]
  · rw [if_neg habs, List.nil_append]
    refine iff_of_false habs ?_
    intro hhead
    exact (legal_of_mem_componentsOf (fun _ => no_slash_of_mem_segments)
      (List.mem_of_head? hhead)).2 rfl

/-- A `..` in a normal form has nothing but more of them in front of it, so the path is
relative. -/
theorem parent_in_front {p : Path} {before after : List Component}
    (h : p.normalize.components = before ++ .parent :: after) :
    (∀ c ∈ before, c = .parent) ∧ p.normalize.isAbsolute = false := by
  have hstack : (normalComponents p.components).reverse =
      after.reverse ++ .parent :: before.reverse := by
    rw [← components_normalize, h]
    simp
  have hbefore : ∀ c ∈ before, c = .parent := by
    intro c hc
    exact (stacked_normalComponents p).eq_parent_of_below hstack c (List.mem_reverse.2 hc)
  refine ⟨hbefore, Bool.eq_false_iff.2 ?_⟩
  intro habs
  rw [isAbsolute_iff_head?, h] at habs
  cases before with
  | nil => simp at habs
  | cons c before =>
    have hc : c = .parent := hbefore c List.mem_cons_self
    simp [hc] at habs

theorem current_notMem_normalize (p : Path) : Component.current ∉ p.normalize.components := by
  intro hmem
  rw [components_normalize] at hmem
  exact (stacked_normalComponents p).current_notMem (List.mem_reverse.2 hmem)

/-! ## Normal forms of joined paths -/

/-- What components add to a normal form depends on the normal form of those in front of them. -/
theorem normalComponents_append (cs ds : List Component) :
    normalComponents (cs ++ ds) = (ds.foldl pushNormal (normalComponents cs).reverse).reverse := by
  rw [normalComponents, normalComponents, List.foldl_append, List.reverse_reverse]

/-- The normal form of a relative path behind another one. A `.` in front of it drops out. -/
theorem normalComponents_join (p : Path) {q : Path} (hq : q.isAbsolute = false) :
    normalComponents (p.join q).components =
      normalComponents (p.components ++ componentsOf false (segments q.text.toList)) := by
  by_cases hp : p.text = ""
  · have hjoin : p.join q = q := by simp [join, hq, hp]
    have hnone : p.components = [] := by
      obtain ⟨text⟩ := p
      obtain rfl : text = "" := hp
      decide
    rw [hjoin, hnone, components_eq, hq, List.nil_append]
    exact normalComponents_componentsOf _
  · rw [components_join hp hq]

/-- The normal form of a path leads on to where the path does. -/
theorem normalize_join_normalize (p q : Path) :
    (p.normalize.join q).normalize = (p.join q).normalize := by
  by_cases hq : q.isAbsolute = true
  · simp [join, hq]
  · have hrel : q.isAbsolute = false := by simpa using hq
    have hsame : normalComponents p.normalize.components = normalComponents p.components := by
      rw [← components_normalize, ← components_normalize, normalize_normalize]
    show ofComponents (normalComponents (p.normalize.join q).components) =
      ofComponents (normalComponents (p.join q).components)
    rw [normalComponents_join _ hrel, normalComponents_join _ hrel, normalComponents_append,
      normalComponents_append, hsame]

end StyleWeave.Path
