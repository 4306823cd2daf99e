import Mathlib.Data.List.Basic
import StyleWeave.Path.Normal

/-!
# Components of joined paths

Where the pieces of a path end does not matter for its components, so those are read off its
segments. The components of a joined path are those of its two parts (`components_join`). Hence
joining respects `==` in its first argument, and normal forms are alike for equal paths.
-/

namespace StyleWeave.Path

/-! ## Segments -/

/-- The components of consecutive segments. -/
def componentsOf (first : Bool) : List (List Char) → List Component
  | [] => []
  | segment :: rest => (component? first segment).toList ++ componentsOf false rest

theorem map_component_piecesFrom (first : Bool) (start : Nat) (segs : List (List Char)) :
    (piecesFrom first start segs).map Piece.component = componentsOf first segs := by
  induction segs generalizing first start with
  | nil => rfl
  | cons segment rest ih =>
    unfold piecesFrom componentsOf
    dsimp only
    cases component? first segment with
    | none => simpa using ih false _
    | some c => simpa using ih false _

/-- The components of a path are those of its segments, behind the root if it is absolute. -/
theorem components_eq (p : Path) :
    p.components =
      (if p.isAbsolute then [.root] else []) ++ componentsOf true (segments p.text.toList) := by
  unfold components pieces
  dsimp only
  split <;> simp [map_component_piecesFrom]

theorem segments_ne_nil (cs : List Char) : segments cs ≠ [] := by
  induction cs with
  | nil => simp [segments]
  | cons c cs ih =>
    unfold segments
    split
    · simp
    · split <;> simp

theorem segments_append_slash (a b : List Char) :
    segments (a ++ '/' :: b) = segments a ++ segments b := by
  induction a with
  | nil => rfl
  | cons c a ih =>
    rw [List.cons_append, segments, segments]
    by_cases hc : c = '/'
    · rw [if_pos hc, if_pos hc, ih, List.cons_append]
    · rw [if_neg hc, if_neg hc, ih]
      cases hs : segments a with
      | nil => exact absurd hs (segments_ne_nil a)
      | cons segment rest => rfl

theorem componentsOf_append (first : Bool) {segs : List (List Char)} (h : segs ≠ [])
    (others : List (List Char)) :
    componentsOf first (segs ++ others) = componentsOf first segs ++ componentsOf false others := by
  induction segs generalizing first with
  | nil => exact absurd rfl h
  | cons segment rest ih =>
    rw [List.cons_append, componentsOf, componentsOf, List.append_assoc]
    cases rest with
    | nil => rfl
    | cons next rest => rw [ih false (by simp)]

theorem componentsOf_append_slash (a b : List Char) :
    componentsOf true (segments (a ++ '/' :: b)) =
      componentsOf true (segments a) ++ componentsOf false (segments b) := by
  rw [segments_append_slash, componentsOf_append true (segments_ne_nil a)]

theorem text_eq_empty_of_components {p : Path} (h : p.components = []) : p.text = "" := by
  rw [components_eq, List.append_eq_nil_iff] at h
  obtain ⟨hroot, hsegs⟩ := h
  rw [← String.toList_eq_nil_iff]
  cases ht : p.text.toList with
  | nil => rfl
  | cons c cs =>
    exfalso
    have hc : c ≠ '/' := by
      rintro rfl
      simp [isAbsolute, ht] at hroot
    rw [ht] at hsegs
    unfold segments at hsegs
    rw [if_neg hc] at hsegs
    -- The first segment is not empty, so it stands for a component.
    split at hsegs <;> simp only [componentsOf, component?] at hsegs <;> grind

/-! ## Joining -/

/-- A relative path behind another one keeps its components, but for a `.` in front. -/
theorem components_join {p q : Path} (hp : p.text ≠ "") (hq : q.isAbsolute = false) :
    (p.join q).components = p.components ++ componentsOf false (segments q.text.toList) := by
  have hne : p.text.toList ≠ [] := by rwa [Ne, String.toList_eq_nil_iff]
  unfold join
  rw [if_neg (by simp [hq])]
  by_cases hs : p.text.toList.getLast? = some '/'
  · rw [if_pos (by simp [hs])]
    obtain ⟨a, ha⟩ := List.getLast?_eq_some_iff.1 hs
    have habs : isAbsolute ⟨p.text ++ q.text⟩ = p.isAbsolute := by
      simp only [isAbsolute, String.toList_append]
      rw [List.head?_append_of_ne_nil _ hne]
    rw [components_eq, components_eq p, habs, String.toList_append, ha, List.append_assoc,
      List.append_assoc]
    congr 1
    rw [show ['/'] ++ q.text.toList = '/' :: q.text.toList from rfl, componentsOf_append_slash,
      componentsOf_append_slash]
    simp [segments, componentsOf, component?]
  · rw [if_neg (by simp [hs, hp])]
    have habs : isAbsolute ⟨p.text ++ "/" ++ q.text⟩ = p.isAbsolute := by
      simp only [isAbsolute, String.toList_append, List.append_assoc]
      rw [List.head?_append_of_ne_nil _ hne]
    rw [components_eq, components_eq p, habs, List.append_assoc]
    congr 1
    rw [← componentsOf_append_slash]
    simp [String.toList_append]

theorem join_congr {p p' : Path} (h : p.components = p'.components) (q : Path) :
    (p.join q).components = (p'.join q).components := by
  cases hq : q.isAbsolute with
  | true => simp [join, hq]
  | false =>
    by_cases hp : p.components = []
    · rw [show p = p' from ?_]
      have ht := text_eq_empty_of_components hp
      have ht' := text_eq_empty_of_components (h ▸ hp)
      obtain ⟨text⟩ := p
      obtain ⟨text'⟩ := p'
      exact congrArg Path.mk (ht.trans ht'.symm)
    · have hne : ∀ {r : Path}, r.components ≠ [] → r.text ≠ "" := by
        rintro ⟨_⟩ hr rfl
        exact hr rfl
      rw [components_join (hne hp) hq, components_join (hne (h ▸ hp)) hq, h]

theorem normalize_congr {p p' : Path} (h : p.components = p'.components) :
    p.normalize = p'.normalize := by
  rw [normalize, normalize, h]

/-! ## A dot in front -/

/-- A `.` in front makes no difference to the normal form. -/
theorem normalComponents_componentsOf (segs : List (List Char)) :
    normalComponents (componentsOf true segs) = normalComponents (componentsOf false segs) := by
  cases segs with
  | nil => rfl
  | cons segment rest =>
    unfold componentsOf component?
    by_cases hdot : segment = ['.']
    · subst hdot
      rfl
    · rw [if_neg hdot, if_neg hdot]

/-- A relative path leads to the same place with `./` in front of it. -/
theorem normalize_join_here (p : Path) {q : Path} (hq : q.isAbsolute = false) :
    (p.join ⟨"./" ++ q.text⟩).normalize = (p.join q).normalize := by
  have hsegs : segments ("./" ++ q.text).toList = ['.'] :: segments q.text.toList := by
    rw [String.toList_append]
    rfl
  have hhere : isAbsolute ⟨"./" ++ q.text⟩ = false := by simp [isAbsolute]
  by_cases hp : p.text = ""
  · have hjoin : ∀ {r : Path}, r.isAbsolute = false → p.join r = r := by
      intro r hr
      simp [join, hr, hp]
    have hnormal : normalComponents (componentsOf true (['.'] :: segments q.text.toList)) =
        normalComponents (componentsOf false (segments q.text.toList)) := rfl
    rw [hjoin hhere, hjoin hq, normalize, normalize, components_eq, components_eq, hhere, hq,
      hsegs]
    simp only [Bool.false_eq_true, if_false, List.nil_append]
    rw [hnormal, normalComponents_componentsOf]
  · refine normalize_congr ?_
    rw [components_join hp hhere, components_join hp hq, hsegs]
    rfl

end StyleWeave.Path
