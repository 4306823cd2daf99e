import StyleWeave.Proofs.Path.Set

/-!
# The order of paths

Paths are ordered as the lists of their components are, so a set of paths is listed in strictly
increasing order. It contains what was inserted, and what it contained before.
-/

namespace StyleWeave

namespace Path

instance : Std.TransOrd Component :=
  inferInstanceAs (Std.TransCmp (compareLex (compareOn Component.rank) (compareOn Component.text)))

instance : Std.TransOrd Path where
  eq_swap := Std.OrientedOrd.eq_swap (α := List Component)
  isLE_trans := Std.TransOrd.isLE_trans (α := List Component)

end Path

namespace PathSet

/-- The paths increase strictly. -/
abbrev Increasing (paths : List Path) : Prop :=
  paths.Pairwise fun p q => compare p q = .lt

theorem increasing_insertInto (p : Path) {l : List Path} (h : Increasing l) :
    Increasing (insertInto p l) := by
  induction l with
  | nil => exact List.pairwise_singleton _ _
  | cons r l ih =>
    obtain ⟨hfirst, hrest⟩ := List.pairwise_cons.1 h
    unfold insertInto
    cases hp : compare p r with
    | lt =>
      refine List.pairwise_cons.2 ⟨fun q hq => ?_, h⟩
      rcases List.mem_cons.1 hq with rfl | hq
      · exact hp
      · exact Std.TransCmp.lt_trans hp (hfirst q hq)
    | eq => exact h
    | gt =>
      refine List.pairwise_cons.2 ⟨fun q hq => ?_, ih hrest⟩
      rcases mem_of_mem_insertInto hq with rfl | hq
      · exact Std.OrientedCmp.gt_iff_lt.1 hp
      · exact hfirst q hq

theorem contains_insertInto (p q : Path) (l : List Path) :
    (insertInto p l).contains q = (q == p || l.contains q) := by
  rw [Bool.eq_iff_iff, Bool.or_eq_true, List.contains_iff_exists_mem_beq,
    List.contains_iff_exists_mem_beq]
  constructor
  · rintro ⟨r, hr, heq⟩
    rcases mem_of_mem_insertInto hr with rfl | hr
    · exact Or.inl heq
    · exact Or.inr ⟨r, hr, heq⟩
  · rintro (heq | ⟨r, hr, heq⟩)
    · obtain ⟨r, hr, heq'⟩ := exists_mem_insertInto p l
      exact ⟨r, hr, Path.beq_trans heq heq'⟩
    · exact ⟨r, mem_insertInto hr, heq⟩

@[simp] theorem contains_insert (s : PathSet) (p q : Path) :
    (s.insert p).contains q = (q == p || s.contains q) :=
  contains_insertInto p q s.paths

end PathSet

end StyleWeave
