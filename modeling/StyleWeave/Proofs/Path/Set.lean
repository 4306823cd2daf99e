import StyleWeave.Path.Set

/-!
# Members of sets of paths

A set of paths has a path equal to each one that was inserted, and no others.
-/

namespace StyleWeave

namespace Path

theorem Component.compare_eq_iff {a b : Component} : compare a b = .eq ↔ a = b := by
  have hcompare : compare a b = (compare a.rank b.rank).then (compare a.text b.text) := rfl
  rw [hcompare, Ordering.then_eq_eq, Std.LawfulEqOrd.compare_eq_iff_eq,
    Std.LawfulEqOrd.compare_eq_iff_eq]
  constructor
  · rintro ⟨hrank, htext⟩
    cases a <;> cases b <;> simp [Component.rank] at hrank <;> first | rfl | exact congrArg _ htext
  · rintro rfl
    exact ⟨rfl, rfl⟩

instance : Std.LawfulEqOrd Component where
  compare_self := Component.compare_eq_iff.2 rfl
  eq_of_compare := Component.compare_eq_iff.1

theorem beq_of_compare_eq {p q : Path} (h : compare p q = .eq) : p == q :=
  beq_iff.2 (Std.LawfulEqOrd.compare_eq_iff_eq.1 h)

end Path

namespace PathSet

theorem mem_of_mem_insertInto {p q : Path} {l : List Path} (h : q ∈ insertInto p l) :
    q = p ∨ q ∈ l := by
  induction l with
  | nil => simpa [insertInto] using h
  | cons r l ih =>
    unfold insertInto at h
    split at h
    · simpa using h
    · exact Or.inr h
    · rcases List.mem_cons.1 h with rfl | h
      · exact Or.inr List.mem_cons_self
      · exact (ih h).imp_right (List.mem_cons_of_mem _)

theorem exists_mem_insertInto (p : Path) (l : List Path) : ∃ q ∈ insertInto p l, p == q := by
  induction l with
  | nil => exact ⟨p, by simp [insertInto], Path.beq_self p⟩
  | cons r l ih =>
    unfold insertInto
    split
    · exact ⟨p, List.mem_cons_self, Path.beq_self p⟩
    · next heq => exact ⟨r, List.mem_cons_self, Path.beq_of_compare_eq heq⟩
    · obtain ⟨q, hq, heq⟩ := ih
      exact ⟨q, List.mem_cons_of_mem _ hq, heq⟩

end PathSet

end StyleWeave
