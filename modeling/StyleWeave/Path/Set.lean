import StyleWeave.Path.Basic

/-!
# Sets of paths

A set is listed in the order of paths and holds no two equal ones. Of equal spellings the one
inserted first stays.
-/

namespace StyleWeave

/-- A set of paths, listed in order. -/
structure PathSet where
  /-- The members, in increasing order. -/
  paths : List Path
  deriving Repr, Inhabited

namespace PathSet

/-- The set without members. -/
def empty : PathSet := ⟨[]⟩

/-- Insert a path into an ordered list unless an equal one is there. -/
def insertInto (p : Path) : List Path → List Path
  | [] => [p]
  | q :: qs =>
    match compare p q with
    | .lt => p :: q :: qs
    | .eq => q :: qs
    | .gt => q :: insertInto p qs

/-- The set with `p` as a member. -/
def insert (s : PathSet) (p : Path) : PathSet :=
  ⟨insertInto p s.paths⟩

/-- The set with all of `ps` as members. -/
def insertAll (s : PathSet) (ps : List Path) : PathSet :=
  ps.foldl insert s

/-- A path equal to `p` is a member. -/
def contains (s : PathSet) (p : Path) : Bool :=
  s.paths.contains p

/-- The number of members. -/
def size (s : PathSet) : Nat :=
  s.paths.length

theorem mem_insertInto {p q : Path} {l : List Path} (h : q ∈ l) : q ∈ insertInto p l := by
  induction l with
  | nil => simp at h
  | cons r l ih =>
    unfold insertInto
    split
    · exact List.mem_cons_of_mem _ h
    · exact h
    · rcases List.mem_cons.1 h with rfl | h
      · exact List.mem_cons_self
      · exact List.mem_cons_of_mem _ (ih h)

end PathSet

end StyleWeave
