import StyleWeave.Reference

/-!
# Resolved references

A cache holds where references were resolved to. It lives as long as its compile job, and nothing
is ever removed from it.
-/

namespace StyleWeave

/-- References with the paths they were resolved to, each reference once. -/
structure Cache where
  /-- The entries in the order in which their references were first stored. -/
  entries : List (Reference × Path) := []
  deriving Repr, Inhabited

namespace Cache

/-- Where a reference was resolved to. -/
def find? (cache : Cache) (key : Reference) : Option Path :=
  cache.entries.lookup key

/-- The reference was resolved. -/
def contains (cache : Cache) (key : Reference) : Bool :=
  (cache.find? key).isSome

/-- Change the entry of a reference to `target`, or add one. An entry that leads to an equal path
stays as it is. -/
def storeInto (key : Reference) (target : Path) : List (Reference × Path) → List (Reference × Path)
  | [] => [(key, target)]
  | (k, p) :: rest =>
    if key == k then (if p == target then (k, p) else (k, target)) :: rest
    else (k, p) :: storeInto key target rest

/-- The cache in which the reference leads to `target`. -/
def store (cache : Cache) (key : Reference) (target : Path) : Cache :=
  ⟨storeInto key target cache.entries⟩

/-- The number of references resolved. -/
def size (cache : Cache) : Nat :=
  cache.entries.length

end Cache

end StyleWeave
