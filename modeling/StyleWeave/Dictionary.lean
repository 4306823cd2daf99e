/-!
# Dictionaries

A dictionary maps texts to values and is listed in the order of its keys, each of which it holds
once.
-/

namespace StyleWeave

namespace Dictionary

variable {α : Type}

/-- The keys of the entries increase strictly, so none comes twice. -/
def Increasing (entries : List (String × α)) : Prop :=
  entries.Pairwise fun e e' => compare e.1 e'.1 = .lt

/-- Put an entry into an ordered list, in place of one with the same key. -/
def insertInto (key : String) (value : α) : List (String × α) → List (String × α)
  | [] => [(key, value)]
  | (k, v) :: rest =>
    match compare key k with
    | .lt => (key, value) :: (k, v) :: rest
    | .eq => (key, value) :: rest
    | .gt => (k, v) :: insertInto key value rest

theorem mem_of_mem_insertInto {key : String} {value : α} {entries : List (String × α)}
    {e : String × α} (h : e ∈ insertInto key value entries) : e = (key, value) ∨ e ∈ entries := by
  induction entries with
  | nil => exact Or.inl (List.mem_singleton.1 h)
  | cons first rest ih =>
    unfold insertInto at h
    split at h
    · exact List.mem_cons.1 h
    · exact (List.mem_cons.1 h).imp_right (List.mem_cons_of_mem _)
    · rcases List.mem_cons.1 h with rfl | h
      · exact Or.inr List.mem_cons_self
      · exact (ih h).imp_right (List.mem_cons_of_mem _)

theorem Increasing.insertInto {entries : List (String × α)} (h : Increasing entries) (key : String)
    (value : α) : Increasing (insertInto key value entries) := by
  induction entries with
  | nil => exact List.pairwise_singleton _ _
  | cons first rest ih =>
    obtain ⟨hfirst, hrest⟩ := List.pairwise_cons.1 h
    unfold Dictionary.insertInto
    cases hkey : compare key first.1 with
    | lt =>
      refine List.pairwise_cons.2 ⟨fun e he => ?_, h⟩
      rcases List.mem_cons.1 he with rfl | he
      · exact hkey
      · exact Std.TransCmp.lt_trans hkey (hfirst e he)
    | eq =>
      obtain rfl : key = first.1 := Std.LawfulEqCmp.eq_of_compare hkey
      exact List.pairwise_cons.2 ⟨hfirst, hrest⟩
    | gt =>
      refine List.pairwise_cons.2 ⟨fun e he => ?_, ih hrest⟩
      rcases mem_of_mem_insertInto he with rfl | he
      · exact Std.OrientedCmp.gt_iff_lt.1 hkey
      · exact hfirst e he

end Dictionary

/-- A map from texts to values, listed by increasing key. -/
structure Dictionary (α : Type) where
  entries : List (String × α)
  increasing : Dictionary.Increasing entries
  deriving Repr

namespace Dictionary

variable {α : Type}

/-- The dictionary without entries. -/
def empty : Dictionary α := ⟨[], .nil⟩

instance : Inhabited (Dictionary α) := ⟨empty⟩

/-- The dictionary with `key` mapped to `value`. -/
def insert (d : Dictionary α) (key : String) (value : α) : Dictionary α :=
  ⟨insertInto key value d.entries, d.increasing.insertInto key value⟩

/-- The dictionary of some entries; of two with one key the later counts. -/
def ofList (entries : List (String × α)) : Dictionary α :=
  entries.foldl (fun d e => d.insert e.1 e.2) empty

/-- The value of a key. -/
def find? (d : Dictionary α) (key : String) : Option α :=
  d.entries.lookup key

/-- The dictionary has a value for `key`. -/
def contains (d : Dictionary α) (key : String) : Bool :=
  (d.find? key).isSome

/-- The keys in order. -/
def keys (d : Dictionary α) : List String :=
  d.entries.map Prod.fst

end Dictionary

/-- Texts bound to names, as the expressions of imports may use them. -/
abbrev Table := Dictionary String

end StyleWeave
