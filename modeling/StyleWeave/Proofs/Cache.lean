import StyleWeave.Cache

/-!
# What a cache answers

References are looked up by `==`, which tells equal paths apart by their components only. So a
cache answers alike for all spellings of a reference, and storing a reference changes the answer
for its own spellings and no others.
-/

namespace StyleWeave

instance : EquivBEq Path where
  rfl := Path.beq_self _
  symm h := by rw [Path.beq_comm]; exact h
  trans := Path.beq_trans

instance : EquivBEq Reference where
  rfl := Reference.beq_self _
  symm h := by rw [Reference.beq_comm]; exact h
  trans := Reference.beq_trans

theorem lookup_congr {α β : Type} [BEq α] [PartialEquivBEq α] {a b : α} (h : a == b)
    (entries : List (α × β)) : entries.lookup a = entries.lookup b := by
  induction entries with
  | nil => rfl
  | cons e entries ih =>
    obtain ⟨k, v⟩ := e
    rw [List.lookup_cons, List.lookup_cons, ih, BEq.congr_left h]

namespace Cache

variable {c : Cache} {key k : Reference} {target p : Path}

theorem find?_congr (c : Cache) {a b : Reference} (h : a == b) : c.find? a = c.find? b :=
  lookup_congr h c.entries

theorem contains_congr (c : Cache) {a b : Reference} (h : a == b) :
    c.contains a = c.contains b := by
  rw [contains, contains, c.find?_congr h]

theorem contains_iff : c.contains key = true ↔ ∃ p, c.find? key = some p :=
  Option.isSome_iff_exists

theorem contains_eq_false : c.contains key = false ↔ c.find? key = none := by
  simp [contains]

/-- Storing a reference leaves the answers for all others. -/
theorem find?_store_of_ne (h : (k == key) = false) : (c.store key target).find? k = c.find? k := by
  show (storeInto key target c.entries).lookup k = c.entries.lookup k
  induction c.entries with
  | nil => simp [storeInto, List.lookup_cons, h]
  | cons e entries ih =>
    obtain ⟨k', p'⟩ := e
    unfold storeInto
    by_cases hk : key == k'
    · have hkk : (k == k') = false := by rw [← BEq.congr_right hk]; exact h
      rw [if_pos hk]
      split <;> simp [List.lookup_cons, hkk]
    · rw [if_neg hk, List.lookup_cons, List.lookup_cons, ih]

/-- A reference that was stored leads to the path stored with it, or to an equal one that was there
before. -/
theorem find?_store_of_beq (c : Cache) (target : Path) (h : k == key) :
    (c.store key target).find? k = some target ∨
      ∃ p, c.find? k = some p ∧ p == target ∧ (c.store key target).find? k = some p := by
  show (storeInto key target c.entries).lookup k = _ ∨ ∃ p, c.entries.lookup k = some p ∧ _ ∧
    (storeInto key target c.entries).lookup k = some p
  induction c.entries with
  | nil => left; simp [storeInto, List.lookup_cons, h]
  | cons e entries ih =>
    obtain ⟨k', p'⟩ := e
    unfold storeInto
    by_cases hk : key == k'
    · have hkk : (k == k') = true := BEq.trans h hk
      rw [if_pos hk]
      by_cases hp : p' == target
      · right
        exact ⟨p', by simp [List.lookup_cons, hkk], hp, by simp [List.lookup_cons, hkk, hp]⟩
      · left
        simp [List.lookup_cons, hkk, hp]
    · have hkk : (k == k') = false := by
        rw [BEq.congr_left h]; simpa using hk
      rw [if_neg hk]
      simp only [List.lookup_cons, hkk]
      exact ih

/-- Storing a path equal to the one that the reference leads to changes nothing. -/
theorem store_of_find? (h : c.find? key = some p) (hp : p == target) : c.store key target = c := by
  have hentries : ∀ entries : List (Reference × Path), entries.lookup key = some p →
      storeInto key target entries = entries := by
    intro entries h
    induction entries with
    | nil => simp at h
    | cons e entries ih =>
      obtain ⟨k', p'⟩ := e
      rw [List.lookup_cons] at h
      unfold storeInto
      by_cases hk : key == k'
      · rw [hk] at h
        obtain rfl : p' = p := Option.some.inj h
        rw [if_pos hk, if_pos hp]
      · rw [Bool.eq_false_iff.2 hk] at h
        rw [if_neg hk, ih h]
  rw [store, hentries c.entries h]

@[simp] theorem contains_store : (c.store key target).contains k = (k == key || c.contains k) := by
  by_cases h : k == key
  · rcases find?_store_of_beq c target h with hs | ⟨p, -, -, hs⟩ <;>
      simp [contains, hs, h]
  · have h' : (k == key) = false := by simpa using h
    simp [contains, find?_store_of_ne h', h']

/-- What holds of all entries of a cache and of the new one holds of all entries behind a
`store`. -/
theorem forall_find?_store {P : Reference → Path → Prop}
    (h : ∀ k p, c.find? k = some p → P k p) (hnew : ∀ k, k == key → P k target) :
    ∀ k p, (c.store key target).find? k = some p → P k p := by
  intro k p hp
  by_cases hk : k == key
  · rcases find?_store_of_beq c target hk with hs | ⟨q, hq, -, hs⟩
    · rw [hs] at hp
      obtain rfl : target = p := Option.some.inj hp
      exact hnew k hk
    · rw [hs] at hp
      obtain rfl : q = p := Option.some.inj hp
      exact h k q hq
  · have hk' : (k == key) = false := by simpa using hk
    rw [find?_store_of_ne hk'] at hp
    exact h k p hp

/-- `Accretes c c'`: a number of stores have made `c'` of `c`, and none of them has led a reference
away from the path that it led to. -/
inductive Accretes (c : Cache) : Cache → Prop where
  | refl : Accretes c c
  | store {c' : Cache} {key : Reference} {target : Path} (before : Accretes c c')
      (agrees : ∀ p, c'.find? key = some p → p == target) : Accretes c (c'.store key target)

/-- What is found in a cache is found there for good, and spelled in the same way. -/
theorem Accretes.find? {c' : Cache} (h : c.Accretes c') (hp : c.find? k = some p) :
    c'.find? k = some p := by
  induction h with
  | refl => exact hp
  | @store c₁ key target _ agrees ih =>
    by_cases hk : k == key
    · have hfound : c₁.find? key = some p := (c₁.find?_congr hk).symm.trans ih
      rw [store_of_find? hfound (agrees p hfound), ih]
    · rw [find?_store_of_ne (Bool.eq_false_iff.2 hk), ih]

end Cache

end StyleWeave
