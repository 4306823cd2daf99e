import StyleWeave.Text.Offset

/-!
# Cuts between characters

A byte offset lies between two characters, or inside one. Cuts at offsets between characters lose
and repeat nothing: consecutive slices make up the slice over both (`slice_append_slice`).
-/

namespace StyleWeave.Text

variable {cs : List Char} {k m n : Nat}

/-- The offset lies in front of a character or at the end of the text. -/
def Boundary (cs : List Char) (n : Nat) : Prop :=
  ∃ before behind, cs = before ++ behind ∧ bytes before = n

theorem boundary_zero (cs : List Char) : Boundary cs 0 :=
  ⟨[], cs, rfl, rfl⟩

theorem Boundary.le (h : Boundary cs n) : n ≤ bytes cs := by
  obtain ⟨before, behind, rfl, rfl⟩ := h
  rw [bytes_append]
  omega

theorem bytes_spaces (n : Nat) : bytes (List.replicate n ' ') = n := by
  induction n with
  | zero => rfl
  | succ n ih =>
    have hspace : Char.utf8Size ' ' = 1 := by decide
    rw [List.replicate_succ, bytes_cons, ih, hspace]
    omega

theorem eq_nil_of_bytes (h : bytes cs = 0) : cs = [] := by
  cases cs with
  | nil => rfl
  | cons c cs =>
    have hpos := c.utf8Size_pos
    rw [bytes_cons] at h
    omega

/-- Two boundaries cut a text into three parts. -/
theorem Boundary.split (hm : Boundary cs m) (hn : Boundary cs n) (h : m ≤ n) :
    ∃ a b c, cs = a ++ (b ++ c) ∧ bytes a = m ∧ bytes a + bytes b = n := by
  obtain ⟨a, rest, rfl, rfl⟩ := hm
  obtain ⟨front, c, heq, rfl⟩ := hn
  rcases List.append_eq_append_iff.1 heq with ⟨b, rfl, rfl⟩ | ⟨b, rfl, rfl⟩
  · exact ⟨a, b, c, rfl, rfl, by rw [bytes_append]⟩
  · -- The second cut lies in front of the first, so both are the same.
    have hb : b = [] := by
      apply eq_nil_of_bytes
      rw [bytes_append] at h
      omega
    subst hb
    exact ⟨front, [], rest, by simp, by simp, by simp⟩

theorem slice_of_append (a b c : List Char) :
    slice (a ++ (b ++ c)) (bytes a) (bytes a + bytes b) = b := by
  have hlength : bytes a + bytes b - bytes a = bytes b := by omega
  rw [slice, dropBytes_bytes_append, hlength, takeBytes_bytes_append]

@[simp] theorem slice_self (cs : List Char) (n : Nat) : slice cs n n = [] := by
  rw [slice, Nat.sub_self, takeBytes_zero]

theorem bytes_slice (hm : Boundary cs m) (hn : Boundary cs n) (h : m ≤ n) :
    m + bytes (slice cs m n) = n := by
  obtain ⟨a, b, c, rfl, rfl, rfl⟩ := hm.split hn h
  rw [slice_of_append]

/-- The text behind a cut is what stands up to the next cut, and the text behind that. -/
theorem slice_append_dropBytes (hm : Boundary cs m) (hn : Boundary cs n) (h : m ≤ n) :
    slice cs m n ++ dropBytes cs n = dropBytes cs m := by
  obtain ⟨a, b, c, rfl, rfl, rfl⟩ := hm.split hn h
  have hbehind : dropBytes (a ++ (b ++ c)) (bytes a + bytes b) = c := by
    rw [← bytes_append, ← List.append_assoc, dropBytes_bytes_append]
  rw [slice_of_append, hbehind, dropBytes_bytes_append]

theorem slice_append_slice (hk : Boundary cs k) (hm : Boundary cs m) (hn : Boundary cs n)
    (hkm : k ≤ m) (hmn : m ≤ n) : slice cs k m ++ slice cs m n = slice cs k n := by
  have hfront := slice_append_dropBytes hk hm hkm
  have hback := slice_append_dropBytes hm hn hmn
  have hwhole := slice_append_dropBytes hk hn (Nat.le_trans hkm hmn)
  rw [← hback, ← List.append_assoc, ← hwhole] at hfront
  exact List.append_cancel_right hfront

/-- What starts at a cut stands in each slice that reaches over it. -/
theorem mem_slice_of_head? (hk : Boundary cs k) (hm : Boundary cs m) (hn : Boundary cs n)
    (hkm : k ≤ m) (hmn : m < n) {c : Char} (hc : (dropBytes cs m).head? = some c) :
    c ∈ slice cs k n := by
  have hle : m ≤ n := Nat.le_of_lt hmn
  have hback := slice_append_dropBytes hm hn hle
  rw [← slice_append_slice hk hm hn hkm hle, List.mem_append]
  right
  cases hslice : slice cs m n with
  | nil =>
    have hbytes := bytes_slice hm hn hle
    rw [hslice, bytes_nil] at hbytes
    omega
  | cons d rest =>
    rw [← hback, hslice, List.cons_append, List.head?_cons] at hc
    rw [Option.some.inj hc]
    exact List.mem_cons_self

/-- A slice between two cuts inside another one is a part of that. -/
theorem slice_infix {j : Nat} (hj : Boundary cs j) (hk : Boundary cs k) (hm : Boundary cs m)
    (hn : Boundary cs n) (hjk : j ≤ k) (hkm : k ≤ m) (hmn : m ≤ n) :
    slice cs k m <:+: slice cs j n := by
  have hback := slice_append_slice hj hm hn (Nat.le_trans hjk hkm) hmn
  have hfront := slice_append_slice hj hk hm hjk hkm
  exact ⟨slice cs j k, slice cs m n, by rw [hfront, hback]⟩

end StyleWeave.Text
