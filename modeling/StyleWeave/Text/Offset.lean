/-!
# Byte offsets in a text

A source text is worked on as a list of characters, while its positions are counted in the bytes
of its UTF-8 form. `bytes` is the measure that links the two, and `slice` cuts a text between two
offsets. `takeBytes_append_dropBytes` says that a cut loses nothing.
-/

namespace StyleWeave.Text

/-- The number of bytes the UTF-8 form of a text takes. -/
def bytes : List Char → Nat
  | [] => 0
  | c :: cs => c.utf8Size + bytes cs

/-- The characters of a text that start before byte `n`. -/
def takeBytes : List Char → Nat → List Char
  | [], _ => []
  | c :: cs, n => if n = 0 then [] else c :: takeBytes cs (n - c.utf8Size)

/-- The characters of a text that start at byte `n` or later. -/
def dropBytes : List Char → Nat → List Char
  | [], _ => []
  | c :: cs, n => if n = 0 then c :: cs else dropBytes cs (n - c.utf8Size)

/-- The part of a text between the byte offsets `start` and `stop`. -/
def slice (cs : List Char) (start stop : Nat) : List Char :=
  takeBytes (dropBytes cs start) (stop - start)

@[simp] theorem bytes_nil : bytes [] = 0 := rfl

@[simp] theorem bytes_cons (c : Char) (cs : List Char) : bytes (c :: cs) = c.utf8Size + bytes cs :=
  rfl

@[simp] theorem bytes_append (as bs : List Char) : bytes (as ++ bs) = bytes as + bytes bs := by
  induction as with
  | nil => simp
  | cons a as ih => simp [ih, Nat.add_assoc]

@[simp] theorem takeBytes_zero (cs : List Char) : takeBytes cs 0 = [] := by
  cases cs <;> simp [takeBytes]

@[simp] theorem dropBytes_zero (cs : List Char) : dropBytes cs 0 = cs := by
  cases cs <;> simp [dropBytes]

theorem takeBytes_append_dropBytes (cs : List Char) (n : Nat) :
    takeBytes cs n ++ dropBytes cs n = cs := by
  induction cs generalizing n with
  | nil => simp [takeBytes, dropBytes]
  | cons c cs ih => by_cases h : n = 0 <;> simp [takeBytes, dropBytes, h, ih]

/-- Cutting at the length of the first part of a text splits it there. -/
theorem dropBytes_bytes_append (as bs : List Char) : dropBytes (as ++ bs) (bytes as) = bs := by
  induction as with
  | nil => simp
  | cons a as ih =>
    have h : a.utf8Size ≠ 0 := Nat.ne_of_gt a.utf8Size_pos
    simp [dropBytes, h, ih]

theorem takeBytes_bytes_append (as bs : List Char) : takeBytes (as ++ bs) (bytes as) = as := by
  induction as with
  | nil => simp
  | cons a as ih =>
    have h : a.utf8Size ≠ 0 := Nat.ne_of_gt a.utf8Size_pos
    simp [takeBytes, h, ih]

end StyleWeave.Text
