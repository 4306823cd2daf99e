import StyleWeave.Text.Offset

/-!
# Lines of a text

A text is divided after each line feed. A line's text and byte range leave out its line feed and
one carriage return before it.
-/

namespace StyleWeave.Text

/-- One line of a text. -/
structure Line where
  /-- The 0-based number of the line. -/
  number : Nat
  /-- The byte offset of its first character. -/
  start : Nat
  /-- The byte offset behind its last character, the line break left out. -/
  stop : Nat
  text : List Char
  deriving Repr

/-- A text cut after each of its line feeds. -/
def chunks : List Char → List (List Char)
  | [] => []
  | c :: cs =>
    if c = '\n' then [c] :: chunks cs
    else
      match chunks cs with
      | [] => [[c]]
      | chunk :: rest => (c :: chunk) :: rest

/-- `cs` without one character `c` at its end. -/
def dropLastIf (c : Char) (cs : List Char) : List Char :=
  if cs.getLast? = some c then cs.dropLast else cs

/-- A chunk without its line break. -/
def lineBody (chunk : List Char) : List Char :=
  dropLastIf '\r' (dropLastIf '\n' chunk)

/-- The lines made of consecutive chunks, from line `number` at byte `start` on. -/
def linesFrom (number start : Nat) : List (List Char) → List Line
  | [] => []
  | chunk :: rest =>
    let body := lineBody chunk
    ⟨number, start, start + bytes body, body⟩ :: linesFrom (number + 1) (start + bytes chunk) rest

/-- The lines of a text. -/
def lines (cs : List Char) : List Line :=
  linesFrom 0 0 (chunks cs)

/-- Cutting a text into chunks loses nothing. -/
theorem flatten_chunks (cs : List Char) : (chunks cs).flatten = cs := by
  induction cs with
  | nil => rfl
  | cons c cs ih =>
    by_cases h : c = '\n'
    · simp [chunks, h, ih]
    · cases hc : chunks cs with
      | nil => simp [chunks, h, hc]; simpa [hc] using ih
      | cons chunk rest => simp [chunks, h, hc]; simpa [hc] using ih

end StyleWeave.Text
