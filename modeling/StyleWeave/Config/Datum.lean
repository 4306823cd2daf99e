/-!
# Configuration data

What a configuration text says, whatever format it is written in.
-/

namespace StyleWeave.Config

/-- A configuration value. -/
inductive Datum where
  | null
  | bool (value : Bool)
  /-- A whole number in the range of its format. -/
  | int (value : Int)
  /-- Any other number. No option is one, so the value is not kept. -/
  | float
  | text (value : String)
  /-- A date or time, by the text of its canonical form. -/
  | moment (value : String)
  /-- A text, or a map with a name, that is written with half of a surrogate pair and so stands for
  nothing. -/
  | broken
  | list (items : List Datum)
  /-- Values by name, in the order written; a name may be written twice. -/
  | map (entries : List (String × Datum))
  deriving Repr, Inhabited

namespace Datum

/-- The value is a map. -/
def isMap : Datum → Bool
  | map _ => true
  | _ => false

end Datum

/-- A step of reading a text: what was read and what follows it, or nothing if the text does not
fit. -/
abbrev Reader (α : Type) := StateT (List Char) Option α

namespace Reader

/-- The next character, which stays unread. -/
def peek? : Reader (Option Char) := do
  return (← get).head?

/-- Read one character that satisfies `p`. -/
def satisfy (p : Char → Bool) : Reader Char := do
  match ← get with
  | c :: rest => if p c then do set rest; return c else failure
  | [] => failure

/-- Read the longest run of characters that satisfy `p`. -/
def takeWhile (p : Char → Bool) : Reader (List Char) := do
  let cs ← get
  set (cs.dropWhile p)
  return cs.takeWhile p

/-- Read exactly the text `s`. -/
def token (s : String) : Reader Unit := do
  match s.toList.isPrefixOf? (← get) with
  | some rest => set rest
  | none => failure

/-- Nothing is left to read. -/
def finish : Reader Unit := do
  if (← get).isEmpty then return () else failure

/-- What `r` reads from the whole of a text. -/
def readAll {α : Type} (r : Reader α) (s : String) : Option α :=
  ((do let a ← r; finish; return a : Reader α).run s.toList).map Prod.fst

end Reader

/-- The value of a digit in bases up to 16. -/
def digitValue (c : Char) : Nat :=
  if c.isDigit then c.toNat - '0'.toNat
  else if 'a' ≤ c && c ≤ 'f' then c.toNat - 'a'.toNat + 10
  else c.toNat - 'A'.toNat + 10

/-- A digit of base 16, in either case. -/
def isHexDigit (c : Char) : Bool :=
  c.isDigit || ('a' ≤ c && c ≤ 'f') || ('A' ≤ c && c ≤ 'F')

/-- The number that digits of a base stand for. -/
def ofDigits (base : Nat) (ds : List Char) : Nat :=
  ds.foldl (fun n d => n * base + digitValue d) 0

end StyleWeave.Config
