import StyleWeave.Config.Datum

/-!
# Reading JSON

A number without fraction and exponent is whole if it fits in 64 bits, unsigned or signed; any
other number is a `float`. The halves of a surrogate pair may be written as two escapes.
-/

namespace StyleWeave.Config.Json

open Reader

/-- The blanks between JSON tokens. -/
def isSpace (c : Char) : Bool :=
  c = ' ' || c = '\n' || c = '\t' || c = '\r'

/-- Read the blanks in front of the next token. -/
def spaces : Reader Unit := do
  let _ ← Reader.takeWhile isSpace

/-- One unit of a string: a character, or a 16-bit unit written as an escape. -/
inductive Unit16 where
  /-- A character written as itself or by a short escape. -/
  | char (c : Char)
  | unit (n : Nat)

/-- The character that a one-letter escape stands for. -/
def shortEscape? : Char → Option Char
  | '"' => some '"'
  | '\\' => some '\\'
  | '/' => some '/'
  | 'b' => some '\x08'
  | 'f' => some '\x0c'
  | 'n' => some '\n'
  | 'r' => some '\r'
  | 't' => some '\t'
  | _ => none

/-- The units of a string, and what follows its closing quote. -/
def units : List Char → Option (List Unit16 × List Char)
  | [] => none
  | '"' :: rest => some ([], rest)
  | '\\' :: 'u' :: a :: b :: c :: d :: rest =>
    if [a, b, c, d].all isHexDigit then
      (units rest).map fun (us, tail) => (.unit (ofDigits 16 [a, b, c, d]) :: us, tail)
    else none
  | '\\' :: e :: rest => do
    let c ← shortEscape? e
    let (us, tail) ← units rest
    return (.char c :: us, tail)
  | c :: rest =>
    if c.toNat < 0x20 then none
    else (units rest).map fun (us, tail) => (.char c :: us, tail)

/-- The text that units stand for, if no half of a surrogate pair stands alone. -/
def textOf : List Unit16 → Option (List Char)
  | [] => some []
  | .char c :: us => (textOf us).map (c :: ·)
  | .unit h :: .unit l :: us =>
    if 0xd800 ≤ h && h < 0xdc00 then
      if 0xdc00 ≤ l && l < 0xe000 then
        (textOf us).map (Char.ofNat (0x10000 + (h - 0xd800) * 0x400 + (l - 0xdc00)) :: ·)
      else none
    else if 0xdc00 ≤ h && h < 0xe000 then none
    else (textOf (.unit l :: us)).map (Char.ofNat h :: ·)
  | .unit n :: us =>
    if 0xd800 ≤ n && n < 0xe000 then none
    else (textOf us).map (Char.ofNat n :: ·)

/-- Read a string behind its opening quote. -/
def stringBody : Reader (Option String) := do
  match units (← get) with
  | none => failure
  | some (us, rest) =>
    set rest
    return (textOf us).map String.ofList

/-- Read one or more digits. -/
def digits : Reader (List Char) := do
  match ← Reader.takeWhile Char.isDigit with
  | [] => failure
  | ds => return ds

/-- Read a number. -/
def number : Reader Datum := do
  let negative := (← optional (token "-")).isSome
  let ds ← digits
  if ds.length > 1 && ds.head? = some '0' then failure
  let fraction ← optional (token ".")
  if fraction.isSome then
    let _ ← digits
  let exponent ← optional (satisfy fun c => c = 'e' || c = 'E')
  if exponent.isSome then
    let _ ← optional (satisfy fun c => c = '+' || c = '-')
    let _ ← digits
  if fraction.isSome || exponent.isSome then return .float
  let n := ofDigits 10 ds
  if negative then
    return if 0 < n && n ≤ Nat.pow 2 63 then .int (-n) else .float
  else
    return if n < Nat.pow 2 64 then .int n else .float

mutual

/-- Read a value, with at most `n` nested steps. -/
def value : Nat → Reader Datum
  | 0 => failure
  | n + 1 => do
    spaces
    match ← peek? with
    | some 'n' => do token "null"; return .null
    | some 't' => do token "true"; return .bool true
    | some 'f' => do token "false"; return .bool false
    | some '"' => do
      token "\""
      return ((← stringBody).map Datum.text).getD .broken
    | some '[' => do
      token "["
      spaces
      if (← optional (token "]")).isSome then return .list []
      return .list (← items n)
    | some '\x7b' => do
      token "\x7b"
      spaces
      if (← optional (token "\x7d")).isSome then return .map []
      return ((← entries n).map Datum.map).getD .broken
    | _ => number

/-- Read the items of a list up to its closing bracket. -/
def items : Nat → Reader (List Datum)
  | 0 => failure
  | n + 1 => do
    let item ← value n
    spaces
    if (← optional (token ",")).isSome then
      return item :: (← items n)
    token "]"
    return [item]

/-- Read the entries of a map up to its closing brace. There are none if a name stands for no
text. -/
def entries : Nat → Reader (Option (List (String × Datum)))
  | 0 => failure
  | n + 1 => do
    spaces
    token "\""
    let key ← stringBody
    spaces
    token ":"
    let item ← value n
    spaces
    let entry := key.map fun name => (name, item)
    if (← optional (token ",")).isSome then
      let rest ← entries n
      return List.cons <$> entry <*> rest
    token "\x7d"
    return entry.map ([·])

end

/-- What a JSON text says. Each nested step reads a character, so the length of the text bounds
their number. -/
def read? (s : String) : Option Datum :=
  readAll (do let d ← value (2 * s.length + 2); spaces; return d) s

end StyleWeave.Config.Json
