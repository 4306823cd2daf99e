import StyleWeave.Config.Datum

/-!
# Scalars of TOML

Texts in their four spellings, and numbers.
-/

namespace StyleWeave.Config.Toml

open Reader

/-- A space or a tab. -/
def isSpace (c : Char) : Bool :=
  c = ' ' || c = '\t'

/-- A character that may stand in a comment, and unescaped in a text but for quotes and
backslashes: a tab, a printable ASCII character, or one beyond ASCII. -/
def isPlain (c : Char) : Bool :=
  c = '\t' || (0x20 ≤ c.toNat && c.toNat ≤ 0x7e) || 0x80 ≤ c.toNat

/-- Read the spaces and tabs in front of the next token. -/
def spaces : Reader Unit := do
  let _ ← Reader.takeWhile isSpace

/-- Read a line break. -/
def newline : Reader Unit := do
  let _ ← optional (token "\r")
  token "\n"

/-! ## Texts -/

/-- The character a number stands for, if it stands for one. -/
def charOf? (n : Nat) : Option Char :=
  if n < 0xd800 || (0xe000 ≤ n && n < 0x110000) then some (Char.ofNat n) else none

/-- Read exactly `n` hexadecimal digits that stand for a character. -/
def numberedChar (n : Nat) : Reader Char := do
  let cs ← get
  let ds := cs.take n
  if ds.length = n && ds.all isHexDigit then
    match charOf? (ofDigits 16 ds) with
    | some c => do set (cs.drop n); return c
    | none => failure
  else failure

/-- Read an escape behind its backslash. -/
def escape : Reader Char := do
  match ← satisfy fun _ => true with
  | 'b' => return '\x08'
  | 't' => return '\t'
  | 'n' => return '\n'
  | 'f' => return '\x0c'
  | 'r' => return '\r'
  | '"' => return '"'
  | '\\' => return '\\'
  | 'u' => numberedChar 4
  | 'U' => numberedChar 8
  | _ => failure

/-- Read a text on one line, in which a backslash escapes, up to its closing quote. -/
def basicBody : Nat → Reader (List Char)
  | 0 => failure
  | n + 1 => do
    match ← satisfy fun _ => true with
    | '"' => return []
    | '\\' => do
      let c ← escape
      return c :: (← basicBody n)
    | c => if isPlain c then return c :: (← basicBody n) else failure

/-- Read a text on one line, in which nothing escapes, up to its closing quote. -/
def literalBody : Reader (List Char) := do
  let body ← Reader.takeWhile fun c => isPlain c && c != '\''
  token "'"
  return body

/-- Read the blanks and line breaks behind a backslash at the end of a line. -/
def lineJoin : Reader Unit := do
  spaces
  newline
  let cs ← get
  -- A carriage return counts only in front of a line feed.
  let rec skip : List Char → List Char
    | '\r' :: '\n' :: rest => skip rest
    | c :: rest => if isSpace c || c = '\n' then skip rest else c :: rest
    | [] => []
  set (skip cs)

/-- Read the quotes that end a text of several lines: three of them, and up to two more in front,
which belong to the text. -/
def closing (quote : Char) : Reader (List Char) := do
  let run ← Reader.takeWhile (· = quote)
  if run.length < 3 then failure
  -- A sixth quote stands behind the text.
  let own := min (run.length - 3) 2
  set (List.replicate (run.length - 3 - own) quote ++ (← get))
  return List.replicate own quote

/-- Read a text of several lines up to its closing quotes. With `escapes` a backslash escapes. -/
def multilineBody (quote : Char) (escapes : Bool) : Nat → Reader (List Char)
  | 0 => failure
  | n + 1 => do
    match ← get with
    | [] => failure
    | '\\' :: rest =>
      if escapes then
        set rest
        if (← optional lineJoin).isSome then
          multilineBody quote escapes n
        else
          let c ← escape
          return c :: (← multilineBody quote escapes n)
      else
        set rest
        return '\\' :: (← multilineBody quote escapes n)
    | c :: rest =>
      if c = quote then
        if rest.take 2 = [quote, quote] then closing quote
        else do
          set rest
          return c :: (← multilineBody quote escapes n)
      else if c = '\n' || c = '\r' then
        newline
        return '\n' :: (← multilineBody quote escapes n)
      else if isPlain c then
        set rest
        return c :: (← multilineBody quote escapes n)
      else failure

/-- Read a text in any of the four spellings. -/
def quotedText (n : Nat) : Reader String := do
  if (← optional (token "\"\"\"")).isSome then
    let _ ← optional newline
    return String.ofList (← multilineBody '"' true n)
  else if (← optional (token "\"")).isSome then
    return String.ofList (← basicBody n)
  else if (← optional (token "'''")).isSome then
    let _ ← optional newline
    return String.ofList (← multilineBody '\'' false n)
  else
    token "'"
    return String.ofList (← literalBody)

/-! ## Numbers -/

/-- Digits with at most one underscore in front of each. -/
def separated (p : Char → Bool) : List Char → Bool
  | [] => true
  | '_' :: c :: rest => p c && separated p rest
  | c :: rest => p c && separated p rest

/-- Read digits that satisfy `p`, with single underscores between them. -/
def digitRun (p : Char → Bool) : Reader (List Char) := do
  let run ← Reader.takeWhile fun c => p c || c = '_'
  if run.head?.any p && separated p run then return run.filter p else failure

/-- Read a sign. -/
def sign : Reader (Option Char) :=
  optional (satisfy fun c => c = '+' || c = '-')

/-- Read a decimal number without sign, which starts with a zero only if it is zero. -/
def decimal : Reader (List Char) := do
  match ← peek? with
  | some '0' => do token "0"; return ['0']
  | _ => digitRun Char.isDigit

/-- Read a whole number, which fits in 64 bits with sign. -/
def integer : Reader Datum := do
  let radix ← optional (do
    token "0"
    match ← satisfy fun _ => true with
    | 'x' => return (16, isHexDigit)
    | 'o' => return (8, fun c => '0' ≤ c && c ≤ '7')
    | 'b' => return (2, fun c => c = '0' || c = '1')
    | _ => failure)
  match radix with
  | some (base, isDigit) => do
    let n := ofDigits base (← digitRun isDigit)
    if n < Nat.pow 2 63 then return .int n else failure
  | none => do
    let s ← sign
    let n := ofDigits 10 (← decimal)
    if s = some '-' then
      if n ≤ Nat.pow 2 63 then return .int (-n) else failure
    else if n < Nat.pow 2 63 then return .int n
    else failure

/-- The least number that is infinite as a binary floating-point number of 64 bits. -/
def overflow : Nat := Nat.pow 2 1024 - Nat.pow 2 970

/-- The number `mantissa · 10 ^ exponent` is at least `overflow`. The length of the mantissa settles
all but the close cases. -/
def overflows (mantissa : Nat) (exponent : Int) : Bool :=
  let size := ((Nat.toDigits 10 mantissa).length : Int) + exponent
  if mantissa = 0 || size < 300 then false
  else if size > 320 then true
  else if 0 ≤ exponent then overflow ≤ mantissa * Nat.pow 10 exponent.toNat
  else overflow * Nat.pow 10 (-exponent).toNat ≤ mantissa

/-- Read a number with a fraction or an exponent, an infinity, or a number that is none. -/
def float : Reader Datum := do
  let s ← sign
  if (← optional (token "inf")).isSome then return .float
  if (← optional (token "nan")).isSome then return .float
  let whole ← decimal
  let fraction ← optional (do token "."; digitRun Char.isDigit)
  let exponent ← optional (do
    let _ ← satisfy fun c => c = 'e' || c = 'E'
    let s ← sign
    let ds ← digitRun Char.isDigit
    return (if s = some '-' then -1 else 1) * (ofDigits 10 ds : Int))
  if fraction.isNone && exponent.isNone then failure
  let tail := fraction.getD []
  let power := exponent.getD 0 - tail.length
  if s != some '-' && overflows (ofDigits 10 (whole ++ tail)) power then failure
  return .float

end StyleWeave.Config.Toml
