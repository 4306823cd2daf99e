import StyleWeave.Config.Toml.Moment
import StyleWeave.Config.Toml.Scalar
import StyleWeave.Config.Toml.Table

/-!
# TOML documents

A document is read line by line: a key with its value, the header of a table, a comment, or
nothing. Arrays may run over several lines and inline tables may not. Tables that stand for moments
count once the whole document is read.
-/

namespace StyleWeave.Config.Toml

open Reader

/-- Read a comment. -/
def comment : Reader Unit := do
  token "#"
  let _ ← Reader.takeWhile isPlain

/-- Read the end of a line or of the document. -/
def lineEnd : Reader Unit := do
  match ← peek? with
  | none => return ()
  | some _ => newline

/-- Read what may follow on a line that says something already. -/
def trailing : Reader Unit := do
  spaces
  let _ ← optional comment
  lineEnd

/-- Read the blanks, line breaks and comments inside an array. -/
def filler : Nat → Reader Unit
  | 0 => failure
  | n + 1 => do
    spaces
    match ← peek? with
    | some '#' => do comment; newline; filler n
    | some '\n' | some '\r' => do newline; filler n
    | _ => return ()

/-- A character of a key without quotes. -/
def isBare (c : Char) : Bool :=
  c.isAlphanum || c = '_' || c = '-'

/-- Read one name of a key. -/
def name (n : Nat) : Reader String := do
  match ← peek? with
  | some '"' => do token "\""; return String.ofList (← basicBody n)
  | some '\'' => do token "'"; return String.ofList (← literalBody)
  | _ =>
    match ← Reader.takeWhile isBare with
    | [] => failure
    | cs => return String.ofList cs

/-- The most names that a key may have, and the most arrays and inline tables that may be nested in
one another. -/
def nestingLimit : Nat := 79

/-- Read the names of a key, with dots between them. -/
def names : Nat → Reader (List String)
  | 0 => failure
  | n + 1 => do
    spaces
    let first ← name n
    spaces
    if (← optional (token ".")).isSome then
      return first :: (← names n)
    return [first]

/-- Read a key. -/
def key (n : Nat) : Reader (List String) := do
  let path ← names n
  if path.length ≤ nestingLimit then return path else failure

mutual

/-- Read a value inside `depth` arrays and inline tables, with at most `n` nested steps. -/
def value (depth : Nat) : Nat → Reader Datum
  | 0 => failure
  | n + 1 => do
    match ← peek? with
    | some '"' | some '\'' => return .text (← quotedText n)
    | some '[' => do
      token "["
      if nestingLimit ≤ depth then failure
      filler n
      return .list (← items (depth + 1) n)
    | some '\x7b' => do
      token "\x7b"
      if nestingLimit ≤ depth then failure
      spaces
      if (← optional (token "\x7d")).isSome then return .map []
      return .map (Item.entryData (← inlineEntries (depth + 1) n []))
    | some 't' => do token "true"; return .bool true
    | some 'f' => do token "false"; return .bool false
    | _ => moment <|> float <|> integer

/-- Read the items of an array up to its closing bracket; a comma may follow the last. -/
def items (depth : Nat) : Nat → Reader (List Datum)
  | 0 => failure
  | n + 1 => do
    if (← optional (token "]")).isSome then return []
    let item ← value depth n
    filler n
    if (← optional (token ",")).isSome then
      filler n
      return item :: (← items depth n)
    token "]"
    return [item]

/-- Read the entries of an inline table up to its closing brace, adding to those read before. -/
def inlineEntries (depth : Nat) : Nat → Entries → Reader Entries
  | 0, _ => failure
  | n + 1, es => do
    let path ← key n
    token "="
    spaces
    let d ← value depth n
    spaces
    let some es := es.define path d | failure
    if (← optional (token ",")).isSome then
      inlineEntries depth n es
    else
      token "\x7d"
      return es

end

/-- A document as far as it is read: its tables, and the header that is in force. -/
structure State where
  root : Entries := []
  path : List String := []

/-- Read a line that says something. -/
def statement (n : Nat) (s : State) : Reader State := do
  match ← peek? with
  | some '#' => do comment; lineEnd; return s
  | some '\n' | some '\r' => do newline; return s
  | some '[' => do
    token "["
    if (← optional (token "[")).isSome then
      let path ← key n
      token "]]"
      trailing
      let some root := s.root.openElement path | failure
      return ⟨root, path⟩
    else
      let path ← key n
      token "]"
      trailing
      let some root := s.root.openTable path | failure
      return ⟨root, path⟩
  | _ => do
    let path ← key n
    token "="
    spaces
    let d ← value 0 n
    trailing
    let some root := s.root.inOpened (fun es => es.define path d) s.path | failure
    return { s with root }

/-- Read lines to the end of the document. -/
def statements : Nat → State → Reader State
  | 0, _ => failure
  | n + 1, s => do
    spaces
    match ← peek? with
    | none => return s
    | some _ => do
      let s ← statement n s
      statements n s

/-- The entries that a TOML text writes. A byte order mark in front is passed over. Each nested step
reads a character, so the length of the text bounds their number. -/
def entries? (text : String) : Option (List (String × Datum)) :=
  readAll (do
    let _ ← optional (token "\ufeff")
    let s ← statements (2 * text.length + 4) {}
    return Item.entryData s.root) text

/-- What a TOML text says, by name. The document itself is never a moment. -/
def read? (text : String) : Option (List (String × Datum)) :=
  (entries? text).bind settleEntries

end StyleWeave.Config.Toml
