import StyleWeave.Config.Datum

/-!
# Tables under construction

A TOML text defines a table piece by piece, and each piece may only add. A table remembers how it
came about: `implicit` if no header or inline table defined it, `dotted` if a dotted key did.
Nothing is ever replaced, so a second definition of a name is refused.
-/

namespace StyleWeave.Config.Toml

/-- What a name stands for while a text is read. -/
inductive Item where
  /-- A value, an inline table included; nothing can be added to it. -/
  | value (d : Datum)
  | table (implicit dotted : Bool) (entries : List (String × Item))
  /-- The tables of an array of tables. Only the last can be added to. -/
  | tables (elements : List (List (String × Item)))
  deriving Inhabited

/-- The names of a table with what they stand for. -/
abbrev Entries := List (String × Item)

namespace Item

mutual

/-- The value an item stands for once the text is read. -/
def datum : Item → Datum
  | value d => d
  | table _ _ entries => .map (entryData entries)
  | tables elements => .list (elementData elements)

/-- The values of a table's entries. -/
def entryData : Entries → List (String × Datum)
  | [] => []
  | (name, item) :: rest => (name, item.datum) :: entryData rest

/-- The values of the tables of an array. -/
def elementData : List Entries → List Datum
  | [] => []
  | entries :: rest => .map (entryData entries) :: elementData rest

end

end Item

namespace Entries

/-- Let `name` stand for `item`, in its place if it is there and at the end if not. -/
def put (es : Entries) (name : String) (item : Item) : Entries :=
  match es with
  | [] => [(name, item)]
  | (n, i) :: rest => if n = name then (n, item) :: rest else (n, i) :: put rest name item

/-- Let `name` stand for `item`, at the end wherever it was before. -/
def putLast (es : Entries) (name : String) (item : Item) : Entries :=
  es.filter (·.1 != name) ++ [(name, item)]

/-- Add a new name; a name that is there is refused. -/
def add (es : Entries) (name : String) (item : Item) : Option Entries :=
  match es.lookup name with
  | some _ => none
  | none => some (es ++ [(name, item)])

/-- Change the table that a dotted key leads to. Tables on the way that are not there are made. A
table that a header has defined cannot be entered, and the table at the end must have come about by
a dotted key. -/
def updateDotted (f : Entries → Option Entries) : List String → Entries → Option Entries
  | [], es => f es
  | name :: path, es =>
    match es.lookup name with
    | none => do
      let inner ← updateDotted f path []
      return es.put name (.table true true inner)
    | some (.value _) => none
    | some (.table implicit dotted inner) => do
      if !implicit || (path.isEmpty && !dotted) then none
      let inner ← updateDotted f path inner
      return es.put name (.table implicit dotted inner)
    | some (.tables elements) => do
      if path.isEmpty then none
      let last ← elements.getLast?
      let last ← updateDotted f path last
      return es.put name (.tables (elements.dropLast ++ [last]))

/-- Change the table that the name of a header leads to. Tables on the way that are not there are
made. -/
def updateHeader (f : Entries → Option Entries) : List String → Entries → Option Entries
  | [], es => f es
  | name :: path, es =>
    match es.lookup name with
    | none => do
      let inner ← updateHeader f path []
      return es.put name (.table true false inner)
    | some (.value _) => none
    | some (.table implicit dotted inner) => do
      let inner ← updateHeader f path inner
      return es.put name (.table implicit dotted inner)
    | some (.tables elements) => do
      let last ← elements.getLast?
      let last ← updateHeader f path last
      return es.put name (.tables (elements.dropLast ++ [last]))

/-- Define the value of a key, given as the names in front of its last dot and the name behind. -/
def define (es : Entries) (key : List String) (d : Datum) : Option Entries := do
  let name ← key.getLast?
  updateDotted (fun inner => inner.add name (.value d)) key.dropLast es

/-- Open the table of a header `[path]`: it must be new, or be implied by headers below it. Its
place is where it is opened. -/
def openTable (es : Entries) (path : List String) : Option Entries := do
  let name ← path.getLast?
  updateHeader (fun inner =>
    match inner.lookup name with
    | none => some (inner.put name (.table false false []))
    | some (.table true false entries) => some (inner.putLast name (.table false false entries))
    | some _ => none) path.dropLast es

/-- Open one more table of the array of a header `[[path]]`. -/
def openElement (es : Entries) (path : List String) : Option Entries := do
  let name ← path.getLast?
  updateHeader (fun inner =>
    match inner.lookup name with
    | none => some (inner.put name (.tables [[]]))
    | some (.tables elements) => some (inner.put name (.tables (elements ++ [[]])))
    | some _ => none) path.dropLast es

/-- Change the table that the last header opened. -/
def inOpened (f : Entries → Option Entries) (path : List String) (es : Entries) :
    Option Entries :=
  updateHeader f path es

end Entries

end StyleWeave.Config.Toml
