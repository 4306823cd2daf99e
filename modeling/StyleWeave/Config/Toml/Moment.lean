import StyleWeave.Config.Datum

/-!
# Dates and times of TOML

A date, a time of day, or both, with or without the distance from universal time. It is written as
it stands, or as a text in a table that is marked as a moment. Either way it is kept in canonical
form: `T` between date and time, `Z` for universal time, and at most nine digits of a second without
zeros at their end.
-/

namespace StyleWeave.Config.Toml

open Reader

/-! ## Reading -/

/-- Read exactly `n` digits that stand for a number from `low` to `high`. -/
def field (n low high : Nat) : Reader (List Char) := do
  let cs ← get
  let ds := cs.take n
  let value := ofDigits 10 ds
  if ds.length = n && ds.all Char.isDigit && low ≤ value && value ≤ high then
    set (cs.drop n)
    return ds
  else failure

/-- The number of days of a month. -/
def daysOf (year month : Nat) : Nat :=
  if month = 2 then
    if year % 4 = 0 && (year % 100 != 0 || year % 400 = 0) then 29 else 28
  else if month = 4 || month = 6 || month = 9 || month = 11 then 30
  else 31

/-- Read a date. -/
def date : Reader (List Char) := do
  let year ← field 4 0 9999
  token "-"
  let month ← field 2 1 12
  token "-"
  let day ← field 2 1 (daysOf (ofDigits 10 year) (ofDigits 10 month))
  return year ++ ['-'] ++ month ++ ['-'] ++ day

/-- Read a fraction of a second. Nine digits count, and zeros at their end are dropped. -/
def secondFraction : Reader (List Char) := do
  token "."
  match ← Reader.takeWhile Char.isDigit with
  | [] => failure
  | ds =>
    match ((ds.take 9).reverse.dropWhile (· = '0')).reverse with
    | [] => return []
    | kept => return '.' :: kept

/-- Read a time of day. -/
def time : Reader (List Char) := do
  let hour ← field 2 0 23
  token ":"
  let minute ← field 2 0 59
  token ":"
  let second ← field 2 0 60
  let fraction ← optional secondFraction
  return hour ++ [':'] ++ minute ++ [':'] ++ second ++ fraction.getD []

/-- Read the distance from universal time. None at all counts as one to the east. -/
def zone : Reader (List Char) := do
  match ← satisfy fun _ => true with
  | 'Z' | 'z' => return ['Z']
  | s =>
    if s = '+' || s = '-' then
      let hour ← field 2 0 23
      token ":"
      let minute ← field 2 0 59
      let text := hour ++ [':'] ++ minute
      return (if text = "00:00".toList then '+' else s) :: text
    else failure

/-- Read a date, a time, or both, in canonical form. -/
def clock : Reader String := do
  match ← optional date with
  | some day => do
    let hours ← optional (do
      let _ ← satisfy fun c => c = 'T' || c = 't' || c = ' '
      let t ← time
      let z ← optional zone
      return 'T' :: (t ++ z.getD []))
    return String.ofList (day ++ hours.getD [])
  | none => return String.ofList (← time)

/-- Read a moment that is written as it stands. -/
def moment : Reader Datum :=
  Datum.moment <$> clock

/-! ## Tables that stand for moments -/

/-- The name that marks a table as a moment, if it comes first in the table. -/
def momentName : String := "$__toml_private_datetime"

/-- The moment that a marked table stands for, given what stands behind the name. -/
def momentOf? : Datum → Option Datum
  | .text s => (readAll clock s).map Datum.moment
  | _ => none

mutual

/-- A value with moments in place of the tables in it that stand for them, if each of these holds
one. What follows the name in a marked table is passed over. -/
def settle : Datum → Option Datum
  | .list items => (settleItems items).map Datum.list
  | .map [] => some (.map [])
  | .map ((name, d) :: rest) =>
    if name = momentName then momentOf? d
    else do
      let d ← settle d
      let rest ← settleEntries rest
      return .map ((name, d) :: rest)
  | d => some d

/-- The items of a list, each settled. -/
def settleItems : List Datum → Option (List Datum)
  | [] => some []
  | d :: rest => do
    let d ← settle d
    let rest ← settleItems rest
    return d :: rest

/-- The entries of a table that is none of those that stand for moments, each settled. -/
def settleEntries : List (String × Datum) → Option (List (String × Datum))
  | [] => some []
  | (name, d) :: rest => do
    let d ← settle d
    let rest ← settleEntries rest
    return (name, d) :: rest

end

end StyleWeave.Config.Toml
