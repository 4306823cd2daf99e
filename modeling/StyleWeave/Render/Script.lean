import StyleWeave.Render.Basic

/-!
# Renderers that play back a script

A scripted renderer ignores its document and does what the entries of a script say, one entry for
each render, the last one again and again. With it a job can be watched under any behaviour of a
renderer.
-/

namespace StyleWeave.Script

/-- A question to the locator. -/
inductive Question where
  | find (path : String) (paths : List Path) (ignore : Option Path)
  /-- Find the file that stands for a directory. -/
  | index (name : String) (paths : List Path) (ignore : Option Path)
  | read (file : Path)
  deriving Repr

/-- An answer of the locator, with the number of files found by then. -/
inductive Answer where
  | located (result : Except Pending (Option (List Path))) (found : Nat)
  | text (result : Except Failure String) (found : Nat)

/-- What a scripted render does. -/
structure Entry where
  questions : List Question
  ending : Path → Except Failure Outcome

/-- What a scripted renderer has done. -/
structure State where
  entries : List Entry
  answers : List Answer := []

/-- Put one question to the locator. -/
def ask (locator : Locator PathSet) (found : PathSet) : Question → Answer × PathSet
  | .find path paths ignore =>
    let (result, found) := locator.find found path paths ignore
    (.located result found.size, found)
  | .index name paths ignore =>
    let (result, found) := locator.index found name paths ignore
    (.located result found.size, found)
  | .read file =>
    let (result, found) := locator.read found file
    (.text result found.size, found)

/-- Put several questions in turn. -/
def askAll (locator : Locator PathSet) (found : PathSet) : List Question → List Answer × PathSet
  | [] => ([], found)
  | q :: rest =>
    let (answer, found) := ask locator found q
    let (answers, found) := askAll locator found rest
    (answer :: answers, found)

/-- The entries to be played after one was. -/
def next : List Entry → List Entry
  | [] => []
  | [last] => [last]
  | _ :: rest => rest

/-- The renderer that plays the entries of its state. Without any it comes to no end. -/
def renderer : Renderer State where
  render s file _ _ locator found :=
    match s.entries with
    | [] => none
    | entry :: _ =>
      let (answers, found) := askAll locator found entry.questions
      some ⟨entry.ending file, found, ⟨next s.entries, s.answers ++ answers⟩⟩

end StyleWeave.Script
