import StyleWeave.Proofs.Syntax.Blocks
import StyleWeave.Proofs.Token.Nesting

/-!
# Reading goes on

No call that the reading of a document is made of stands still (`makes_progress`). From every place
of every list of items, whether they are those of a document or not, it comes to an answer or
refuses the document, the cursor moves forward only and stays within the list, and no pass of a loop
is followed by another one without having taken an item. Where `n` items are left, calls are nested
`3 * n + 4` deep at most.

The items of a document hold no comments. One that stood among other items would be read as the sign
without a text is.
-/

namespace StyleWeave.Syntax

/-- The calls that the reading of a document is made of. -/
inductive Routine where
  | document
  | statements (close : BlockEnd)
  | statement
  | heading
  | expressions
  | continuation (indents : Nat)
  | expression
  | primary
  | exprRest
  | statementEnd
  deriving DecidableEq, Repr

namespace Routine

/-- What the call answers with. -/
def Answer : Routine → Type
  | .document | .statements _ => List Node
  | .statement | .heading => Node
  | .expressions => List Expr × Nat
  | .expression | .primary => Expr
  | .continuation _ | .exprRest | .statementEnd => Unit

/-- The call, with the bounds at which it gives up. -/
def call (limit depth : Nat) : (routine : Routine) → Parsing routine.Answer
  | .document => Descent.document limit depth
  | .statements close => Descent.statements limit depth close
  | .statement => Descent.statement limit depth
  | .heading => Descent.heading limit depth
  | .expressions => Descent.expressions limit depth
  | .continuation indents => Descent.continuation limit depth indents
  | .expression => Descent.expression limit depth
  | .primary => Descent.primary limit depth
  | .exprRest => Descent.exprRest limit depth
  | .statementEnd => Descent.statementEnd limit depth

/-- What the readers make of the items in front of the call. -/
def read (lastLine : Nat) (items : List Located) :
    (routine : Routine) → Except ParseError (routine.Answer × Nat)
  | .document => Syntax.statements lastLine .eof items
  | .statements close => Syntax.statements lastLine close items
  | .statement => Descent.readStatement lastLine items
  | .heading => Descent.readHeading ([], 0) lastLine items
  | .expressions =>
    .ok (((Syntax.expressions items).1, (Syntax.expressions items).2.1),
      (Syntax.expressions items).2.2)
  | .continuation indents => .ok ((), continuationRest indents items)
  | .expression => .ok (Syntax.expression items)
  | .primary => .ok (Syntax.primary items)
  | .exprRest => .ok ((), Syntax.exprRest 0 items)
  | .statementEnd => .ok ((), statementRest items)

end Routine

/-- With these events, the way from the cursor `c` to `c'` led forward. -/
structure Cursor.Progresses (c : Cursor) (events : List Event) (c' : Cursor) : Prop where
  record : c'.events = c.events ++ events
  items : c'.items = c.items
  forward : c.position ≤ c'.position
  within : c'.position ≤ max c.position c.items.length
  /-- The items on the way are taken one after the other. -/
  taken : events.filterMap Event.taken? = List.range' c.position (c'.position - c.position)
  /-- Where another pass of a loop follows, the last one has taken an item. -/
  passes : ∀ name first last again, .pass name first last again ∈ events →
    c.position ≤ first ∧ first ≤ last ∧ last ≤ c'.position ∧ (again = true → first < last)
  /-- Each call for a statement of a block takes an item. -/
  statements : ∀ first last, .statement first last ∈ events →
    c.position ≤ first ∧ first < last ∧ last ≤ c'.position

section

variable {α : Type} {limit depth k : Nat} {c : Cursor} {call : Parsing α}

theorem Cursor.Reaches.progresses {c' : Cursor} {n : Nat} (h : c.Reaches n c') :
    ∃ events, c.Progresses events c' := by
  obtain ⟨events, hrecord, htaken, horderly⟩ := h.events
  have hposition := h.position
  have hroom : n ≤ c.items.length - c.position := List.length_drop ▸ h.room
  rw [← hposition] at horderly
  refine ⟨events, {
    record := hrecord
    items := h.items
    forward := by omega
    within := by omega
    taken := by rw [htaken, hposition, Nat.add_sub_cancel_left]
    passes := fun name first last again he => horderly _ he
    statements := fun first last he => horderly _ he }⟩

theorem Follows.ends {reader : List Located → α × Nat} (h : Follows call reader k)
    (hk : c.rest.length ≤ k) :
    ∃ r n, Ends call c r n ∧
      (.ok (reader c.rest) : Except ParseError (α × Nat)) = r.map fun a => (a, n) :=
  ⟨.ok (reader c.rest).1, _, h c hk, rfl⟩

theorem Parses.ends {reader : Nat → List Located → Except ParseError (α × Nat)}
    (h : Parses call reader k) (hk : c.rest.length ≤ k) :
    ∃ r n, Ends call c r n ∧ reader c.lastLine c.rest = r.map fun a => (a, n) := by
  obtain ⟨r, n, hends, -, heq⟩ := h c hk
  exact ⟨r, n, hends, heq⟩

theorem Routine.ends (routine : Routine) (hlimit : k < limit) (hdepth : 3 * k + 4 ≤ depth)
    (hk : c.rest.length ≤ k) :
    ∃ r n, Ends (routine.call limit depth) c r n ∧
      routine.read c.lastLine c.rest = r.map fun a => (a, n) := by
  obtain ⟨depth, rfl⟩ : ∃ d, depth = d + 2 := ⟨depth - 2, by omega⟩
  have hpos : 0 < depth + 2 := Nat.succ_pos _
  have hblock : ∀ d, 3 * k ≤ d → ∀ j < k, Descent.ParsesBlocks (Descent.statements limit d) j :=
    fun d hd j hj => Descent.parses_statements (by omega) (by omega)
  have hexpression : Follows (Descent.expression limit (depth + 1)) Syntax.expression k :=
    Descent.follows_expression hlimit (by omega)
  cases routine with
  | document => exact (Descent.parses_statements hlimit (by omega) .eof).ends hk
  | statements close => exact (Descent.parses_statements hlimit (by omega) close).ends hk
  | statement =>
    exact (Descent.parses_statement (hblock depth (by omega)) hlimit (by omega)).ends hk
  | heading => exact (Descent.parses_heading (hblock (depth + 1) (by omega)) hlimit).ends hk
  | expressions => exact (Descent.follows_expressions hexpression hlimit).ends hk
  | continuation indents => exact (Descent.follows_continuation hlimit hpos indents).ends hk
  | expression => exact (Descent.follows_expression hlimit (by omega)).ends hk
  | primary =>
    have hinner : ∀ j < k, Follows (Descent.expression limit (depth + 1)) Syntax.expression j :=
      fun j hj => hexpression.mono (Nat.le_of_lt hj)
    exact (Descent.follows_primary hinner hlimit (by omega)).ends hk
  | exprRest => exact (Descent.follows_exprRest hlimit hpos).ends hk
  | statementEnd => exact (Descent.follows_statementEnd hlimit hpos).ends hk

theorem Routine.progresses (routine : Routine) (c : Cursor) (hlimit : c.rest.length < limit)
    (hdepth : 3 * c.rest.length + 4 ≤ depth) :
    ∃ c' events, (routine.call limit depth).run c =
        answer c' ((routine.read c.lastLine c.rest).map Prod.fst) ∧
      c.Progresses events c' := by
  obtain ⟨r, n, ⟨c', hreaches, hrun⟩, hread⟩ := routine.ends hlimit hdepth (Nat.le_refl _)
  obtain ⟨events, hprogresses⟩ := hreaches.progresses
  refine ⟨c', events, ?_, hprogresses⟩
  rw [hread, hrun]
  cases r <;> rfl

end

/-- Every call comes to what the readers make of the items in front of it, and makes progress on the
way, from every place of every list of items. The call for the items of a document comes to what the
document is parsed as. -/
theorem makes_progress :
    (∀ (routine : Routine) (c : Cursor) (limit depth : Nat), c.rest.length < limit →
      3 * c.rest.length + 4 ≤ depth →
      ∃ c' events, (routine.call limit depth).run c =
          answer c' ((routine.read c.lastLine c.rest).map Prod.fst) ∧
        c.Progresses events c') ∧
    ∀ source : List Char,
      (∃ e, tokenize source = .error e ∧ parse source = .error e) ∨
      ∃ items, tokenize source = .ok items ∧
        ∀ limit depth, items.length < limit → 7 * items.length ≤ depth →
          ∃ c' events, (Descent.document limit depth).run ⟨items, 0, 0, []⟩ =
              answer c' (parse source) ∧
            Cursor.Progresses ⟨items, 0, 0, []⟩ events c' := by
  refine ⟨fun routine c limit depth hlimit hdepth => routine.progresses c hlimit hdepth,
    fun source => ?_⟩
  unfold parse
  cases htokens : tokenize source with
  | error e => exact Or.inl ⟨e, rfl, rfl⟩
  | ok items =>
    have hpos : 0 < items.length := by
      obtain ⟨body, last, rfl, -⟩ := Layout.run_eof htokens
      simp
    refine Or.inr ⟨items, rfl, fun limit depth hlimit hdepth => ?_⟩
    exact Routine.document.progresses ⟨items, 0, 0, []⟩ hlimit (by
      show 3 * items.length + 4 ≤ depth
      omega)

/-- A call whose argument starts with a brace, and a deeper line behind it. No document has these
items. -/
def strayBrace : Cursor where
  items := [⟨.dedent, 0, 0, 0⟩, ⟨.token (.ident "a"), 0, 0, 1⟩, ⟨.token .assign, 0, 2, 3⟩,
    ⟨.token (.ident "f"), 0, 4, 5⟩, ⟨.token .openParen, 0, 5, 6⟩, ⟨.token .openBrace, 0, 6, 7⟩,
    ⟨.token .closeParen, 0, 7, 8⟩, ⟨.indent, 1, 10, 10⟩, ⟨.token (.ident "b"), 1, 10, 11⟩,
    ⟨.token .assign, 1, 12, 13⟩, ⟨.token (.ident "c"), 1, 14, 15⟩]
  position := 1
  stop := 0
  events := []

theorem makes_progress_strayBrace :
    (strayBrace.rest.length < 11 ∧ 3 * strayBrace.rest.length + 4 ≤ 34 ∧
      ∃ c' events, (Routine.call 11 34 .document).run strayBrace =
          .ok [.assign "a" .set (.call "f" [.unknown]), .block [.assign "b" .set (.ident "c")]] c' ∧
        strayBrace.Progresses events c' ∧
        .pass .arguments 5 6 true ∈ events ∧ .statement 1 7 ∈ events) ∧
    ∃ items, tokenize "a".toList = .ok items ∧ items.length < 4 ∧ 7 * items.length ≤ 21 ∧
      ∃ c' events, (Descent.document 4 21).run ⟨items, 0, 0, []⟩ = answer c' (parse "a".toList) ∧
        Cursor.Progresses ⟨items, 0, 0, []⟩ events c' := by
  constructor
  · have hlimit : strayBrace.rest.length < 11 := by decide
    have hdepth : 3 * strayBrace.rest.length + 4 ≤ 34 := by decide
    obtain ⟨c, hanswer, hpass, hstatement⟩ : ∃ c, (Routine.call 11 34 .document).run strayBrace =
        .ok [.assign "a" .set (.call "f" [.unknown]), .block [.assign "b" .set (.ident "c")]] c ∧
          .pass .arguments 5 6 true ∈ c.events ∧ .statement 1 7 ∈ c.events :=
      ⟨_, rfl, by decide, by decide⟩
    obtain ⟨c', events, hrun, hprogresses⟩ :=
      makes_progress.1 .document strayBrace 11 34 hlimit hdepth
    obtain rfl : c = c' := by
      rw [hanswer] at hrun
      generalize Except.map Prod.fst _ = r at hrun
      cases r with
      | error e => cases hrun
      | ok nodes =>
        cases hrun
        rfl
    have hrecord : c.events = events := hprogresses.record
    rw [hrecord] at hpass hstatement
    exact ⟨hlimit, hdepth, c, events, hanswer, hprogresses, hpass, hstatement⟩
  · have htokens : tokenize "a".toList =
        .ok [⟨.token (.ident "a"), 0, 0, 1⟩, ⟨.token .newline, 0, 1, 1⟩, ⟨.eof, 0, 1, 1⟩] := by
      decide +kernel
    refine ⟨_, htokens, by decide, by decide, ?_⟩
    rcases makes_progress.2 "a".toList with ⟨e, hrefused, -⟩ | ⟨items, hitems, hruns⟩
    · rw [htokens] at hrefused
      cases hrefused
    · rw [htokens] at hitems
      obtain rfl := Except.ok.inj hitems
      exact hruns 4 21 (by decide) (by decide)

end StyleWeave.Syntax
