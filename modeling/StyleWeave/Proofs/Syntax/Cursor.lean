import StyleWeave.Proofs.Syntax.Brackets

/-!
# A cursor over items

The readers of expressions and statements answer with how many items they took. The calls that are
built from this module take the items one at a time: they look at the item in front of a cursor and
move the cursor behind it, in loops and in calls of each other. Nothing in the shape of such a call
makes it end. A loop gives up when it has made more passes than it may, and so does a call that is
nested deeper than it may be; giving up is not an answer.

The cursor keeps a record of what was done on its way: which items were taken, where each pass of a
loop began and ended, and where each call for a statement did. `Ends` is what is shown of a call: it
answers, and its record is the one of an orderly way (`Reaches`). The rules of the module say how
calls that are put together end.
-/

namespace StyleWeave.Syntax

/-- The loops in which items are taken. -/
inductive Loop where
  | statements
  | heading
  | statementEnd
  | list
  /-- The line breaks behind a comma, or in front of the end of a block. -/
  | lineBreaks
  | continuation
  | sum
  | arguments
  | exprRest
  deriving DecidableEq, Repr

/-- What happens on the way of a cursor. The numbers are positions of it. -/
inductive Event where
  /-- The item at the position is taken. -/
  | took (position : Nat)
  /-- A pass of a loop, from where it starts to where it ends, and whether another one follows. -/
  | pass (loop : Loop) (first last : Nat) (again : Bool)
  /-- A call for the next statement of a list of statements. -/
  | statement (first last : Nat)
  deriving DecidableEq, Repr

def Event.taken? : Event → Option Nat
  | .took position => some position
  | .pass .. | .statement .. => none

/-- The event belongs to a way from `first` to `last`, and does not hold it up: a pass that another
one follows has taken an item, and so has a call for a statement. -/
def Event.Orderly (first last : Nat) : Event → Prop
  | .took position => first ≤ position ∧ position < last
  | .pass _ start stop again =>
    first ≤ start ∧ start ≤ stop ∧ stop ≤ last ∧ (again = true → start < stop)
  | .statement start stop => first ≤ start ∧ start < stop ∧ stop ≤ last

/-- The byte offset behind the last token that is no line break, if `stop` is the one in front of
the item. -/
def stopBehind (stop : Nat) (l : Located) : Nat :=
  match l.item with
  | .token .newline => stop
  | .token _ => l.stop
  | _ => stop

/-- A place among the items. It may lie behind all of them. -/
structure Cursor where
  items : List Located
  position : Nat
  /-- The byte offset behind the last token taken that is no line break. -/
  stop : Nat
  /-- What happened so far, in order. -/
  events : List Event
  deriving DecidableEq, Repr

namespace Cursor

def rest (c : Cursor) : List Located :=
  c.items.drop c.position

/-- The item in front of the cursor. Behind the last item the document has ended. -/
def item (c : Cursor) : Item :=
  (c.items[c.position]?.map Located.item).getD .eof

/-- The item after the one in front of the cursor. -/
def next (c : Cursor) : Item :=
  (c.items[c.position + 1]?.map Located.item).getD .eof

/-- The line of the last item. -/
def lastLine (c : Cursor) : Nat :=
  (c.items.getLast?.map Located.line).getD 0

/-- The line that the cursor is on. -/
def line (c : Cursor) : Nat :=
  (c.items[c.position]?.map Located.line).getD c.lastLine

/-- The byte offset of the item in front of the cursor. -/
def start (c : Cursor) : Nat :=
  (c.items[c.position]?.map Located.start).getD c.stop

def record (c : Cursor) (e : Event) : Cursor :=
  { c with events := c.events ++ [e] }

/-- Behind the item in front, if there is one. -/
def advance (c : Cursor) : Cursor :=
  match c.items[c.position]? with
  | none => c
  | some l =>
    { c with
      position := c.position + 1
      stop := stopBehind c.stop l
      events := c.events ++ [.took c.position] }

end Cursor

/-- Why a call gives no answer. -/
inductive Halt where
  /-- More passes of a loop, or more calls inside each other, than there may be. -/
  | exhausted
  | refused (error : ParseError)
  deriving DecidableEq, Repr

/-- A call that moves a cursor. -/
abbrev Parsing := EStateM Halt Cursor

/-- How a pass of a loop ends. -/
inductive Next (σ α : Type) where
  | again (state : σ)
  | leave (answer : α)

variable {α β σ : Type}

namespace Parsing

def exhausted : Parsing α :=
  throw .exhausted

def refuse (error : ParseError) : Parsing α :=
  throw (.refused error)

def cursor : Parsing Cursor :=
  get

/-- Looks at the item in front. -/
def peek : Parsing Item := do
  return (← cursor).item

/-- Takes the item in front, if there is one. -/
def advance : Parsing Unit :=
  modify Cursor.advance

/-- Takes the item in front if it is this one, and answers whether it is. -/
def skip (item : Item) : Parsing Bool := do
  if (← peek) = item then
    advance
    return true
  else
    return false

/-- Makes passes of a loop until one leaves it, `limit` at most. A pass that refuses the document
leaves the loop, too. -/
def loop (name : Loop) (pass : σ → Parsing (Next σ α)) : Nat → σ → Parsing α
  | 0, _ => exhausted
  | limit + 1, state => fun c =>
    match (pass state).run c with
    | .ok (.again state') c' =>
      loop name pass limit state' (c'.record (.pass name c.position c'.position true))
    | .ok (.leave answer) c' => .ok answer (c'.record (.pass name c.position c'.position false))
    | .error halt c' => .error halt (c'.record (.pass name c.position c'.position false))

/-- Takes items as long as they are of a kind. -/
def skipWhile (name : Loop) (kind : Item → Bool) (limit : Nat) : Parsing Unit :=
  loop name (fun () => do
    if kind (← peek) then
      advance
      return .again ()
    else
      return .leave ()) limit ()

/-- A call for the next statement, kept in the record. -/
def forStatement (call : Parsing α) : Parsing α := fun c =>
  match call.run c with
  | .ok answer c' => .ok answer (c'.record (.statement c.position c'.position))
  | .error halt c' => .error halt (c'.record (.statement c.position c'.position))

end Parsing

/-! ## Ways of a cursor -/

/-- The cursor `c'` has taken the next `n` items from `c` on, one after the other, and what happened
in between was orderly. -/
structure Cursor.Reaches (c : Cursor) (n : Nat) (c' : Cursor) : Prop where
  items : c'.items = c.items
  position : c'.position = c.position + n
  room : n ≤ c.rest.length
  stop : c'.stop = (c.rest.take n).foldl stopBehind c.stop
  events : ∃ events, c'.events = c.events ++ events ∧
    events.filterMap Event.taken? = List.range' c.position n ∧
    ∀ e ∈ events, e.Orderly c.position (c.position + n)

theorem Event.Orderly.mono {first last first' last' : Nat} {e : Event} (h : e.Orderly first last)
    (hfirst : first' ≤ first) (hlast : last ≤ last') : e.Orderly first' last' := by
  cases e with
  | took position => exact ⟨Nat.le_trans hfirst h.1, Nat.lt_of_lt_of_le h.2 hlast⟩
  | pass name start stop again =>
    exact ⟨Nat.le_trans hfirst h.1, h.2.1, Nat.le_trans h.2.2.1 hlast, h.2.2.2⟩
  | statement start stop =>
    exact ⟨Nat.le_trans hfirst h.1, h.2.1, Nat.le_trans h.2.2 hlast⟩

theorem exists_of_head {item : Item} {items : List Located}
    (h : items.head?.map Located.item = some item) :
    ∃ l ls, items = l :: ls ∧ l.item = item := by
  cases items with
  | nil => cases h
  | cons l ls => exact ⟨l, ls, rfl, Option.some.inj h⟩

namespace Cursor

variable {c c' c'' : Cursor} {n m : Nat} {l : Located} {ls : List Located}

theorem item_eq (c : Cursor) : c.item = (c.rest.head?.map Located.item).getD .eof := by
  unfold item rest
  rw [List.head?_drop]

theorem item_of_nil (h : c.rest = []) : c.item = .eof := by
  rw [item_eq, h]
  rfl

theorem item_of_cons (h : c.rest = l :: ls) : c.item = l.item := by
  rw [item_eq, h]
  rfl

theorem getElem?_of_nil (h : c.rest = []) : c.items[c.position]? = none := by
  rw [← List.head?_drop]
  exact congrArg List.head? h

theorem getElem?_of_cons (h : c.rest = l :: ls) : c.items[c.position]? = some l := by
  rw [← List.head?_drop]
  exact congrArg List.head? h

theorem next_of_cons (h : c.rest = l :: ls) :
    c.next = (ls.head?.map Located.item).getD .eof := by
  have hdrop : c.items.drop (c.position + 1) = ls := by
    rw [← List.drop_drop]
    exact congrArg (List.drop 1) h
  unfold next
  rw [← List.head?_drop, hdrop]

theorem line_of_nil (h : c.rest = []) : c.line = c.lastLine := by
  unfold line
  rw [getElem?_of_nil h]
  rfl

theorem line_of_cons (h : c.rest = l :: ls) : c.line = l.line := by
  unfold line
  rw [getElem?_of_cons h]
  rfl

theorem start_of_cons (h : c.rest = l :: ls) : c.start = l.start := by
  unfold start
  rw [getElem?_of_cons h]
  rfl

theorem exists_of_item {item : Item} (h : c.item = item) (hne : item ≠ .eof) :
    ∃ l ls, c.rest = l :: ls ∧ l.item = item := by
  cases hrest : c.rest with
  | nil => exact absurd ((item_of_nil hrest).symm.trans h) hne.symm
  | cons l ls => exact ⟨l, ls, rfl, (item_of_cons hrest).symm.trans h⟩

theorem item_ne {item : Item} (h : item ≠ .eof)
    (hne : c.rest.head?.map Located.item ≠ some item) : c.item ≠ item := by
  intro heq
  obtain ⟨l, ls, hrest, hl⟩ := exists_of_item heq h
  rw [hrest] at hne
  exact hne (congrArg some hl)

theorem item_ne_token {t : Token} (h : ¬ startsWith t c.rest = true) : c.item ≠ .token t :=
  item_ne nofun fun heq => h (decide_eq_true heq)

theorem Reaches.rest (h : c.Reaches n c') : c'.rest = c.rest.drop n := by
  unfold Cursor.rest
  rw [h.items, h.position, List.drop_drop]

theorem Reaches.rest_of_cons (h : c.Reaches 1 c') (hrest : c.rest = l :: ls) : c'.rest = ls := by
  rw [h.rest, hrest]
  rfl

theorem Reaches.lastLine (h : c.Reaches n c') : c'.lastLine = c.lastLine := by
  unfold Cursor.lastLine
  rw [h.items]

theorem Reaches.length (h : c.Reaches n c') : c'.rest.length + n = c.rest.length := by
  rw [h.rest, List.length_drop]
  exact Nat.sub_add_cancel h.room

theorem Reaches.refl (c : Cursor) : c.Reaches 0 c where
  items := rfl
  position := rfl
  room := Nat.zero_le _
  stop := rfl
  events := ⟨[], (List.append_nil _).symm, rfl, by simp⟩

theorem Reaches.trans (h : c.Reaches n c') (h' : c'.Reaches m c'') : c.Reaches (n + m) c'' := by
  obtain ⟨first, hfirst, htook, horderly⟩ := h.events
  obtain ⟨second, hsecond, htook', horderly'⟩ := h'.events
  have hposition : c''.position = c.position + (n + m) := by
    rw [h'.position, h.position, Nat.add_assoc]
  have hlength := h.length
  have hroom := h'.room
  refine ⟨h'.items.trans h.items, hposition, by omega, ?_, first ++ second, ?_, ?_, ?_⟩
  · rw [h'.stop, h.stop, h.rest, ← List.foldl_append, ← List.take_add]
  · rw [hsecond, hfirst, List.append_assoc]
  · rw [List.filterMap_append, htook, htook', h.position, List.range'_append_1]
  · rw [h.position, Nat.add_assoc] at horderly'
    intro e he
    rcases List.mem_append.1 he with he | he
    · exact (horderly e he).mono (Nat.le_refl _) (by omega)
    · exact (horderly' e he).mono (Nat.le_add_right _ _) (Nat.le_refl _)

/-- An event that takes no item may be put down at the end of a way. -/
theorem Reaches.record {e : Event} (h : c.Reaches n c') (hnone : e.taken? = none)
    (he : e.Orderly c.position (c.position + n)) : c.Reaches n (c'.record e) := by
  obtain ⟨events, hevents, htook, horderly⟩ := h.events
  refine ⟨h.items, h.position, h.room, h.stop, events ++ [e], ?_, ?_, ?_⟩
  · show c'.events ++ [e] = _
    rw [hevents, List.append_assoc]
  · rw [List.filterMap_append, htook]
    simp [hnone]
  · intro e' he'
    rcases List.mem_append.1 he' with he' | he'
    · exact horderly e' he'
    · exact List.mem_singleton.1 he' ▸ he

/-- A pass that is followed by another one only if it has taken an item may be put down. -/
theorem Reaches.pass (h : c.Reaches n c') (name : Loop) (again : Bool)
    (hagain : again = true → 0 < n) :
    c.Reaches n (c'.record (.pass name c.position c'.position again)) := by
  refine h.record rfl ⟨Nat.le_refl _, ?_, Nat.le_of_eq h.position, fun htrue => ?_⟩
  · rw [h.position]
    exact Nat.le_add_right _ _
  · have hpos := hagain htrue
    rw [h.position]
    omega

theorem reaches_advance (h : c.rest = l :: ls) : c.Reaches 1 c.advance := by
  have hadvance : c.advance =
      { c with
        position := c.position + 1
        stop := stopBehind c.stop l
        events := c.events ++ [.took c.position] } := by
    unfold advance
    rw [getElem?_of_cons h]
  rw [hadvance]
  refine ⟨rfl, rfl, ?_, ?_, [.took c.position], rfl, rfl, ?_⟩
  · rw [h]
    exact Nat.le_add_left 1 _
  · rw [h]
    rfl
  · intro e he
    obtain rfl := List.mem_singleton.1 he
    exact ⟨Nat.le_refl _, Nat.lt_succ_self _⟩

end Cursor

/-! ## How calls end -/

theorem Parsing.run_loop (name : Loop) (pass : σ → Parsing (Next σ α)) (limit : Nat) (state : σ)
    (c : Cursor) :
    (loop name pass (limit + 1) state).run c =
      match (pass state).run c with
      | .ok (.again state') c' =>
        (loop name pass limit state').run (c'.record (.pass name c.position c'.position true))
      | .ok (.leave a) c' => .ok a (c'.record (.pass name c.position c'.position false))
      | .error halt c' => .error halt (c'.record (.pass name c.position c'.position false)) :=
  rfl

theorem Parsing.run_forStatement (call : Parsing α) (c : Cursor) :
    (forStatement call).run c =
      match call.run c with
      | .ok a c' => .ok a (c'.record (.statement c.position c'.position))
      | .error halt c' => .error halt (c'.record (.statement c.position c'.position)) :=
  rfl

theorem Parsing.run_skip_of_ne {item : Item} {c : Cursor} (h : c.item ≠ item) :
    (skip item).run c = .ok false c := by
  show (if c.item = item then _ else _ : Parsing Bool).run c = _
  rw [if_neg h]
  rfl

/-- What a call that ends comes to. -/
def answer (c : Cursor) : Except ParseError α → EStateM.Result Halt Cursor α
  | .ok a => .ok a c
  | .error e => .error (.refused e) c

/-- From the cursor `c` on, the call takes `n` items in an orderly way and comes to `r`. -/
def Ends (call : Parsing α) (c : Cursor) (r : Except ParseError α) (n : Nat) : Prop :=
  ∃ c', c.Reaches n c' ∧ call.run c = answer c' r

namespace Ends

open Parsing

variable {c : Cursor} {call : Parsing α} {r : Except ParseError α} {n m : Nat} {a : α}
  {f : α → Parsing β} {s : Except ParseError β}

theorem count_eq (h : Ends call c r n) (heq : n = m) : Ends call c r m :=
  heq ▸ h

theorem pure (a : α) (c : Cursor) : Ends (Pure.pure a) c (.ok a) 0 :=
  ⟨c, .refl c, rfl⟩

theorem refuse (e : ParseError) (c : Cursor) : Ends (α := α) (Parsing.refuse e) c (.error e) 0 :=
  ⟨c, .refl c, rfl⟩

/-- Behind what a call takes, any other may go on. -/
theorem behind (h : Ends call c (.ok a) n) :
    ∃ c', c.Reaches n c' ∧ ∀ {β : Type} {f : α → Parsing β} {s : Except ParseError β} {m : Nat},
      Ends (f a) c' s m → Ends (call >>= f) c s (n + m) := by
  obtain ⟨c', hreaches, heq⟩ := h
  refine ⟨c', hreaches, fun {β f s m} hf => ?_⟩
  obtain ⟨c'', hreaches', heq'⟩ := hf
  refine ⟨c'', hreaches.trans hreaches', ?_⟩
  rw [EStateM.run_bind, heq]
  exact heq'

theorem bind (h : Ends call c (.ok a) n) (hf : ∀ c', c.Reaches n c' → Ends (f a) c' s m) :
    Ends (call >>= f) c s (n + m) := by
  obtain ⟨c', hreaches, hbind⟩ := h.behind
  exact hbind (hf c' hreaches)

theorem bind_error {e : ParseError} (h : Ends call c (.error e) n) :
    Ends (call >>= f) c (.error e) n := by
  obtain ⟨c', hreaches, heq⟩ := h
  refine ⟨c', hreaches, ?_⟩
  rw [EStateM.run_bind, heq]
  rfl

theorem map (h : Ends call c r n) (g : α → β) :
    Ends (call >>= fun a => Pure.pure (g a)) c (r.map g) n := by
  cases r with
  | ok a => exact h.bind (m := 0) fun c' _ => .pure (g a) c'
  | error e => exact h.bind_error

theorem look (f : Cursor → Parsing β) (h : Ends (f c) c s n) : Ends (cursor >>= f) c s n :=
  h

theorem peek {item : Item} {f : Item → Parsing β} (h : c.item = item)
    (hf : Ends (f item) c s n) : Ends (Parsing.peek >>= f) c s n := by
  subst h
  exact hf

theorem takes {l : Located} {ls : List Located} (h : c.rest = l :: ls) :
    Ends Parsing.advance c (.ok ()) 1 :=
  ⟨c.advance, Cursor.reaches_advance h, rfl⟩

theorem advance {l : Located} {ls : List Located} {f : Unit → Parsing β} (h : c.rest = l :: ls)
    (hf : ∀ c', c.Reaches 1 c' → c'.rest = ls → Ends (f ()) c' s n) :
    Ends (Parsing.advance >>= f) c s (n + 1) := by
  rw [Nat.add_comm]
  exact (takes h).bind fun c' hreaches => hf c' hreaches (hreaches.rest_of_cons h)

/-- A pass that does nothing but take an item. -/
theorem again {l : Located} {ls : List Located} (h : c.rest = l :: ls) (state : σ) :
    Ends (do Parsing.advance; return Next.again (α := α) state) c (.ok (.again state)) 1 :=
  advance h fun c' _ _ => .pure _ c'

theorem skip_true {item : Item} {l : Located} {ls : List Located} (h : c.rest = l :: ls)
    (hl : l.item = item) : Ends (Parsing.skip item) c (.ok true) 1 := by
  refine peek ((Cursor.item_of_cons h).trans hl) ?_
  rw [if_pos rfl]
  exact advance h fun c' _ _ => .pure true c'

theorem skip_here {item : Item} {l : Located} {ls : List Located} {f : Bool → Parsing β}
    (h : c.rest = l :: ls) (hl : l.item = item)
    (hf : ∀ c', c.Reaches 1 c' → c'.rest = ls → Ends (f true) c' s n) :
    Ends (Parsing.skip item >>= f) c s (n + 1) := by
  rw [Nat.add_comm]
  exact (skip_true h hl).bind fun c' hreaches => hf c' hreaches (hreaches.rest_of_cons h)

theorem skip_not {item : Item} {f : Bool → Parsing β} (h : c.item ≠ item)
    (hf : Ends (f false) c s n) : Ends (Parsing.skip item >>= f) c s n := by
  obtain ⟨c', hreaches, heq⟩ := hf
  refine ⟨c', hreaches, ?_⟩
  rw [EStateM.run_bind, run_skip_of_ne h]
  exact heq

theorem skip_token (t : Token) (c : Cursor) :
    ∃ b, Ends (Parsing.skip (.token t)) c (.ok b) (count t c.rest) := by
  by_cases hstarts : startsWith t c.rest = true
  · have hcount : count t c.rest = 1 := if_pos hstarts
    obtain ⟨l, ls, hrest, hl⟩ := exists_of_startsWith hstarts
    exact ⟨true, hcount ▸ .skip_true hrest hl⟩
  · have hcount : count t c.rest = 0 := if_neg hstarts
    refine ⟨false, c, ?_, Parsing.run_skip_of_ne (Cursor.item_ne_token hstarts)⟩
    rw [hcount]
    exact .refl c

/-! ### Loops -/

variable {name : Loop} {pass : σ → Parsing (Next σ α)} {state state' : σ} {limit : Nat}

theorem loop_leave (h : Ends (pass state) c (r.map .leave) n) :
    Ends (loop name pass (limit + 1) state) c r n := by
  obtain ⟨c', hreaches, heq⟩ := h
  refine ⟨_, hreaches.pass name false nofun, ?_⟩
  rw [run_loop, heq]
  cases r <;> rfl

/-- A pass that has taken an item may be followed by others. -/
theorem loop_behind (h : Ends (pass state) c (.ok (.again state')) n) (hpos : 0 < n) :
    ∃ c', c.Reaches n c' ∧ ∀ {r : Except ParseError α} {m : Nat},
      Ends (loop name pass limit state') c' r m →
        Ends (loop name pass (limit + 1) state) c r (n + m) := by
  obtain ⟨c', hreaches, heq⟩ := h
  have hpass := hreaches.pass name true fun _ => hpos
  refine ⟨_, hpass, fun {r m} hloop => ?_⟩
  obtain ⟨c'', hreaches', heq'⟩ := hloop
  refine ⟨c'', hpass.trans hreaches', ?_⟩
  rw [run_loop, heq]
  exact heq'

/-- A loop ends because every pass that another one follows has taken an item. What is known of its
answer is known of the answer of its last pass, and each pass before hands it back. -/
theorem loop (known : σ → Cursor → Except ParseError α → Nat → Prop) {k : Nat}
    (hpass : ∀ state c, c.rest.length ≤ k →
      (∃ r n, Ends (pass state) c (r.map .leave) n ∧ known state c r n) ∨
      ∃ state' n, 0 < n ∧ Ends (pass state) c (.ok (.again state')) n ∧
        ∀ c' r m, c.Reaches n c' → known state' c' r m → known state c r (n + m))
    (hlimit : k < limit) (state : σ) (c : Cursor) (hk : c.rest.length ≤ k) :
    ∃ r n, Ends (Parsing.loop name pass limit state) c r n ∧ known state c r n := by
  -- The passes are counted against the items left at each pass, not against `k`.
  have hpasses : c.rest.length < limit := Nat.lt_of_le_of_lt hk hlimit
  clear hlimit
  induction limit generalizing c state with
  | zero => omega
  | succ limit ih =>
    rcases hpass state c hk with ⟨r, n, hends, hknown⟩ | ⟨state', n, hpos, hagain, hback⟩
    · exact ⟨r, n, loop_leave hends, hknown⟩
    · obtain ⟨c', hreaches, hgoes⟩ := loop_behind hagain hpos
      have hlength := hreaches.length
      obtain ⟨r, m, hends, hknown⟩ := ih state' c' (by omega) (by omega)
      exact ⟨r, n + m, hgoes hends, hback c' r m hreaches hknown⟩

theorem forStatement (h : Ends call c r n) (hpos : 0 < n) :
    Ends (Parsing.forStatement call) c r n := by
  obtain ⟨c', hreaches, heq⟩ := h
  refine ⟨c'.record (.statement c.position c'.position), ?_, ?_⟩
  · refine hreaches.record rfl ⟨Nat.le_refl _, ?_, ?_⟩
    · rw [hreaches.position]
      omega
    · exact Nat.le_of_eq hreaches.position
  · rw [run_forStatement, heq]
    cases r <;> rfl

end Ends

/-! ## Calls and readers -/

variable {k : Nat}

/-- Wherever at most `k` items are left, the call reads what the reader does. -/
def Follows (call : Parsing α) (reader : List Located → α × Nat) (k : Nat) : Prop :=
  ∀ c : Cursor, c.rest.length ≤ k → Ends call c (.ok (reader c.rest).1) (reader c.rest).2

/-- One reader, and behind what it takes another one. -/
def andThen (reader : List Located → α × Nat) (next : α → List Located → β × Nat)
    (items : List Located) : β × Nat :=
  let (a, n) := reader items
  let (b, m) := next a (items.drop n)
  (b, n + m)

/-- From the cursor `c` on, a pass leaves the loop with all that the reader reads, or takes a part
of it and another pass has the rest before it. -/
def PassFollows (pass : σ → Parsing (Next σ α)) (reader : σ → List Located → α × Nat) (state : σ)
    (c : Cursor) : Prop :=
  Ends (pass state) c (.ok (.leave (reader state c.rest).1)) (reader state c.rest).2 ∨
    ∃ state' n, 0 < n ∧ Ends (pass state) c (.ok (.again state')) n ∧
      reader state c.rest = andThen (fun _ => (state', n)) reader c.rest

namespace Follows

variable {call : Parsing α} {reader : List Located → α × Nat}

theorem mono {j : Nat} (h : Follows call reader k) (hle : j ≤ k) : Follows call reader j :=
  fun c hj => h c (Nat.le_trans hj hle)

theorem bind {f : α → Parsing β} {next : α → List Located → β × Nat} (h : Follows call reader k)
    (hf : ∀ a, Follows (f a) (next a) k) : Follows (call >>= f) (andThen reader next) k := by
  intro c hk
  refine (h c hk).bind fun c' hreaches => ?_
  have hlength := hreaches.length
  have hnext := hf (reader c.rest).1 c' (by omega)
  rw [hreaches.rest] at hnext
  exact hnext

theorem loop {name : Loop} {pass : σ → Parsing (Next σ α)} {reader : σ → List Located → α × Nat}
    {limit : Nat} (hpass : ∀ state c, c.rest.length ≤ k → PassFollows pass reader state c)
    (hlimit : k < limit) (state : σ) :
    Follows (Parsing.loop name pass limit state) (reader state) k := by
  intro c hk
  suffices hloop : ∃ r n, Ends (Parsing.loop name pass limit state) c r n ∧
      r = .ok (reader state c.rest).1 ∧ n = (reader state c.rest).2 by
    obtain ⟨r, n, hends, rfl, rfl⟩ := hloop
    exact hends
  refine Ends.loop (fun state c r n =>
    r = .ok (reader state c.rest).1 ∧ n = (reader state c.rest).2) (fun state c hk => ?_)
    hlimit state c hk
  rcases hpass state c hk with hleave | ⟨state', n, hpos, hagain, heq⟩
  · exact Or.inl ⟨.ok (reader state c.rest).1, _, hleave, rfl, rfl⟩
  · refine Or.inr ⟨state', n, hpos, hagain, fun c' r m hreaches hknown => ?_⟩
    obtain ⟨rfl, rfl⟩ := hknown
    rw [heq, hreaches.rest]
    exact ⟨rfl, rfl⟩

theorem skipWhile {name : Loop} {kind : Item → Bool} {limit : Nat} (heof : kind .eof = false)
    (hlimit : k < limit) :
    Follows (Parsing.skipWhile name kind limit)
      (fun items => ((), (items.takeWhile fun l => kind l.item).length)) k := by
  have hpass : ∀ (state : Unit) (c : Cursor), c.rest.length ≤ k → PassFollows (fun () => do
      if kind (← Parsing.peek) then
        Parsing.advance
        return .again ()
      else
        return .leave ())
      (fun _ items => ((), (items.takeWhile fun l => kind l.item).length)) state c := ?_
  · exact loop hpass hlimit ()
  intro _ c _
  cases hrest : c.rest with
  | nil =>
    refine Or.inl (.peek (Cursor.item_of_nil hrest) ?_)
    rw [heof, hrest]
    exact .pure _ c
  | cons l ls =>
    by_cases hl : kind l.item = true
    · refine Or.inr ⟨(), 1, Nat.one_pos, .peek (Cursor.item_of_cons hrest) ?_, ?_⟩
      · rw [if_pos hl]
        exact .again hrest ()
      · unfold andThen
        dsimp only
        rw [hrest, List.takeWhile_cons, if_pos hl, List.length_cons, Nat.add_comm]
        rfl
    · refine Or.inl (.peek (Cursor.item_of_cons hrest) ?_)
      dsimp only
      rw [if_neg hl, hrest, List.takeWhile_cons, if_neg hl]
      exact .pure _ c

theorem skip {item : Item} (h : item ≠ .eof) (k : Nat) :
    Follows (Parsing.skip item) (fun items =>
      if items.head?.map Located.item = some item then (true, 1) else (false, 0)) k := by
  intro c _
  dsimp only
  split
  · next hhead =>
    obtain ⟨l, ls, hrest, hl⟩ := exists_of_head hhead
    exact .skip_true hrest hl
  · next hhead => exact ⟨c, .refl c, Parsing.run_skip_of_ne (Cursor.item_ne h hhead)⟩

end Follows

/-- Wherever at most `k` items are left, the call comes to what the reader does, which may refuse
the document. Where a statement starts, it takes an item. -/
def Parses (call : Parsing α) (reader : Nat → List Located → Except ParseError (α × Nat))
    (k : Nat) : Prop :=
  ∀ c : Cursor, c.rest.length ≤ k → ∃ r n, Ends call c r n ∧
    (startsStatement c.item = true → 0 < n) ∧ reader c.lastLine c.rest = r.map fun a => (a, n)

/-- From the cursor `c` on, a pass leaves the loop with what the reader comes to, or takes a part of
it and another pass has the rest before it. -/
def PassParses (pass : σ → Parsing (Next σ α))
    (reader : σ → Nat → List Located → Except ParseError (α × Nat)) (state : σ) (c : Cursor) :
    Prop :=
  (∃ (r : Except ParseError α) (n : Nat), Ends (pass state) c (r.map .leave) n ∧
    (startsStatement c.item = true → 0 < n) ∧
    reader state c.lastLine c.rest = r.map fun a => (a, n)) ∨
  ∃ state' n, 0 < n ∧ Ends (pass state) c (.ok (.again state')) n ∧
    reader state c.lastLine c.rest =
      (reader state' c.lastLine (c.rest.drop n)).map fun read => (read.1, n + read.2)

theorem Parses.loop {name : Loop} {pass : σ → Parsing (Next σ α)}
    {reader : σ → Nat → List Located → Except ParseError (α × Nat)} {limit : Nat}
    (hpass : ∀ state c, c.rest.length ≤ k → PassParses pass reader state c) (hlimit : k < limit)
    (state : σ) : Parses (Parsing.loop name pass limit state) (reader state) k := by
  intro c hk
  refine Ends.loop (fun state c r n => (startsStatement c.item = true → 0 < n) ∧
    reader state c.lastLine c.rest = r.map fun a => (a, n)) (fun state c hk => ?_) hlimit state c hk
  refine (hpass state c hk).imp_right ?_
  rintro ⟨state', n, hpos, hagain, heq⟩
  refine ⟨state', n, hpos, hagain, fun c' r m hreaches hknown => ⟨fun _ => by omega, ?_⟩⟩
  rw [heq, ← hreaches.rest, ← hreaches.lastLine, hknown.2]
  cases r <;> rfl

end StyleWeave.Syntax
