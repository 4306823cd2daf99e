import StyleWeave.Token.Basic

/-!
# Brackets

The brackets of a token stream: parentheses, braces, and the indentation that opens and closes
blocks. They are nested if each closing bracket closes the innermost one that is open, and nothing
stays open (`Nested`).
-/

namespace StyleWeave

/-- What brackets enclose. -/
inductive Enclosure where
  | parens
  | braces
  /-- A block opened by indentation. -/
  | block
  deriving DecidableEq, Repr

/-- A bracket, or indentation that serves as one. -/
inductive Bracket where
  | opening (e : Enclosure)
  | closing (e : Enclosure)
  deriving DecidableEq, Repr

def Bracket.enclosure : Bracket → Enclosure
  | opening e | closing e => e

/-- The bracket that an item is, if it is one. -/
def Item.bracket? : Item → Option Bracket
  | .token .openParen => some (.opening .parens)
  | .token .closeParen => some (.closing .parens)
  | .token .openBrace => some (.opening .braces)
  | .token .closeBrace => some (.closing .braces)
  | .indent => some (.opening .block)
  | .dedent => some (.closing .block)
  | _ => none

/-- The item that is the bracket. -/
def Bracket.item : Bracket → Item
  | opening .parens => .token .openParen
  | closing .parens => .token .closeParen
  | opening .braces => .token .openBrace
  | closing .braces => .token .closeBrace
  | opening .block => .indent
  | closing .block => .dedent

/-- The brackets among some items. -/
def brackets (items : List Located) : List Bracket :=
  items.filterMap fun l => l.item.bracket?

/-- The brackets of some kinds. -/
def only (kinds : List Enclosure) (w : List Bracket) : List Bracket :=
  w.filter fun b => b.enclosure ∈ kinds

/-- What is open behind some brackets, the innermost first, if `stack` is open in front of them.
There is no answer if one of them closes anything but the innermost. -/
def walk : List Enclosure → List Bracket → Option (List Enclosure)
  | stack, [] => some stack
  | stack, .opening e :: w => walk (e :: stack) w
  | [], .closing _ :: _ => none
  | inner :: stack, .closing e :: w => if inner = e then walk stack w else none

/-- Each closing bracket of these kinds closes the innermost open one of them, and nothing stays
open. -/
def Nested (kinds : List Enclosure) (items : List Located) : Prop :=
  walk [] (only kinds (brackets items)) = some []

instance (kinds : List Enclosure) (items : List Located) : Decidable (Nested kinds items) :=
  inferInstanceAs (Decidable (_ = _))

theorem Item.bracket?_eq_some {item : Item} {b : Bracket} :
    item.bracket? = some b ↔ item = b.item := by
  constructor
  · intro h
    unfold bracket? at h
    split at h
    all_goals first | (obtain rfl := Option.some.inj h; rfl) | cases h
  · rintro rfl
    rcases b with e | e
    · cases e <;> rfl
    · cases e <;> rfl

@[simp] theorem brackets_nil : brackets [] = [] := rfl

@[simp] theorem brackets_append (items items' : List Located) :
    brackets (items ++ items') = brackets items ++ brackets items' :=
  List.filterMap_append

theorem brackets_cons (l : Located) (ls : List Located) :
    brackets (l :: ls) = l.item.bracket?.toList ++ brackets ls := by
  unfold brackets
  rw [List.filterMap_cons]
  cases l.item.bracket? <;> rfl

theorem brackets_cons_of_none {l : Located} {ls : List Located} (h : l.item.bracket? = none) :
    brackets (l :: ls) = brackets ls := by
  rw [brackets_cons, h]
  rfl

theorem brackets_cons_of_some {l : Located} {ls : List Located} {b : Bracket}
    (h : l.item.bracket? = some b) : brackets (l :: ls) = b :: brackets ls := by
  rw [brackets_cons, h]
  rfl

theorem brackets_eq_nil {items : List Located} (h : ∀ l ∈ items, l.item.bracket? = none) :
    brackets items = [] :=
  List.filterMap_eq_nil_iff.2 h

@[simp] theorem only_append (kinds : List Enclosure) (w w' : List Bracket) :
    only kinds (w ++ w') = only kinds w ++ only kinds w' :=
  List.filter_append _ _

variable {kinds stack stack' below : List Enclosure} {w w' : List Bracket} {e : Enclosure}

theorem only_cons_of_mem {b : Bracket} (h : b.enclosure ∈ kinds) :
    only kinds (b :: w) = b :: only kinds w :=
  List.filter_cons_of_pos (decide_eq_true h)

theorem only_cons_of_not_mem {b : Bracket} (h : b.enclosure ∉ kinds) :
    only kinds (b :: w) = only kinds w :=
  List.filter_cons_of_neg (by simpa using h)

/-! ## Walking past brackets -/

theorem walk_closing : walk stack (.closing e :: w) = some stack' ↔
    ∃ below, stack = e :: below ∧ walk below w = some stack' := by
  cases stack with
  | nil => simp [walk]
  | cons inner stack =>
    by_cases h : inner = e
    · simp [walk, h]
    · simp [walk, h]

theorem walk_append : walk stack (w ++ w') = some stack' ↔
    ∃ between, walk stack w = some between ∧ walk between w' = some stack' := by
  induction w generalizing stack with
  | nil => simp [walk]
  | cons b w ih =>
    cases b with
    | opening e => exact ih
    | closing e =>
      rw [List.cons_append, walk_closing]
      constructor
      · rintro ⟨below, hstack, hrest⟩
        obtain ⟨between, hfirst, hsecond⟩ := ih.1 hrest
        exact ⟨between, walk_closing.2 ⟨below, hstack, hfirst⟩, hsecond⟩
      · rintro ⟨between, hfirst, hsecond⟩
        obtain ⟨below, hstack, hrest⟩ := walk_closing.1 hfirst
        exact ⟨below, hstack, ih.2 ⟨between, hrest, hsecond⟩⟩

/-- What is open further out makes no difference. -/
theorem walk_below (h : walk stack w = some stack') (below : List Enclosure) :
    walk (stack ++ below) w = some (stack' ++ below) := by
  induction w generalizing stack with
  | nil =>
    obtain rfl := Option.some.inj h
    rfl
  | cons b w ih =>
    cases b with
    | opening e => exact ih h
    | closing e =>
      obtain ⟨inner, rfl, hrest⟩ := walk_closing.1 h
      exact walk_closing.2 ⟨inner ++ below, rfl, ih hrest⟩

/-- Brackets that are nested stay nested when kinds of them are left out. -/
theorem walk_only (h : walk stack w = some stack') (kinds : List Enclosure) :
    walk (stack.filter (· ∈ kinds)) (only kinds w) = some (stack'.filter (· ∈ kinds)) := by
  induction w generalizing stack with
  | nil =>
    obtain rfl := Option.some.inj h
    rfl
  | cons b w ih =>
    cases b with
    | opening e =>
      have hrest := ih h
      by_cases he : e ∈ kinds
      · rw [List.filter_cons_of_pos (by simpa using he)] at hrest
        rw [only_cons_of_mem he]
        exact hrest
      · rw [List.filter_cons_of_neg (by simpa using he)] at hrest
        rw [only_cons_of_not_mem he]
        exact hrest
    | closing e =>
      obtain ⟨below, rfl, hbelow⟩ := walk_closing.1 h
      have hrest := ih hbelow
      by_cases he : e ∈ kinds
      · rw [List.filter_cons_of_pos (by simpa using he), only_cons_of_mem he]
        exact walk_closing.2 ⟨_, rfl, hrest⟩
      · rw [List.filter_cons_of_neg (by simpa using he), only_cons_of_not_mem he]
        exact hrest

/-- Only what brackets of these kinds have opened is open behind them. -/
theorem mem_of_walk_only (h : walk [] (only kinds w) = some stack) (he : e ∈ stack) :
    e ∈ kinds := by
  have hsame : only kinds (only kinds w) = only kinds w := by
    unfold only
    rw [List.filter_filter]
    simp
  have hfilter := walk_only h kinds
  rw [hsame] at hfilter
  have hstack := Option.some.inj (h.symm.trans hfilter)
  rw [hstack] at he
  exact of_decide_eq_true (List.mem_filter.1 he).2

/-! ## Counting brackets -/

/-- How many more brackets of a kind are opened than are closed. -/
def surplus (e : Enclosure) (w : List Bracket) : Int :=
  w.count (.opening e) - w.count (.closing e)

@[simp] theorem surplus_nil (e : Enclosure) : surplus e [] = 0 := rfl

@[simp] theorem surplus_append (e : Enclosure) (w w' : List Bracket) :
    surplus e (w ++ w') = surplus e w + surplus e w' := by
  unfold surplus
  rw [List.count_append, List.count_append]
  omega

theorem surplus_opening (e : Enclosure) (w : List Bracket) :
    surplus e (.opening e :: w) = surplus e w + 1 := by
  unfold surplus
  rw [List.count_cons_self, List.count_cons_of_ne (by simp)]
  omega

theorem surplus_closing (e : Enclosure) (w : List Bracket) :
    surplus e (.closing e :: w) = surplus e w - 1 := by
  unfold surplus
  rw [List.count_cons_self, List.count_cons_of_ne (by simp)]
  omega

theorem surplus_cons_of_ne {b : Bracket} (h : b.enclosure ≠ e) (w : List Bracket) :
    surplus e (b :: w) = surplus e w := by
  have hne : ∀ c : Bracket, c.enclosure = e → b ≠ c := by
    rintro c hc rfl
    exact h hc
  unfold surplus
  rw [List.count_cons_of_ne (hne _ rfl), List.count_cons_of_ne (hne _ rfl)]

theorem surplus_only (h : e ∈ kinds) (w : List Bracket) :
    surplus e (only kinds w) = surplus e w := by
  have hcount : ∀ b : Bracket, b.enclosure = e → (only kinds w).count b = w.count b := by
    intro b hb
    refine List.count_filter ?_
    simpa [hb] using h
  unfold surplus
  rw [hcount _ rfl, hcount _ rfl]

/-- What is open behind some brackets was open before or has been opened. -/
theorem surplus_walk (h : walk stack w = some stack') (e : Enclosure) :
    surplus e w = stack'.count e - stack.count e := by
  induction w generalizing stack with
  | nil =>
    obtain rfl := Option.some.inj h
    rw [surplus_nil]
    omega
  | cons b w ih =>
    cases b with
    | opening inner =>
      have hrest := ih h
      by_cases he : inner = e
      · subst he
        rw [surplus_opening, hrest, List.count_cons_self]
        omega
      · rw [surplus_cons_of_ne (b := .opening inner) he, hrest, List.count_cons_of_ne he]
    | closing inner =>
      obtain ⟨below, rfl, hbelow⟩ := walk_closing.1 h
      have hrest := ih hbelow
      by_cases he : inner = e
      · subst he
        rw [surplus_closing, hrest, List.count_cons_self]
        omega
      · rw [surplus_cons_of_ne (b := .closing inner) he, hrest, List.count_cons_of_ne he]

end StyleWeave
