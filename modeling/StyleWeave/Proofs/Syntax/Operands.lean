import StyleWeave.Proofs.Syntax.Printing
import StyleWeave.Proofs.Syntax.Statements

/-!
# Reading printed expressions

The items of a printed expression are read as the expression. The reader adds operands to the left
as they come, so what is shown of an expression is where adding goes on behind it (`Chains`).
-/

namespace StyleWeave.Syntax

variable {e left right : Expr} {ts ts' : List Item} {xs tail : List Located}

/-- The items are read as an operand, unless a parenthesis follows. -/
def IsOperand (e : Expr) (ts : List Item) : Prop :=
  ∀ (xs tail : List Located), xs.map Located.item = ts → startsWith .openParen tail = false →
    primary (xs ++ tail) = (e, xs.length)

/-- The items are read as operands that are added up to the expression, and what follows is added
to it. -/
def Chains (e : Expr) (ts : List Item) : Prop :=
  ∀ (xs tail : List Located), xs.map Located.item = ts → startsWith .openParen tail = false →
    ∃ first n k, primary (xs ++ tail) = (first, n) ∧ n + k = xs.length ∧
      sum first ((xs ++ tail).drop n) = ((sum e tail).1, k + (sum e tail).2)

theorem IsOperand.chains (h : IsOperand e ts) : Chains e ts := by
  intro xs tail hxs htail
  refine ⟨e, xs.length, 0, h xs tail hxs htail, Nat.add_zero _, ?_⟩
  rw [List.drop_left' rfl, Nat.zero_add]

theorem startsWith_of_item {t : Token} {l : Located} {ls : List Located} (h : l.item = .token t) :
    startsWith t (l :: ls) = true := by
  simp [startsWith, h]

theorem not_startsWith_of_item {t : Token} {l : Located} {ls : List Located}
    (h : l.item ≠ .token t) : startsWith t (l :: ls) = false := by
  simp [startsWith, h]

theorem sum_of_atEnd (left : Expr) (h : atEnd tail = true) : sum left tail = (left, 0) := by
  cases tail with
  | nil => rw [sum.eq_def]
  | cons l ls =>
    have hplus : l.item ≠ .token .plus := by
      intro heq
      simp [atEnd, heq, endsExpr] at h
    rw [sum.eq_def]
    simp [hplus]

theorem not_startsWith_of_atEnd (h : atEnd tail = true) : startsWith .openParen tail = false := by
  cases tail with
  | nil => rfl
  | cons l ls =>
    refine not_startsWith_of_item fun heq => ?_
    simp [atEnd, heq, endsExpr] at h

/-- Where nothing can be added, the expression ends. -/
theorem Chains.expression (h : Chains e ts) (hxs : xs.map Located.item = ts)
    (htail : atEnd tail = true) : expression (xs ++ tail) = (e, xs.length) := by
  obtain ⟨first, n, k, hfirst, hlength, hsum⟩ := h xs tail hxs (not_startsWith_of_atEnd htail)
  rw [sum_of_atEnd e htail] at hsum
  have hdrop : (xs ++ tail).drop (n + k) = tail := by rw [hlength, List.drop_left' rfl]
  rw [expression.eq_def, hfirst]
  dsimp only
  rw [hsum]
  dsimp only
  rw [Nat.add_zero, hdrop, if_pos htail, hlength]

/-- A sum in parentheses is an operand. -/
theorem Chains.parens (h : Chains e ts) :
    IsOperand e (.token .openParen :: (ts ++ [.token .closeParen])) := by
  intro xs tail hxs _
  obtain ⟨l, ls, rfl, hl, hls⟩ := List.map_eq_cons_iff.1 hxs
  obtain ⟨inner, close, rfl, hinner, hclose⟩ := List.map_eq_append_iff.1 hls
  obtain ⟨r, rs, rfl, hr, hrs⟩ := List.map_eq_cons_iff.1 hclose
  obtain rfl := List.map_eq_nil_iff.1 hrs
  have hend : atEnd (r :: tail) = true := by simp [atEnd, hr, endsExpr]
  have hread := h.expression hinner hend
  have htext : (l :: (inner ++ [r])) ++ tail = l :: (inner ++ r :: tail) := by simp
  have hdrop : (inner ++ r :: tail).drop inner.length = r :: tail := List.drop_left' rfl
  rw [htext, primary.eq_def]
  simp only [hl, hread, hdrop, startsWith_of_item hr, if_true]
  rw [List.length_cons, List.length_append]
  congr 1
  simp
  omega

theorem Chains.concat (hleft : Chains left ts) (hright : IsOperand right ts') :
    Chains (.concat left right) (ts ++ .token .plus :: ts') := by
  intro xs tail hxs htail
  obtain ⟨as, rest, rfl, has, hrest⟩ := List.map_eq_append_iff.1 hxs
  obtain ⟨p, bs, rfl, hp, hbs⟩ := List.map_eq_cons_iff.1 hrest
  have hnext : startsWith .openParen (p :: (bs ++ tail)) = false :=
    not_startsWith_of_item (by simp [hp])
  obtain ⟨first, n, k, hfirst, hlength, hsum⟩ := hleft as (p :: (bs ++ tail)) has hnext
  have hread := hright bs tail hbs htail
  have hstep : sum left (p :: (bs ++ tail)) =
      ((sum (.concat left right) tail).1, 1 + bs.length + (sum (.concat left right) tail).2) := by
    rw [sum.eq_def]
    simp only [hp, if_true, hread]
    rw [List.drop_left' rfl]
  refine ⟨first, n, k + (1 + bs.length), ?_, ?_, ?_⟩
  · rw [List.append_assoc]
    exact hfirst
  · rw [List.length_append, List.length_cons]
    omega
  · rw [List.append_assoc, List.cons_append, hsum, hstep]
    congr 1
    omega

theorem isOperand_literal (text : String) :
    IsOperand (.literal text) [.token (.string text)] := by
  intro xs tail hxs _
  obtain ⟨l, ls, rfl, hl, hls⟩ := List.map_eq_cons_iff.1 hxs
  obtain rfl := List.map_eq_nil_iff.1 hls
  rw [List.singleton_append, primary.eq_def]
  simp only [hl]
  rfl

theorem isOperand_ident (name : String) : IsOperand (.ident name) [.token (.ident name)] := by
  intro xs tail hxs htail
  obtain ⟨l, ls, rfl, hl, hls⟩ := List.map_eq_cons_iff.1 hxs
  obtain rfl := List.map_eq_nil_iff.1 hls
  rw [List.singleton_append, primary.eq_def]
  simp only [hl, htail, Bool.false_eq_true, if_false]
  rfl

/-! ## Lists of expressions -/

/-- A printed expression starts with this item. -/
def startsOperand : Item → Bool
  | .token (.string _) | .token (.ident _) => true
  | _ => false

theorem starts_items (h : e.Printable) : ∃ t ts, e.items = t :: ts ∧ startsOperand t = true := by
  induction h with
  | literal _ | ident _ => exact ⟨_, _, rfl, rfl⟩
  | @concat left right _ _ ihLeft _ =>
    obtain ⟨t, ts, hleft, ht⟩ := ihLeft
    exact ⟨t, _, (by rw [Expr.items, hleft, List.cons_append]), ht⟩
  | call _ _ _ _ => exact ⟨_, _, rfl, rfl⟩

theorem arguments_of_starts {l : Located} {ls : List Located} (h : startsOperand l.item = true) :
    arguments (l :: ls) =
      ((expression (l :: ls)).1 :: (arguments (ls.drop ((expression (l :: ls)).2 - 1))).1,
        (expression (l :: ls)).2 - 1 + 1 +
          (arguments (ls.drop ((expression (l :: ls)).2 - 1))).2) := by
  rw [arguments.eq_def]
  dsimp only
  split <;> first | rfl | simp_all [startsOperand]

/-- The expressions are those of the items: each is printable and read as what it is. -/
def AllChain (es : List Expr) : Prop :=
  ∀ e ∈ es, e.Printable ∧ Chains e e.items

/-- In a list, an expression ends behind its items. -/
theorem atEnd_of_rest {es : List Expr} (hxs : xs.map Located.item = Expr.itemsOfRest es)
    (htail : atEnd tail = true) : atEnd (xs ++ tail) = true := by
  cases es with
  | nil =>
    obtain rfl := List.map_eq_nil_iff.1 hxs
    exact htail
  | cons e es =>
    obtain ⟨l, ls, rfl, hl, -⟩ := List.map_eq_cons_iff.1 hxs
    simp [atEnd, hl, endsExpr]

theorem arguments_cons {es : List Expr} {ys : List Located} (he : e.Printable ∧ Chains e e.items)
    (hxs : xs.map Located.item = e.items) (hend : atEnd (ys ++ tail) = true)
    (hrest : arguments (ys ++ tail) = (es, ys.length)) :
    arguments (xs ++ (ys ++ tail)) = (e :: es, xs.length + ys.length) := by
  obtain ⟨t, ts, hitems, ht⟩ := starts_items he.1
  have hread := he.2.expression hxs hend
  rw [hitems] at hxs
  obtain ⟨l, ls, rfl, rfl, -⟩ := List.map_eq_cons_iff.1 hxs
  rw [List.cons_append] at hread ⊢
  have hdrop : (ls ++ (ys ++ tail)).drop ((l :: ls).length - 1) = ys ++ tail := List.drop_left' rfl
  rw [arguments_of_starts ht, hread]
  dsimp only
  rw [hdrop, hrest, List.length_cons]
  rfl

theorem arguments_of_close (htail : startsWith .closeParen tail = true) :
    arguments tail = ([], 0) := by
  cases tail with
  | nil => cases htail
  | cons l ls =>
    have hl : l.item = .token .closeParen := by simpa [startsWith] using htail
    rw [arguments.eq_def]
    simp [hl]

theorem atEnd_of_close (htail : startsWith .closeParen tail = true) : atEnd tail = true := by
  cases tail with
  | nil => rfl
  | cons l ls =>
    have hl : l.item = .token .closeParen := by simpa [startsWith] using htail
    simp [atEnd, hl, endsExpr]

theorem arguments_rest {es : List Expr} (h : AllChain es)
    (hxs : xs.map Located.item = Expr.itemsOfRest es) (htail : startsWith .closeParen tail = true) :
    arguments (xs ++ tail) = (es, xs.length) := by
  induction es generalizing xs with
  | nil =>
    obtain rfl := List.map_eq_nil_iff.1 hxs
    exact arguments_of_close htail
  | cons e es ih =>
    obtain ⟨comma, rest, rfl, hcomma, hrest⟩ := List.map_eq_cons_iff.1 hxs
    obtain ⟨as, bs, rfl, has, hbs⟩ := List.map_eq_append_iff.1 hrest
    have hmore := ih (fun e' he' => h e' (List.mem_cons_of_mem _ he')) hbs
    have hread := arguments_cons (h e List.mem_cons_self) has
      (atEnd_of_rest hbs (atEnd_of_close htail)) hmore
    rw [List.cons_append, List.append_assoc, arguments.eq_def]
    simp only [hcomma, hread, List.length_cons, List.length_append]

theorem arguments_all {es : List Expr} (h : AllChain es)
    (hxs : xs.map Located.item = Expr.itemsOfAll es) (htail : startsWith .closeParen tail = true) :
    arguments (xs ++ tail) = (es, xs.length) := by
  cases es with
  | nil =>
    obtain rfl := List.map_eq_nil_iff.1 hxs
    exact arguments_of_close htail
  | cons e es =>
    obtain ⟨as, bs, rfl, has, hbs⟩ := List.map_eq_append_iff.1 hxs
    have hmore := arguments_rest (fun e' he' => h e' (List.mem_cons_of_mem _ he')) hbs htail
    rw [List.append_assoc, List.length_append]
    exact arguments_cons (h e List.mem_cons_self) has
      (atEnd_of_rest hbs (atEnd_of_close htail)) hmore

theorem isOperand_call (function : String) {args : List Expr} (h : AllChain args) :
    IsOperand (.call function args) (.token (.ident function) :: .token .openParen ::
      (Expr.itemsOfAll args ++ [.token .closeParen])) := by
  intro xs tail hxs _
  obtain ⟨l, ls, rfl, hl, hls⟩ := List.map_eq_cons_iff.1 hxs
  obtain ⟨p, ps, rfl, hp, hps⟩ := List.map_eq_cons_iff.1 hls
  obtain ⟨inside, close, rfl, hinside, hclose⟩ := List.map_eq_append_iff.1 hps
  obtain ⟨r, rs, rfl, hr, hrs⟩ := List.map_eq_cons_iff.1 hclose
  obtain rfl := List.map_eq_nil_iff.1 hrs
  have hclose : startsWith .closeParen (r :: tail) = true := startsWith_of_item hr
  have hread := arguments_all h hinside hclose
  have htext : l :: p :: (inside ++ [r]) ++ tail = l :: p :: (inside ++ r :: tail) := by simp
  have hdrop : (p :: (inside ++ r :: tail)).drop (1 + inside.length) = r :: tail := by
    rw [Nat.add_comm, List.drop_succ_cons, List.drop_left' rfl]
  rw [htext, primary.eq_def]
  simp only [hl, startsWith_of_item hp, if_true, List.drop_succ_cons, List.drop_zero, hread, hdrop,
    count, hclose]
  congr 1
  simp
  omega

/-- The items of a printed expression are read as the expression. -/
theorem chains_of_printable (h : e.Printable) :
    Chains e e.items ∧ (e.isSum = false → IsOperand e e.items) := by
  induction h with
  | literal _ => exact ⟨(isOperand_literal _).chains, fun _ => isOperand_literal _⟩
  | ident _ => exact ⟨(isOperand_ident _).chains, fun _ => isOperand_ident _⟩
  | @concat left right _ _ ihLeft ihRight =>
    refine ⟨?_, fun hsum => by cases hsum⟩
    rw [Expr.items]
    by_cases hsum : right.isSum = true
    · rw [if_pos hsum]
      exact ihLeft.1.concat ihRight.1.parens
    · rw [if_neg hsum]
      exact ihLeft.1.concat (ihRight.2 (Bool.eq_false_iff.2 hsum))
  | @call function args _ _ hargs ih =>
    have hread := isOperand_call function fun arg harg => ⟨hargs arg harg, (ih arg harg).1⟩
    exact ⟨hread.chains, fun _ => hread⟩

theorem expression_of_printable (h : e.Printable) (hxs : xs.map Located.item = e.items)
    (htail : atEnd tail = true) : expression (xs ++ tail) = (e, xs.length) :=
  (chains_of_printable h).1.expression hxs htail

/-! ## Import lists -/

theorem expressions_of_expression {items ls : List Located} {n : Nat} {l : Located}
    (hread : expression items = (e, n)) (hdrop : items.drop n = l :: ls) :
    expressions items =
      if l.item = .token .comma then
        (e :: (expressions (ls.drop (afterComma ls).1)).1,
          (expressions (ls.drop (afterComma ls).1)).2.1 + (afterComma ls).2.toNat,
          n + 1 + (afterComma ls).1 + (expressions (ls.drop (afterComma ls).1)).2.2)
      else ([e], 0, n) := by
  rw [expressions_eq, hread]
  dsimp only
  rw [hdrop]

theorem afterComma_of_starts {l : Located} {ls : List Located} (h : startsOperand l.item = true) :
    afterComma (l :: ls) = (0, false) := by
  have hnewline : l.item ≠ .token .newline := by
    intro heq
    rw [heq] at h
    cases h
  have hindent : l.item ≠ .indent := by
    intro heq
    rw [heq] at h
    cases h
  simp [afterComma, newlines, hnewline, hindent]

/-- The items of a printed list are read as the expressions of the list. -/
theorem expressions_of_printable {es : List Expr} (h : ∀ e' ∈ e :: es, e'.Printable)
    (hxs : xs.map Located.item = Expr.itemsOfAll (e :: es))
    (htail : startsWith .newline tail = true) :
    expressions (xs ++ tail) = (e :: es, 0, xs.length) := by
  obtain ⟨l, ls, rfl⟩ : ∃ l ls, tail = l :: ls := by
    cases tail with
    | nil => cases htail
    | cons l ls => exact ⟨l, ls, rfl⟩
  have hl : l.item = .token .newline := by simpa [startsWith] using htail
  have hend : atEnd (l :: ls) = true := by simp [atEnd, hl, endsExpr]
  induction es generalizing e xs with
  | nil =>
    obtain ⟨as, bs, rfl, has, hbs⟩ := List.map_eq_append_iff.1 hxs
    obtain rfl := List.map_eq_nil_iff.1 hbs
    rw [List.append_nil]
    have hread := expression_of_printable (h e List.mem_cons_self) has hend
    rw [expressions_of_expression hread (List.drop_left' rfl), if_neg (by simp [hl])]
  | cons e' es ih =>
    obtain ⟨as, bs, rfl, has, hbs⟩ := List.map_eq_append_iff.1 hxs
    have hmore := atEnd_of_rest hbs hend
    have hread := expression_of_printable (h e List.mem_cons_self) has hmore
    obtain ⟨comma, rest, rfl, hcomma, hrest⟩ := List.map_eq_cons_iff.1 hbs
    have hothers : expressions (rest ++ l :: ls) = (e' :: es, 0, rest.length) :=
      ih (fun e'' he => h e'' (List.mem_cons_of_mem _ he)) hrest
    have hafter : afterComma (rest ++ l :: ls) = (0, false) := by
      obtain ⟨t, ts, hitems, ht⟩ := starts_items (h e' (by simp))
      rw [hitems] at hrest
      obtain ⟨r, rs, rfl, rfl, -⟩ := List.map_eq_cons_iff.1 hrest
      exact afterComma_of_starts ht
    have hdrop : (as ++ (comma :: rest ++ l :: ls)).drop as.length = comma :: (rest ++ l :: ls) :=
      List.drop_left' rfl
    rw [List.append_assoc, expressions_of_expression hread hdrop, if_pos hcomma, hafter]
    simp only [List.drop_zero, hothers, List.length_append, List.length_cons]
    congr 2
    omega

end StyleWeave.Syntax
