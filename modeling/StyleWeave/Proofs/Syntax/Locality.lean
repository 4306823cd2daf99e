import StyleWeave.Proofs.Syntax.Brackets

/-!
# How far readers look

The readers of expressions and headings look no further than at the item behind those that they
take. How many items they take depends on little of each item, so little that a line break might be
a brace (`Like`, `Item.shape`); what they read, on the items but not on their places (`Same`).
-/

namespace StyleWeave

/-- What of an item the readers of expressions count by. -/
def Item.shape : Item → Item
  | .token .newline => .token .openBrace
  | .token (.punct _) => .token (.punct "")
  | item => item

namespace Syntax

/-- The first `n` items of two lists have the same shapes. -/
def Like (n : Nat) (xs ys : List Located) : Prop :=
  (xs.map fun l => l.item.shape).take n = (ys.map fun l => l.item.shape).take n

variable {n k : Nat} {xs ys ls ls' : List Located} {l l' : Located}

theorem Like.mono (h : Like n xs ys) (hle : k ≤ n) : Like k xs ys := by
  have htake := congrArg (List.take k) h
  rwa [List.take_take, List.take_take, Nat.min_eq_left hle] at htake

theorem Like.cons_iff :
    Like (n + 1) (l :: ls) (l' :: ls') ↔ l.item.shape = l'.item.shape ∧ Like n ls ls' := by
  unfold Like
  rw [List.map_cons, List.map_cons, List.take_succ_cons, List.take_succ_cons, List.cons.injEq]

theorem Like.nil (h : Like (n + 1) [] ys) : ys = [] := by
  cases ys with
  | nil => rfl
  | cons l ys => cases h

theorem Like.cons (h : Like (n + 1) (l :: ls) ys) :
    ∃ l' ls', ys = l' :: ls' ∧ l.item.shape = l'.item.shape ∧ Like n ls ls' := by
  cases ys with
  | nil => cases h
  | cons l' ls' => exact ⟨l', ls', rfl, cons_iff.1 h⟩

theorem Like.drop (h : Like (k + n) xs ys) : Like n (xs.drop k) (ys.drop k) := by
  have hdrop := congrArg (List.drop k) h
  rw [List.drop_take, List.drop_take, Nat.add_sub_cancel_left] at hdrop
  unfold Like
  rwa [List.map_drop, List.map_drop]

/-! ## What is read of the shape -/

theorem endsExpr_shape (item : Item) : endsExpr item.shape = endsExpr item := by
  cases item with
  | token t => cases t <;> rfl
  | _ => rfl

theorem endsStatement_shape (item : Item) : endsStatement item.shape = endsStatement item := by
  cases item with
  | token t => cases t <;> rfl
  | _ => rfl

/-- The token is told by its shape. -/
def Told (t : Token) : Prop :=
  ∀ item : Item, item.shape = .token t ↔ item = .token t

theorem told_openParen : Told .openParen := by
  intro item
  cases item with
  | token t => cases t <;> simp [Item.shape]
  | _ => simp [Item.shape]

theorem told_closeParen : Told .closeParen := by
  intro item
  cases item with
  | token t => cases t <;> simp [Item.shape]
  | _ => simp [Item.shape]

theorem told_plus : Told .plus := by
  intro item
  cases item with
  | token t => cases t <;> simp [Item.shape]
  | _ => simp [Item.shape]

theorem Like.startsWith {t : Token} (ht : Told t) (h : Like (n + 1) xs ys) :
    startsWith t ys = startsWith t xs := by
  have hhead : xs.head?.map (fun l => l.item.shape) = ys.head?.map fun l => l.item.shape := by
    have hmono := h.mono (Nat.le_add_left 1 n)
    cases xs with
    | nil => rw [hmono.nil]
    | cons l ls =>
      obtain ⟨l', ls', rfl, hitem, -⟩ := hmono.cons
      exact congrArg some hitem
  unfold Syntax.startsWith
  cases xs with
  | nil =>
    cases ys with
    | nil => rfl
    | cons l ls => cases hhead
  | cons l ls =>
    cases ys with
    | nil => cases hhead
    | cons l' ls' =>
      have hitem := Option.some.inj hhead
      have hiff : l.item = .token t ↔ l'.item = .token t := by
        rw [← ht l.item, ← ht l'.item]
        exact iff_of_eq (congrArg (· = Item.token t) hitem)
      simp [hiff]

theorem Like.count {t : Token} (ht : Told t) (h : Like (n + 1) xs ys) :
    count t ys = count t xs := by
  unfold Syntax.count
  rw [h.startsWith ht]

theorem Like.atEnd (h : Like (n + 1) xs ys) : atEnd ys = atEnd xs := by
  unfold Syntax.atEnd
  cases xs with
  | nil => rw [h.nil]
  | cons l ls =>
    obtain ⟨l', ls', rfl, hitem, -⟩ := h.cons
    show endsExpr l'.item = endsExpr l.item
    rw [← endsExpr_shape, ← hitem, endsExpr_shape]

theorem exprRest_count (depth : Nat) (l : Located) (ls : List Located) :
    exprRest depth (l :: ls) =
      match l.item.shape with
      | .eof | .indent | .dedent => 0
      | .token .openParen => exprRest (depth + 1) ls + 1
      | .token .closeParen => if depth = 0 then 0 else exprRest (depth - 1) ls + 1
      | item => if depth = 0 && endsExpr item then 0 else exprRest depth ls + 1 := by
  rw [exprRest.eq_def]
  dsimp only
  cases l.item with
  | token t =>
    cases t with
    | closeParen => cases depth <;> rfl
    | _ => rfl
  | _ => rfl

/-- The rest of an expression ends at the same place. -/
theorem Like.exprRest {depth : Nat} (h : Like (exprRest depth xs + 1) xs ys) :
    exprRest depth ys = exprRest depth xs := by
  induction xs generalizing depth ys with
  | nil => rw [h.nil]
  | cons l ls ih =>
    obtain ⟨l', ls', rfl, hitem, hrest⟩ := h.cons
    rw [exprRest_count] at hrest ⊢
    rw [exprRest_count, ← hitem]
    split at hrest <;> try rfl
    · exact congrArg (· + 1) (ih hrest)
    · split at hrest
      · next hstop => rw [if_pos hstop, if_pos hstop]
      · next hgoes =>
        rw [if_neg hgoes, if_neg hgoes]
        exact congrArg (· + 1) (ih hrest)
    · split at hrest
      · next hstop => rw [if_pos hstop, if_pos hstop]
      · next hgoes =>
        rw [if_neg hgoes, if_neg hgoes]
        exact congrArg (· + 1) (ih hrest)

theorem Like.statementRest (h : Like (statementRest xs + 1) xs ys) :
    statementRest ys = statementRest xs := by
  induction xs generalizing ys with
  | nil => rw [h.nil]
  | cons l ls ih =>
    obtain ⟨l', ls', rfl, hitem, hrest⟩ := h.cons
    have hends : endsStatement l'.item = endsStatement l.item := by
      rw [← endsStatement_shape, ← hitem, endsStatement_shape]
    unfold Syntax.statementRest at hrest ⊢
    cases hl : endsStatement l.item with
    | true =>
      rw [hl] at hends
      rw [List.takeWhile_cons_of_neg (by simp [hends]), List.takeWhile_cons_of_neg (by simp [hl])]
    | false =>
      rw [hl] at hends
      rw [List.takeWhile_cons_of_pos (by simp [hl])] at hrest
      rw [List.takeWhile_cons_of_pos (by simp [hends]), List.takeWhile_cons_of_pos (by simp [hl])]
      exact congrArg (· + 1) (ih hrest)

/-! ## Expressions -/

theorem primary_count (l : Located) (ls : List Located) :
    (primary (l :: ls)).2 =
      match l.item.shape with
      | .token (.ident _) =>
        if startsWith .openParen ls then
          2 + (arguments (ls.drop 1)).2 +
            count .closeParen (ls.drop (1 + (arguments (ls.drop 1)).2))
        else 1
      | .token .openParen =>
        if startsWith .closeParen (ls.drop (expression ls).2) then 1 + (expression ls).2 + 1
        else 1 + (expression ls).2 + exprRest 0 (ls.drop (expression ls).2)
      | item => if endsExpr item then 0 else 1 := by
  rw [primary.eq_def]
  dsimp only
  cases l.item with
  | token t =>
    cases t with
    | ident name => cases startsWith .openParen ls <;> rfl
    | openParen => cases startsWith .closeParen (ls.drop (expression ls).2) <;> rfl
    | _ => rfl
  | _ => rfl

theorem sum_count (left : Expr) (l : Located) (ls : List Located) :
    (sum left (l :: ls)).2 =
      if l.item = .token .plus then
        1 + (primary ls).2 + (sum (.concat left (primary ls).1) (ls.drop (primary ls).2)).2
      else 0 := by
  rw [sum.eq_def]
  dsimp only
  split <;> rfl

theorem expression_of_ends (hl : endsExpr l.item = true) : (expression (l :: ls)).2 = 0 := by
  have hprimary : (primary (l :: ls)).2 = 0 := by
    rw [primary_count]
    have hends := (endsExpr_shape l.item).trans hl
    generalize l.item.shape = item at hends
    cases item with
    | token t => cases t <;> first | rfl | cases hends
    | _ => rfl
  have hplus : l.item ≠ .token .plus := by
    intro hitem
    rw [hitem] at hl
    cases hl
  rw [length_expression]
  dsimp only
  rw [hprimary, List.drop_zero, sum_count, if_neg hplus]
  exact if_pos hl

theorem arguments_count (l : Located) (ls : List Located) :
    (arguments (l :: ls)).2 =
      match l.item.shape with
      | .token .closeParen | .eof | .dedent => 0
      | _ => (expression (l :: ls)).2 - 1 + 1 +
          (arguments (ls.drop ((expression (l :: ls)).2 - 1))).2 := by
  have hskip : endsExpr l.item = true → (arguments ls).2 + 1 =
      (expression (l :: ls)).2 - 1 + 1 +
        (arguments (ls.drop ((expression (l :: ls)).2 - 1))).2 := by
    intro hends
    rw [expression_of_ends hends, List.drop_zero]
    omega
  rw [arguments.eq_def]
  dsimp only
  generalize hread : (expression (l :: ls)).2 = n at hskip
  cases hitem : l.item with
  | token t =>
    rw [hitem] at hskip
    cases t with
    | comma => exact hskip rfl
    | newline => exact hskip rfl
    | closeParen => rfl
    | _ => rfl
  | eof => rfl
  | dedent => rfl
  | indent => rfl

mutual

theorem local_primary (xs ys : List Located) (h : Like ((primary xs).2 + 1) xs ys) :
    (primary ys).2 = (primary xs).2 := by
  match xs with
  | [] => rw [h.nil]
  | l :: ls =>
    have hargs := local_arguments (ls.drop 1)
    have hinner := local_expression ls
    obtain ⟨l', ls', rfl, hitem, hrest⟩ := h.cons
    rw [primary_count] at hrest
    rw [primary_count, primary_count, ← hitem]
    generalize l.item.shape = item at hrest
    cases item with
    | token t =>
      cases t with
      | ident name =>
        dsimp only at hrest ⊢
        generalize (arguments (ls.drop 1)).2 = n at hargs hrest ⊢
        generalize hcount : count .closeParen (ls.drop (1 + n)) = c at hrest ⊢
        have hone : Like (0 + 1) ls ls' := by
          refine hrest.mono ?_
          split <;> omega
        rw [hone.startsWith told_openParen]
        split at hrest
        · next hopen =>
          rw [if_pos hopen, if_pos hopen, hargs (ls'.drop 1) ?_, Like.count told_closeParen, hcount]
          · exact Like.drop (k := 1 + n) (n := 0 + 1) (hrest.mono (by omega))
          · exact Like.drop (k := 1) (n := n + 1) (hrest.mono (by omega))
        · next hopen => rw [if_neg hopen, if_neg hopen]
      | openParen =>
        dsimp only at hrest ⊢
        generalize (expression ls).2 = n at hinner hrest ⊢
        have hmore : Like (1 + n) ls ls' := by
          refine hrest.mono ?_
          split <;> omega
        have hclose : Like (0 + 1) (ls.drop n) (ls'.drop n) :=
          Like.drop (k := n) (n := 0 + 1) (hmore.mono (by omega))
        rw [hinner ls' (hmore.mono (by omega)), hclose.startsWith told_closeParen]
        split at hrest
        · next hends => rw [if_pos hends, if_pos hends]
        · next hends =>
          have hskip : Like (exprRest 0 (ls.drop n) + 1) (ls.drop n) (ls'.drop n) :=
            Like.drop (k := n) (hrest.mono (by omega))
          rw [if_neg hends, if_neg hends, hskip.exprRest]
      | _ => rfl
    | _ => rfl
termination_by 4 * xs.length
decreasing_by all_goals (simp only [List.length_cons, List.length_drop]; omega)

theorem local_sum (left left' : Expr) (xs ys : List Located)
    (h : Like ((sum left xs).2 + 1) xs ys) :
    (sum left' ys).2 = (sum left xs).2 := by
  match xs with
  | [] =>
    rw [h.nil, sum.eq_def, sum.eq_def]
  | l :: ls =>
    have hright := local_primary ls
    have hmore := fun e e' => local_sum e e' (ls.drop (primary ls).2)
    obtain ⟨l', ls', rfl, hitem, hrest⟩ := h.cons
    have hplus : l'.item = .token .plus ↔ l.item = .token .plus := by
      rw [← told_plus l.item, ← told_plus l'.item, hitem]
    rw [sum_count] at hrest
    rw [sum_count, sum_count]
    by_cases hl : l.item = .token .plus
    · rw [if_pos hl] at hrest
      rw [if_pos hl, if_pos (hplus.2 hl)]
      have hfirst := hright ls' (hrest.mono (by omega))
      rw [hfirst, hmore (.concat left (primary ls).1) (.concat left' (primary ls').1)
        (ls'.drop (primary ls).2) (Like.drop (hrest.mono (by omega)))]
    · rw [if_neg hl, if_neg fun hl' => hl (hplus.1 hl')]
termination_by 4 * xs.length
decreasing_by all_goals (simp only [List.length_cons, List.length_drop]; omega)

theorem local_expression (xs ys : List Located) (h : Like ((expression xs).2 + 1) xs ys) :
    (expression ys).2 = (expression xs).2 := by
  have hfirst := local_primary xs
  have hmore := fun e' => local_sum (primary xs).1 e' (xs.drop (primary xs).2)
  rw [length_expression] at h
  rw [length_expression, length_expression]
  dsimp only at h ⊢
  generalize (primary xs).2 = n at h hfirst hmore ⊢
  generalize (sum (primary xs).1 (xs.drop n)).2 = m at h hmore ⊢
  have hboth : Like (n + m + 1) xs ys := by
    refine h.mono ?_
    split <;> omega
  rw [hfirst ys (hboth.mono (by omega)), hmore (primary ys).1 (ys.drop n)
    (Like.drop (k := n) (n := m + 1) (hboth.mono (by omega)))]
  have hrest : Like (0 + 1) (xs.drop (n + m)) (ys.drop (n + m)) :=
    Like.drop (k := n + m) (n := 0 + 1) (hboth.mono (by omega))
  rw [hrest.atEnd]
  split at h
  · next hends => rw [if_pos hends, if_pos hends]
  · next hends =>
    have hskip : Like (exprRest 0 (xs.drop (n + m)) + 1) (xs.drop (n + m)) (ys.drop (n + m)) :=
      Like.drop (k := n + m) (h.mono (by omega))
    rw [if_neg hends, if_neg hends, hskip.exprRest]
termination_by 4 * xs.length + 1
decreasing_by
  · omega
  · simp only [List.length_drop]; omega

theorem local_arguments (xs ys : List Located) (h : Like ((arguments xs).2 + 1) xs ys) :
    (arguments ys).2 = (arguments xs).2 := by
  match xs with
  | [] => rw [h.nil]
  | l :: ls =>
    have harg := local_expression (l :: ls)
    have hmore := local_arguments (ls.drop ((expression (l :: ls)).2 - 1))
    rw [arguments_count] at h
    obtain ⟨l', ls', rfl, hitem, -⟩ := h.cons
    rw [arguments_count, arguments_count, ← hitem]
    have hgoes : Like ((expression (l :: ls)).2 - 1 + 1 +
          (arguments (ls.drop ((expression (l :: ls)).2 - 1))).2 + 1) (l :: ls) (l' :: ls') →
        (expression (l' :: ls')).2 - 1 + 1 +
            (arguments (ls'.drop ((expression (l' :: ls')).2 - 1))).2 =
          (expression (l :: ls)).2 - 1 + 1 +
            (arguments (ls.drop ((expression (l :: ls)).2 - 1))).2 := by
      intro h
      rw [harg (l' :: ls') (h.mono (by omega))]
      generalize (expression (l :: ls)).2 - 1 = n at h hmore ⊢
      have hrest := (Like.cons_iff.1 h).2
      rw [hmore (ls'.drop n) (Like.drop (hrest.mono (by omega)))]
    generalize l.item.shape = item at h
    cases item with
    | token t =>
      cases t with
      | closeParen => rfl
      | _ => exact hgoes h
    | eof => rfl
    | dedent => rfl
    | indent => exact hgoes h
termination_by 4 * xs.length + 2
decreasing_by all_goals (simp only [List.length_cons, List.length_drop]; omega)

end

/-! ## What is read of the items -/

/-- The first `n` items of two lists are the same. -/
def Same (n : Nat) (xs ys : List Located) : Prop :=
  (xs.map Located.item).take n = (ys.map Located.item).take n

theorem Same.symm (h : Same n xs ys) : Same n ys xs :=
  Eq.symm h

theorem Same.mono (h : Same n xs ys) (hle : k ≤ n) : Same k xs ys := by
  have htake := congrArg (List.take k) h
  rwa [List.take_take, List.take_take, Nat.min_eq_left hle] at htake

theorem Same.cons_iff :
    Same (n + 1) (l :: ls) (l' :: ls') ↔ l.item = l'.item ∧ Same n ls ls' := by
  unfold Same
  rw [List.map_cons, List.map_cons, List.take_succ_cons, List.take_succ_cons, List.cons.injEq]

theorem Same.nil (h : Same (n + 1) [] ys) : ys = [] := by
  cases ys with
  | nil => rfl
  | cons l ys => cases h

theorem Same.cons (h : Same (n + 1) (l :: ls) ys) :
    ∃ l' ls', ys = l' :: ls' ∧ l.item = l'.item ∧ Same n ls ls' := by
  cases ys with
  | nil => cases h
  | cons l' ls' => exact ⟨l', ls', rfl, cons_iff.1 h⟩

theorem Same.drop (h : Same (k + n) xs ys) : Same n (xs.drop k) (ys.drop k) := by
  have hdrop := congrArg (List.drop k) h
  rw [List.drop_take, List.drop_take, Nat.add_sub_cancel_left] at hdrop
  unfold Same
  rwa [List.map_drop, List.map_drop]

theorem Same.like (h : Same n xs ys) : Like n xs ys := by
  have hshape := congrArg (List.map Item.shape) h
  rw [List.map_take, List.map_take, List.map_map, List.map_map] at hshape
  exact hshape

theorem Same.head (h : Same (n + 1) xs ys) :
    ys.head?.map Located.item = xs.head?.map Located.item := by
  cases xs with
  | nil => rw [h.nil]
  | cons l ls =>
    obtain ⟨l', ls', rfl, hitem, -⟩ := h.cons
    rw [List.head?_cons, List.head?_cons, Option.map_some, Option.map_some, hitem]

mutual

theorem same_primary (xs ys : List Located) (h : Same ((primary xs).2 + 1) xs ys) :
    primary ys = primary xs := by
  match xs with
  | [] => rw [h.nil]
  | l :: ls =>
    have hargs := same_arguments (ls.drop 1)
    have hinner := same_expression ls
    obtain ⟨l', ls', rfl, hitem, hrest⟩ := h.cons
    rw [primary_count] at hrest
    rw [primary.eq_def, primary.eq_def]
    dsimp only
    rw [← hitem]
    generalize l.item = item at hrest
    cases item with
    | token t =>
      cases t with
      | ident name =>
        dsimp only [Item.shape] at hrest ⊢
        have hone : Same (0 + 1) ls ls' := by
          refine hrest.mono ?_
          split <;> omega
        rw [hone.like.startsWith told_openParen]
        split at hrest
        · next hopen =>
          rw [if_pos hopen, if_pos hopen, hargs (ls'.drop 1) (Same.drop (hrest.mono (by omega)))]
          have hclose : Same (0 + 1) (ls.drop (1 + (arguments (ls.drop 1)).2))
              (ls'.drop (1 + (arguments (ls.drop 1)).2)) := Same.drop (hrest.mono (by omega))
          rw [hclose.like.count told_closeParen]
        · next hopen => rw [if_neg hopen, if_neg hopen]
      | openParen =>
        dsimp only [Item.shape] at hrest ⊢
        have hmore : Same (1 + (expression ls).2) ls ls' := by
          refine hrest.mono ?_
          split <;> omega
        have hclose : Same (0 + 1) (ls.drop (expression ls).2) (ls'.drop (expression ls).2) :=
          Same.drop (hmore.mono (by omega))
        rw [hinner ls' (hmore.mono (by omega)), hclose.like.startsWith told_closeParen]
        split at hrest
        · next hends => rw [if_pos hends, if_pos hends]
        · next hends =>
          have hskip : Same (exprRest 0 (ls.drop (expression ls).2) + 1)
              (ls.drop (expression ls).2) (ls'.drop (expression ls).2) :=
            Same.drop (hrest.mono (by omega))
          rw [if_neg hends, if_neg hends, hskip.like.exprRest]
      | _ => rfl
    | _ => rfl
termination_by 4 * xs.length
decreasing_by all_goals (simp only [List.length_cons, List.length_drop]; omega)

theorem same_sum (left : Expr) (xs ys : List Located) (h : Same ((sum left xs).2 + 1) xs ys) :
    sum left ys = sum left xs := by
  match xs with
  | [] =>
    rw [h.nil]
  | l :: ls =>
    have hright := same_primary ls
    have hmore := same_sum (.concat left (primary ls).1) (ls.drop (primary ls).2)
    obtain ⟨l', ls', rfl, hitem, hrest⟩ := h.cons
    rw [sum_count] at hrest
    rw [sum.eq_def, sum.eq_def]
    dsimp only
    rw [← hitem]
    by_cases hl : l.item = .token .plus
    · rw [if_pos hl] at hrest
      rw [if_pos hl, if_pos hl, hright ls' (hrest.mono (by omega)),
        hmore (ls'.drop (primary ls).2) (Same.drop (hrest.mono (by omega)))]
    · rw [if_neg hl, if_neg hl]
termination_by 4 * xs.length
decreasing_by all_goals (simp only [List.length_cons, List.length_drop]; omega)

theorem same_expression (xs ys : List Located) (h : Same ((expression xs).2 + 1) xs ys) :
    expression ys = expression xs := by
  have hfirst := same_primary xs
  have hmore := same_sum (primary xs).1 (xs.drop (primary xs).2)
  rw [length_expression] at h
  dsimp only at h
  rw [expression.eq_def, expression.eq_def]
  dsimp only
  have hboth :
      Same ((primary xs).2 + (sum (primary xs).1 (xs.drop (primary xs).2)).2 + 1) xs ys := by
    refine h.mono ?_
    split <;> omega
  rw [hfirst ys (hboth.mono (by omega)),
    hmore (ys.drop (primary xs).2) (Same.drop (hboth.mono (by omega)))]
  generalize (primary xs).2 + (sum (primary xs).1 (xs.drop (primary xs).2)).2 = read at h hboth ⊢
  have hrest : Same (0 + 1) (xs.drop read) (ys.drop read) := Same.drop (hboth.mono (by omega))
  rw [hrest.like.atEnd]
  split at h
  · next hends => rw [if_pos hends, if_pos hends]
  · next hends =>
    have hskip : Same (exprRest 0 (xs.drop read) + 1) (xs.drop read) (ys.drop read) :=
      Same.drop (h.mono (by omega))
    rw [if_neg hends, if_neg hends, hskip.like.exprRest, hrest.head]
termination_by 4 * xs.length + 1
decreasing_by
  · omega
  · simp only [List.length_drop]; omega

theorem same_arguments (xs ys : List Located) (h : Same ((arguments xs).2 + 1) xs ys) :
    arguments ys = arguments xs := by
  match xs with
  | [] => rw [h.nil]
  | l :: ls =>
    have harg := same_expression (l :: ls)
    have hmore := same_arguments (ls.drop ((expression (l :: ls)).2 - 1))
    have hskip := same_arguments ls
    obtain ⟨l', ls', rfl, hitem, hrest⟩ := h.cons
    have hreads : Same ((expression (l :: ls)).2 - 1 + 1 +
          (arguments (ls.drop ((expression (l :: ls)).2 - 1))).2) ls ls' →
        expression (l' :: ls') = expression (l :: ls) ∧
          arguments (ls'.drop ((expression (l :: ls)).2 - 1)) =
            arguments (ls.drop ((expression (l :: ls)).2 - 1)) := by
      intro hmost
      have hwhole : Same ((expression (l :: ls)).2 - 1 + 1 +
          (arguments (ls.drop ((expression (l :: ls)).2 - 1))).2 + 1) (l :: ls) (l' :: ls') :=
        Same.cons_iff.2 ⟨hitem, hmost⟩
      exact ⟨harg _ (hwhole.mono (by omega)), hmore _ (Same.drop (hmost.mono (by omega)))⟩
    rw [arguments.eq_def] at hrest
    rw [arguments.eq_def, arguments.eq_def]
    dsimp only at hrest ⊢
    rw [← hitem]
    generalize l.item = item at hrest
    cases item with
    | token t =>
      cases t with
      | closeParen => rfl
      | comma | newline =>
        dsimp only at hrest ⊢
        rw [hskip ls' hrest]
      | _ =>
        dsimp only at hrest ⊢
        obtain ⟨hfirst, hothers⟩ := hreads hrest
        rw [hfirst, hothers]
    | eof | dedent => rfl
    | indent =>
      dsimp only at hrest ⊢
      obtain ⟨hfirst, hothers⟩ := hreads hrest
      rw [hfirst, hothers]
termination_by 4 * xs.length + 2
decreasing_by all_goals (simp only [List.length_cons, List.length_drop]; omega)

end

/-! ## Lists and headings -/

theorem Same.startsWith (h : Same (n + 1) xs ys) (t : Token) :
    startsWith t ys = startsWith t xs := by
  unfold Syntax.startsWith
  rw [h.head]

theorem Same.count (h : Same (n + 1) xs ys) (t : Token) : count t ys = count t xs := by
  unfold Syntax.count
  rw [h.startsWith]

theorem Same.newlines (h : Same (newlines xs + 1) xs ys) : newlines ys = newlines xs := by
  induction xs generalizing ys with
  | nil => rw [h.nil]
  | cons l ls ih =>
    obtain ⟨l', ls', rfl, hitem, hrest⟩ := h.cons
    unfold Syntax.newlines at hrest ih ⊢
    by_cases hl : l.item = .token .newline
    · rw [List.takeWhile_cons_of_pos (by simpa using hl)] at hrest
      rw [List.takeWhile_cons_of_pos (by simpa [← hitem] using hl),
        List.takeWhile_cons_of_pos (by simpa using hl)]
      exact congrArg (· + 1) (ih hrest)
    · rw [List.takeWhile_cons_of_neg (by simpa [← hitem] using hl),
        List.takeWhile_cons_of_neg (by simpa using hl)]

theorem Same.afterComma (h : Same ((afterComma xs).1 + 1) xs ys) :
    afterComma ys = afterComma xs := by
  unfold Syntax.afterComma at h ⊢
  dsimp only at h ⊢
  have hfeeds : Same (Syntax.newlines xs + 1) xs ys := by
    refine h.mono ?_
    split <;> simp
  have hhead : Same (0 + 1) (xs.drop (Syntax.newlines xs)) (ys.drop (Syntax.newlines xs)) :=
    Same.drop (hfeeds.mono (by omega))
  rw [hfeeds.newlines, hhead.head]

theorem Same.expressions (h : Same ((expressions xs).2.2 + 1) xs ys) :
    expressions ys = expressions xs := by
  induction hlength : xs.length using Nat.strongRecOn generalizing xs ys with
  | ind length ih =>
    rw [expressions_eq] at h
    rw [expressions_eq, expressions_eq xs]
    have hfirst : Same ((expression xs).2 + 1) xs ys := by
      refine h.mono ?_
      split
      · exact Nat.le_refl _
      · split
        · dsimp only
          omega
        · exact Nat.le_refl _
    rw [same_expression xs ys hfirst]
    have hnext : Same (0 + 1) (xs.drop (expression xs).2) (ys.drop (expression xs).2) :=
      Same.drop (hfirst.mono (by omega))
    cases hcons : xs.drop (expression xs).2 with
    | nil =>
      rw [hcons] at hnext
      rw [hnext.nil]
    | cons l ls =>
      rw [hcons] at h hnext
      obtain ⟨l', ls', hcons', hitem, -⟩ := hnext.cons
      rw [hcons']
      dsimp only at h ⊢
      rw [← hitem]
      by_cases hcomma : l.item = .token .comma
      · rw [if_pos hcomma] at h
        rw [if_pos hcomma, if_pos hcomma]
        dsimp only at h
        have hrest : Same ((Syntax.afterComma ls).1 +
            (Syntax.expressions (ls.drop (Syntax.afterComma ls).1)).2.2 + 1) ls ls' := by
          have hbehind : Same (1 + ((Syntax.afterComma ls).1 +
              (Syntax.expressions (ls.drop (Syntax.afterComma ls).1)).2.2 + 1))
              (xs.drop (expression xs).2) (ys.drop (expression xs).2) :=
            Same.drop (h.mono (by omega))
          rw [hcons, hcons', Nat.add_comm 1] at hbehind
          exact (Same.cons_iff.1 hbehind).2
        have hshorter : (ls.drop (Syntax.afterComma ls).1).length < length := by
          have hlen := congrArg List.length hcons
          simp only [List.length_drop, List.length_cons] at hlen ⊢
          omega
        have hfeeds : Same ((Syntax.afterComma ls).1 + 1) ls ls' := hrest.mono (by omega)
        rw [hfeeds.afterComma, ih _ hshorter (Same.drop (hrest.mono (by omega))) rfl]
      · rw [if_neg hcomma, if_neg hcomma]

theorem Same.continuationRest {indents : Nat}
    (h : Same (continuationRest indents xs + 1) xs ys) :
    continuationRest indents ys = continuationRest indents xs := by
  induction indents generalizing xs ys with
  | zero => rfl
  | succ indents ih =>
    unfold Syntax.continuationRest at h ⊢
    dsimp only at h ⊢
    have hfeeds : Same (Syntax.newlines xs + 1) xs ys := by
      refine h.mono ?_
      split <;> omega
    have hhead : Same (0 + 1) (xs.drop (Syntax.newlines xs)) (ys.drop (Syntax.newlines xs)) :=
      Same.drop (hfeeds.mono (by omega))
    rw [hfeeds.newlines, hhead.head]
    split at h
    · next hends => rw [if_pos hends, if_pos hends, ih (Same.drop (h.mono (by omega)))]
    · next hends => rw [if_neg hends, if_neg hends]

theorem Same.heading {depth : Nat} (h : Same ((heading depth xs).2.2 + 1) xs ys) :
    heading depth ys = heading depth xs := by
  induction xs generalizing ys depth with
  | nil => rw [h.nil]
  | cons l ls ih =>
    obtain ⟨l', ls', rfl, hitem, hrest⟩ := h.cons
    have hmore : ∀ depth, Same ((Syntax.heading depth ls).2.2 + 1) ls ls' →
        Syntax.heading depth ls' = Syntax.heading depth ls := fun _ hmost => ih hmost
    unfold Syntax.heading at hrest ⊢
    rw [← hitem]
    generalize l.item = item at hrest
    cases item with
    | eof | indent | dedent => rfl
    | token t =>
      cases t with
      | openBrace | semicolon | closeBrace =>
        dsimp only at hrest ⊢
        by_cases hdepth : depth = 0
        · rw [if_pos hdepth, if_pos hdepth]
        · rw [if_neg hdepth] at hrest
          rw [if_neg hdepth, if_neg hdepth, hmore depth hrest]
      | newline =>
        dsimp only at hrest ⊢
        by_cases hdepth : depth = 0
        · rw [if_pos hdepth] at hrest
          have hnext : Same (0 + 1) ls ls' := by
            refine hrest.mono ?_
            split <;> simp
          rw [if_pos hdepth, if_pos hdepth, hnext.head]
        · rw [if_neg hdepth] at hrest
          rw [if_neg hdepth, if_neg hdepth, hmore depth hrest]
      | openParen =>
        dsimp only at hrest ⊢
        rw [hmore (depth + 1) hrest]
      | closeParen =>
        dsimp only at hrest ⊢
        rw [hmore (depth - 1) hrest]
      | _ =>
        dsimp only at hrest ⊢
        rw [hmore depth hrest]

end Syntax

end StyleWeave
