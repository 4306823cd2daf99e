import StyleWeave.Proofs.Syntax.Descent

/-!
# Expressions read by descent

The calls for expressions and lists end wherever they start, and read what the readers of items do
(`follows_expression`, `follows_expressions`). Of every loop it is shown what one pass does: it
leaves the loop with all that the reader reads, or it takes an item at least and leaves the rest of
the reading to the passes behind it.
-/

namespace StyleWeave.Syntax.Descent

open Parsing

variable {c : Cursor} {limit depth k : Nat} {l : Located} {ls : List Located}

theorem follows_statementEnd (hlimit : k < limit) (hdepth : 0 < depth) :
    Follows (statementEnd limit depth) (fun items => ((), statementRest items)) k := by
  obtain ⟨depth, rfl⟩ := Nat.exists_eq_add_of_lt hdepth
  exact .skipWhile rfl hlimit

theorem follows_lineBreaks (hlimit : k < limit) :
    Follows (lineBreaks limit) (fun items => ((), newlines items)) k :=
  .skipWhile rfl hlimit

/-- A pass over the rest of an expression leaves the loop where the rest ends, and takes the item in
front otherwise. -/
theorem exprRestPass_follows (parens : Nat) (c : Cursor) :
    PassFollows exprRestPass (fun parens items => ((), Syntax.exprRest parens items)) parens c := by
  unfold PassFollows andThen
  cases hrest : c.rest with
  | nil => exact Or.inl (.peek (Cursor.item_of_nil hrest) (.pure _ c))
  | cons l ls =>
    have hc := Cursor.item_of_cons hrest
    dsimp only
    rw [Syntax.exprRest.eq_def]
    cases hitem : l.item with
    | eof | indent | dedent =>
      rw [hitem] at hc
      simp only [hitem]
      exact Or.inl (.peek hc (.pure _ c))
    | token t =>
      rw [hitem] at hc
      simp only [hitem]
      cases t with
      | openParen =>
        exact Or.inr ⟨parens + 1, 1, Nat.one_pos, .peek hc (.again hrest _), by simp [Nat.add_comm]⟩
      | closeParen =>
        cases parens with
        | zero => exact Or.inl (.peek hc (.pure _ c))
        | succ parens =>
          exact Or.inr ⟨parens, 1, Nat.one_pos, .peek hc (.again hrest _), by simp [Nat.add_comm]⟩
      | _ =>
        dsimp only
        split
        · next hstop =>
          refine Or.inl (.peek hc ?_)
          dsimp only
          rw [if_pos hstop]
          exact .pure _ c
        · next hgoes =>
          refine Or.inr ⟨parens, 1, Nat.one_pos, .peek hc ?_, by simp [Nat.add_comm]⟩
          dsimp only
          rw [if_neg hgoes]
          exact .again hrest parens

theorem follows_exprRest (hlimit : k < limit) (hdepth : 0 < depth) :
    Follows (exprRest limit depth) (fun items => ((), Syntax.exprRest 0 items)) k := by
  obtain ⟨depth, rfl⟩ := Nat.exists_eq_add_of_lt hdepth
  have hloop : Follows (loop .exprRest exprRestPass limit 0) _ k :=
    .loop (fun parens c _ => exprRestPass_follows parens c) hlimit 0
  exact hloop

/-- A pass over the operands of a sum adds one to what was read. -/
theorem sumPass_follows {operand : Parsing Expr} (hoperand : Follows operand Syntax.primary k)
    (left : Expr) (hk : c.rest.length ≤ k) : PassFollows (sumPass operand) Syntax.sum left c := by
  by_cases hplus : startsWith .plus c.rest = true
  · obtain ⟨l, ls, hrest, hl⟩ := exists_of_startsWith hplus
    refine Or.inr ⟨.concat left (Syntax.primary ls).1, (Syntax.primary ls).2 + 1, Nat.succ_pos _,
      .skip_here hrest hl fun c' h' hrest' => ?_, ?_⟩
    · have hlength := h'.length
      subst hrest'
      exact (hoperand c' (by omega)).map _
    · rw [hrest, Syntax.sum.eq_def]
      simp only [hl, if_true, andThen, List.drop_succ_cons, Nat.add_comm 1]
  · refine Or.inl (.skip_not (Cursor.item_ne_token hplus) ?_)
    have hsum : Syntax.sum left c.rest = (left, 0) := by
      rw [Syntax.sum.eq_def]
      split
      · rfl
      · next l ls hrest =>
        rw [if_neg fun hl => hplus (by simp [startsWith, hrest, hl])]
    rw [hsum]
    exact .pure _ c

/-- Where an argument takes nothing, the item in front is taken in its place. -/
theorem ends_advanceFrom {n : Nat} {c' : Cursor} (h : c.rest = l :: ls)
    (hreaches : c.Reaches n c') :
    Ends (advanceFrom c.position) c' (.ok ()) (if n = 0 then 1 else 0) := by
  refine .look _ ?_
  by_cases hn : n = 0
  · subst hn
    have hrest : c'.rest = l :: ls := by rw [hreaches.rest, h, List.drop_zero]
    have hstays : c'.position = c.position := hreaches.position
    rw [if_pos hstays, if_pos rfl]
    exact .takes hrest
  · have hmoved : c'.position ≠ c.position := by
      rw [hreaches.position]
      omega
    rw [if_neg hmoved, if_neg hn]
    exact .pure () c'

/-- A pass over the arguments of a call leaves the loop where they end. Otherwise it takes an item
at least, even where no expression starts. -/
theorem argumentsPass_follows {expression : Parsing Expr}
    (hexpression : Follows expression Syntax.expression k) (args : List Expr)
    (hk : c.rest.length ≤ k) :
    PassFollows (argumentsPass expression) (fun args items =>
      (args ++ (Syntax.arguments items).1, (Syntax.arguments items).2)) args c := by
  unfold PassFollows andThen
  dsimp only
  have hexpr := hexpression c hk
  cases hrest : c.rest with
  | nil =>
    refine Or.inl (.peek (Cursor.item_of_nil hrest) ?_)
    rw [Syntax.arguments.eq_def]
    dsimp only
    rw [List.append_nil]
    exact .pure _ c
  | cons l ls =>
    have hc := Cursor.item_of_cons hrest
    rw [hrest] at hexpr
    have harg : Ends (do
        let before := (← cursor).position
        let arg ← expression
        advanceFrom before
        return Next.again (α := List Expr) (args ++ [arg])) c
        (.ok (.again (args ++ [(Syntax.expression (l :: ls)).1])))
        ((Syntax.expression (l :: ls)).2 - 1 + 1) := by
      have hcount : (Syntax.expression (l :: ls)).2 +
          (if (Syntax.expression (l :: ls)).2 = 0 then 1 else 0) =
            (Syntax.expression (l :: ls)).2 - 1 + 1 := by
        split <;> omega
      rw [← hcount]
      exact .look _ (hexpr.bind fun c' hreaches => (ends_advanceFrom hrest hreaches).map _)
    rw [Syntax.arguments.eq_def]
    cases hitem : l.item with
    | eof | dedent =>
      rw [hitem] at hc
      simp only [hitem, List.append_nil]
      exact Or.inl (.peek hc (.pure _ c))
    | indent =>
      rw [hitem] at hc
      refine Or.inr ⟨_, _, Nat.succ_pos _, .peek hc harg, ?_⟩
      simp only [hitem, List.drop_succ_cons, List.append_assoc, List.singleton_append]
    | token t =>
      rw [hitem] at hc
      simp only [hitem]
      cases t with
      | closeParen =>
        dsimp only
        rw [List.append_nil]
        exact Or.inl (.peek hc (.pure _ c))
      | comma | newline =>
        refine Or.inr ⟨args, 1, Nat.one_pos, .peek hc (.again hrest args), ?_⟩
        simp only [List.drop_succ_cons, List.drop_zero, Nat.add_comm]
      | _ =>
        refine Or.inr ⟨_, _, Nat.succ_pos _, .peek hc harg, ?_⟩
        simp only [List.drop_succ_cons, List.append_assoc, List.singleton_append]

/-- What an identifier is read as, told by the items behind it. -/
def readNamed (name : String) (items : List Located) : Expr × Nat :=
  if startsWith .openParen items then
    (.call name (Syntax.arguments (items.drop 1)).1,
      1 + (Syntax.arguments (items.drop 1)).2 +
        count .closeParen (items.drop (1 + (Syntax.arguments (items.drop 1)).2)))
  else (.ident name, 0)

/-- What an opening parenthesis is read as, told by the items behind it. -/
def readInParens (items : List Located) : Expr × Nat :=
  if startsWith .closeParen (items.drop (Syntax.expression items).2) then
    ((Syntax.expression items).1, (Syntax.expression items).2 + 1)
  else
    (.unknown, (Syntax.expression items).2 +
      Syntax.exprRest 0 (items.drop (Syntax.expression items).2))

/-- What the end of an expression is read as, told by the items behind its operands. -/
def readEnd (e : Expr) (items : List Located) : Expr × Nat :=
  if atEnd items then (e, 0)
  else (known e ((items.head?.map Located.item).getD .eof), Syntax.exprRest 0 items)

theorem primary_of_ident {name : String} (hl : l.item = .token (.ident name)) :
    Syntax.primary (l :: ls) = ((readNamed name ls).1, (readNamed name ls).2 + 1) := by
  rw [Syntax.primary.eq_def]
  simp only [hl]
  unfold readNamed
  split
  · refine Prod.ext rfl ?_
    dsimp only
    omega
  · rfl

theorem primary_of_openParen (hl : l.item = .token .openParen) :
    Syntax.primary (l :: ls) = ((readInParens ls).1, (readInParens ls).2 + 1) := by
  rw [Syntax.primary.eq_def]
  simp only [hl]
  unfold readInParens
  split <;> refine Prod.ext rfl ?_ <;> dsimp only <;> omega

theorem expression_eq (items : List Located) :
    Syntax.expression items =
      andThen Syntax.primary (fun first => andThen (Syntax.sum first) readEnd) items := by
  rw [Syntax.expression.eq_def]
  unfold andThen readEnd
  dsimp only
  rw [List.drop_drop, ← Nat.add_assoc]
  generalize Syntax.sum (Syntax.primary items).1 (items.drop (Syntax.primary items).2) = read
  generalize items.drop (_ + _) = rest
  obtain ⟨e, m⟩ := read
  cases atEnd rest with
  | true => rfl
  | false =>
    cases rest with
    | nil => cases e <;> rfl
    | cons l ls =>
      cases e with
      | literal s =>
        dsimp only [List.head?_cons, Option.map_some, Option.getD_some]
        cases l.item with
        | token t => cases t <;> rfl
        | _ => rfl
      | _ => rfl

theorem follows_named {expression : Parsing Expr}
    (hexpression : Follows expression Syntax.expression k) (name : String) (hlimit : k < limit) :
    Follows (named expression limit name) (readNamed name) k := by
  intro c hk
  unfold readNamed
  split
  · next hopen =>
    obtain ⟨l, ls, hrest, hl⟩ := exists_of_startsWith hopen
    rw [hrest, Nat.add_assoc, Nat.add_comm 1 (_ + _), Nat.add_comm 1, List.drop_succ_cons,
      List.drop_succ_cons, List.drop_zero]
    refine .skip_here hrest hl fun c₁ h₁ hrest₁ => ?_
    have hlength := h₁.length
    subst hrest₁
    have hargs : Follows (loop .arguments (argumentsPass expression) limit []) _ k :=
      .loop (fun args c => argumentsPass_follows (c := c) hexpression args) hlimit []
    refine (hargs c₁ (by omega)).bind fun c₂ h₂ => ?_
    obtain ⟨_, hskip⟩ := Ends.skip_token .closeParen c₂
    rw [← h₂.rest]
    exact hskip.map _
  · next hopen => exact .skip_not (Cursor.item_ne_token hopen) (.pure _ c)

theorem follows_inParens {expression : Parsing Expr}
    (hexpression : Follows expression Syntax.expression k) (hlimit : k < limit)
    (hdepth : 0 < depth) :
    Follows (inParens expression (exprRest limit depth)) readInParens k := by
  intro c hk
  have hinner := hexpression c hk
  unfold readInParens
  split
  · next hclose =>
    obtain ⟨l, ls, hrest, hl⟩ := exists_of_startsWith hclose
    exact hinner.bind fun c₁ h₁ => .skip_here (h₁.rest.trans hrest) hl fun c₂ _ _ => .pure _ c₂
  · next hclose =>
    refine hinner.bind fun c₁ h₁ => ?_
    have hlength := h₁.length
    rw [← h₁.rest] at hclose ⊢
    refine .skip_not (Cursor.item_ne_token hclose) ?_
    exact (follows_exprRest hlimit hdepth c₁ (by omega)).map _

theorem follows_expressionEnd (hlimit : k < limit) (hdepth : 0 < depth) (e : Expr) :
    Follows (expressionEnd (exprRest limit depth) e) (readEnd e) k := by
  intro c hk
  have hend : atEnd c.rest = endsExpr c.item := by
    rw [Cursor.item_eq]
    unfold atEnd
    cases c.rest <;> rfl
  refine .peek rfl ?_
  unfold readEnd
  rw [hend, ← Cursor.item_eq]
  split
  · exact .pure e c
  · exact (follows_exprRest hlimit hdepth c hk).map _

/-- An operand is read by an expression only behind an item. -/
theorem follows_primary
    (hexpression : ∀ j < k, Follows (expression limit depth) Syntax.expression j)
    (hlimit : k < limit) (hdepth : k ≤ depth) :
    Follows (primary limit (depth + 1)) Syntax.primary k := by
  intro c hk
  cases hrest : c.rest with
  | nil =>
    rw [Syntax.primary.eq_def]
    exact .peek (Cursor.item_of_nil hrest) (.pure _ c)
  | cons l ls =>
    have hc := Cursor.item_of_cons hrest
    rw [hrest, List.length_cons] at hk
    have hinner := hexpression ls.length hk
    have hlimit' : ls.length < limit := by omega
    cases hitem : l.item with
    | eof | dedent | indent =>
      rw [hitem] at hc
      rw [Syntax.primary.eq_def]
      simp only [hitem]
      exact .peek hc (.pure _ c)
    | token t =>
      rw [hitem] at hc
      cases t with
      | ident name =>
        rw [primary_of_ident hitem]
        refine .peek hc (.advance hrest fun c' _ hrest' => ?_)
        subst hrest'
        exact follows_named hinner name hlimit' c' (Nat.le_refl _)
      | openParen =>
        rw [primary_of_openParen hitem]
        refine .peek hc (.advance hrest fun c' _ hrest' => ?_)
        subst hrest'
        exact follows_inParens hinner hlimit' (by omega) c' (Nat.le_refl _)
      | newline | semicolon | closeBrace | openBrace | comma | closeParen =>
        rw [Syntax.primary.eq_def]
        simp only [hitem]
        exact .peek hc (.pure _ c)
      | _ =>
        rw [Syntax.primary.eq_def]
        simp only [hitem]
        exact .peek hc (.advance hrest fun c' _ _ => .pure _ c')

/-- Two calls inside each other take an item at least. -/
theorem follows_expression (hlimit : k < limit) (hdepth : 2 * k + 2 ≤ depth) :
    Follows (expression limit depth) Syntax.expression k := by
  induction k using Nat.strongRecOn generalizing depth with
  | ind k ih =>
    obtain ⟨depth, rfl⟩ := Nat.exists_eq_add_of_le' hdepth
    have hprimary : Follows (primary limit (depth + 2 * k + 1)) Syntax.primary k :=
      follows_primary (fun j hj => ih j hj (by omega) (by omega)) hlimit (by omega)
    intro c hk
    rw [expression_eq]
    refine hprimary.bind (fun first => ?_) c hk
    have hsum : Follows (loop .sum (sumPass (primary limit (depth + 2 * k + 1))) limit first)
        (Syntax.sum first) k :=
      .loop (fun left c => sumPass_follows (c := c) hprimary left) hlimit first
    exact hsum.bind fun e => follows_expressionEnd hlimit (Nat.succ_pos _) e

/-! ## Lists -/

theorem follows_afterComma (hlimit : k < limit) :
    Follows (afterComma limit)
      (fun items => ((Syntax.afterComma items).2, (Syntax.afterComma items).1)) k := by
  intro c hk
  have h := (follows_lineBreaks hlimit).bind (fun _ => .skip (by simp : Item.indent ≠ .eof) k) c hk
  unfold Syntax.afterComma
  unfold andThen at h
  dsimp only at h ⊢
  split
  · next hindent =>
    rw [if_pos hindent] at h
    exact h
  · next hindent =>
    rw [if_neg hindent] at h
    exact h

/-- What a list is read as behind one of its expressions: the others, and how many times their lines
are indented deeper. -/
def readMore : List Located → (List Expr × Nat) × Nat
  | [] => (([], 0), 0)
  | l :: ls =>
    if l.item = .token .comma then
      let (es, indents, m) := Syntax.expressions (ls.drop (Syntax.afterComma ls).1)
      ((es, indents + (Syntax.afterComma ls).2.toNat), 1 + (Syntax.afterComma ls).1 + m)
    else (([], 0), 0)

theorem expressions_eq_more (items : List Located) :
    Syntax.expressions items =
      let (e, n) := Syntax.expression items
      let ((es, indents), m) := readMore (items.drop n)
      (e :: es, indents, n + m) := by
  rw [expressions_eq]
  dsimp only
  cases items.drop (Syntax.expression items).2 with
  | nil => rfl
  | cons l ls =>
    unfold readMore
    dsimp only
    split
    · simp only [Nat.add_assoc]
    · rfl

theorem readMore_of_comma (hl : l.item = .token .comma) :
    readMore (l :: ls) =
      let behind := ls.drop (Syntax.afterComma ls).1
      let (e, n) := Syntax.expression behind
      let ((es, indents), m) := readMore (behind.drop n)
      ((e :: es, indents + (Syntax.afterComma ls).2.toNat),
        (Syntax.afterComma ls).1 + n + 1 + m) := by
  rw [readMore, if_pos hl, expressions_eq_more]
  refine Prod.ext rfl ?_
  dsimp only
  omega

theorem readMore_of_not_comma {items : List Located} (h : ¬ startsWith .comma items = true) :
    readMore items = (([], 0), 0) := by
  cases items with
  | nil => rfl
  | cons l ls => exact if_neg fun hl => h (by simp [startsWith, hl])

/-- A pass over a list adds an expression to what was read. -/
theorem listPass_follows {expression : Parsing Expr}
    (hexpression : Follows expression Syntax.expression k) (hlimit : k < limit)
    (read : List Expr × Nat) (hk : c.rest.length ≤ k) :
    PassFollows (listPass expression limit) (fun read items =>
      ((read.1 ++ (readMore items).1.1, read.2 + (readMore items).1.2), (readMore items).2))
      read c := by
  by_cases hcomma : startsWith .comma c.rest = true
  · obtain ⟨l, ls, hrest, hl⟩ := exists_of_startsWith hcomma
    have hpass : Ends (listPass expression limit read) c
        (.ok (.again (read.1 ++ [(Syntax.expression (ls.drop (Syntax.afterComma ls).1)).1],
          read.2 + (Syntax.afterComma ls).2.toNat)))
        ((Syntax.afterComma ls).1 +
          (Syntax.expression (ls.drop (Syntax.afterComma ls).1)).2 + 1) := by
      refine .skip_here hrest hl fun c₁ h₁ hrest₁ => ?_
      have hlength₁ := h₁.length
      subst hrest₁
      refine (follows_afterComma hlimit c₁ (by omega)).bind fun c₂ h₂ => ?_
      have hlength₂ := h₂.length
      rw [← h₂.rest]
      exact (hexpression c₂ (by omega)).map _
    refine Or.inr ⟨_, _, Nat.succ_pos _, hpass, ?_⟩
    unfold andThen
    dsimp only
    rw [hrest, readMore_of_comma hl]
    dsimp only
    rw [List.drop_succ_cons, ← List.drop_drop, List.append_assoc, Nat.add_comm _ (Bool.toNat _),
      ← Nat.add_assoc read.2]
    rfl
  · refine Or.inl (.skip_not (Cursor.item_ne_token hcomma) ?_)
    dsimp only
    rw [readMore_of_not_comma hcomma, List.append_nil, Nat.add_zero]
    exact .pure _ c

theorem follows_expressions (hexpression : Follows (expression limit depth) Syntax.expression k)
    (hlimit : k < limit) :
    Follows (expressions limit (depth + 1)) (fun items =>
      (((Syntax.expressions items).1, (Syntax.expressions items).2.1),
        (Syntax.expressions items).2.2)) k := by
  intro c hk
  have hlist : ∀ e,
      Follows (loop .list (listPass (expression limit depth) limit) limit ([e], 0)) _ k :=
    fun e => .loop (fun read c => listPass_follows (c := c) hexpression hlimit read) hlimit ([e], 0)
  have h := hexpression.bind hlist c hk
  dsimp only [andThen] at h ⊢
  rw [expressions_eq_more]
  rw [Nat.zero_add] at h
  exact h

/-- A pass over the end of a continued list takes the end of one indentation. -/
theorem continuationPass_follows (hlimit : k < limit) (indents : Nat) (hk : c.rest.length ≤ k) :
    PassFollows (continuationPass limit) (fun indents items => ((), continuationRest indents items))
      indents c := by
  cases indents with
  | zero => exact Or.inl (.pure _ c)
  | succ indents =>
    have hbreaks := follows_lineBreaks hlimit c hk
    unfold PassFollows andThen
    dsimp only
    rw [continuationRest]
    split
    · next hdedent =>
      obtain ⟨l, ls, hrest, hl⟩ := exists_of_head hdedent
      refine Or.inr ⟨indents, newlines c.rest + 1, Nat.succ_pos _, ?_, rfl⟩
      exact hbreaks.bind fun c₁ h₁ => .skip_here (h₁.rest.trans hrest) hl fun c₂ _ _ => .pure _ c₂
    · next hdedent =>
      refine Or.inl (hbreaks.bind (m := 0) fun c₁ h₁ => ?_)
      refine .skip_not (Cursor.item_ne nofun ?_) (.pure _ c₁)
      rw [h₁.rest]
      exact hdedent

theorem follows_continuation (hlimit : k < limit) (hdepth : 0 < depth) (indents : Nat) :
    Follows (continuation limit depth indents) (fun items => ((), continuationRest indents items))
      k := by
  obtain ⟨depth, rfl⟩ := Nat.exists_eq_add_of_lt hdepth
  have hloop : Follows (loop .continuation (continuationPass limit) limit indents) _ k :=
    .loop (fun indents c => continuationPass_follows (c := c) hlimit indents) hlimit indents
  exact hloop

end StyleWeave.Syntax.Descent
