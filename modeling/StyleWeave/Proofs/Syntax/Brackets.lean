import StyleWeave.Proofs.Syntax.Statements
import StyleWeave.Proofs.Token.Brackets

/-!
# Brackets that statements take

The readers of expressions and headings skip items they cannot make sense of, brackets among them.
They count the parentheses they have opened, and take braces only while some of these are open; and
of indentation they close only what they have opened (`Keeps`). Hence a statement never takes a
brace or the end of a block that belongs to what stands around it, though it may leave its own
open.
-/

namespace StyleWeave.Syntax

/-- With `parens` parentheses and `blocks` blocks of its own open, a statement takes these brackets,
and `parens'` and `blocks'` are open behind them. Braces stand in its parentheses; a parenthesis
that it has not opened is closed without notice; a block that it has not opened is not closed. If
not `deeper`, then its blocks are in its parentheses, too. -/
inductive Keeps (deeper : Bool) : Nat → Nat → List Bracket → Nat → Nat → Prop where
  | done {parens blocks : Nat} : Keeps deeper parens blocks [] parens blocks
  | openParen {parens blocks parens' blocks' : Nat} {w : List Bracket}
      (rest : Keeps deeper (parens + 1) blocks w parens' blocks') :
      Keeps deeper parens blocks (.opening .parens :: w) parens' blocks'
  | closeParen {parens blocks parens' blocks' : Nat} {w : List Bracket}
      (rest : Keeps deeper (parens - 1) blocks w parens' blocks') :
      Keeps deeper parens blocks (.closing .parens :: w) parens' blocks'
  | brace {parens blocks parens' blocks' : Nat} {b : Bracket} {w : List Bracket}
      (braces : b.enclosure = .braces) (inside : 0 < parens)
      (rest : Keeps deeper parens blocks w parens' blocks') :
      Keeps deeper parens blocks (b :: w) parens' blocks'
  | indent {parens blocks parens' blocks' : Nat} {w : List Bracket}
      (inside : deeper = true ∨ 0 < parens)
      (rest : Keeps deeper parens (blocks + 1) w parens' blocks') :
      Keeps deeper parens blocks (.opening .block :: w) parens' blocks'
  | dedent {parens blocks parens' blocks' : Nat} {w : List Bracket}
      (rest : Keeps deeper parens blocks w parens' blocks') :
      Keeps deeper parens (blocks + 1) (.closing .block :: w) parens' blocks'

variable {deeper : Bool} {g g' g'' k k' k'' : Nat} {w w' : List Bracket}
variable {l : Located} {items items' ls : List Located}

theorem Keeps.append (h : Keeps deeper g k w g' k') (h' : Keeps deeper g' k' w' g'' k'') :
    Keeps deeper g k (w ++ w') g'' k'' := by
  induction h with
  | done => exact h'
  | openParen _ ih => exact .openParen (ih h')
  | closeParen _ ih => exact .closeParen (ih h')
  | brace braces inside _ ih => exact .brace braces inside (ih h')
  | indent inside _ ih => exact .indent inside (ih h')
  | dedent _ ih => exact .dedent (ih h')

/-- With at least so many parentheses open, these items keep them open, and the blocks. -/
def Kept (deeper : Bool) (least : Nat) (items : List Located) : Prop :=
  ∀ g k, least ≤ g → ∃ g' k', Keeps deeper g k (brackets items) g' k' ∧ g ≤ g' ∧ k ≤ k'

variable {least : Nat}

theorem Kept.nil : Kept deeper least [] :=
  fun g k _ => ⟨g, k, .done, Nat.le_refl g, Nat.le_refl k⟩

theorem Kept.append (h : Kept deeper least items) (h' : Kept deeper least items') :
    Kept deeper least (items ++ items') := by
  intro g k hg
  obtain ⟨g₁, k₁, hfirst, hg₁, hk₁⟩ := h g k hg
  obtain ⟨g₂, k₂, hsecond, hg₂, hk₂⟩ := h' g₁ k₁ (Nat.le_trans hg hg₁)
  rw [brackets_append]
  exact ⟨g₂, k₂, hfirst.append hsecond, Nat.le_trans hg₁ hg₂, Nat.le_trans hk₁ hk₂⟩

theorem Kept.mono (h : Kept deeper 0 items) : Kept deeper least items :=
  fun g k _ => h g k (Nat.zero_le g)

theorem Kept.cons (hl : l.item.bracket? = none) (h : Kept deeper least ls) :
    Kept deeper least (l :: ls) := by
  intro g k hg
  rw [brackets_cons_of_none hl]
  exact h g k hg

/-- What stands in parentheses may count on them, closed or not. -/
theorem Kept.parens {close : List Located} (hl : l.item = .token .openParen)
    (h : Kept deeper 1 ls)
    (hclose : close = [] ∨ ∃ c, close = [c] ∧ c.item = .token .closeParen) :
    Kept deeper 0 (l :: (ls ++ close)) := by
  intro g k _
  obtain ⟨g', k', hkeeps, hg', hk'⟩ := h (g + 1) k (Nat.le_add_left 1 g)
  have hopen : brackets (l :: (ls ++ close)) =
      .opening .parens :: (brackets ls ++ brackets close) := by
    rw [brackets_cons_of_some (by rw [hl]; rfl), brackets_append]
  rw [hopen]
  rcases hclose with rfl | ⟨c, rfl, hc⟩
  · refine ⟨g', k', .openParen (hkeeps.append .done), ?_, hk'⟩
    omega
  · refine ⟨g' - 1, k', .openParen (hkeeps.append ?_), ?_, hk'⟩
    · rw [brackets_cons_of_some (by rw [hc]; rfl)]
      exact .closeParen .done
    · omega

/-- In parentheses a single item is passed over, unless it ends them or a block. -/
theorem kept_singleton (hclose : l.item ≠ .token .closeParen) (hdedent : l.item ≠ .dedent) :
    Kept deeper 1 [l] := by
  intro g k hg
  cases hb : l.item.bracket? with
  | none =>
    rw [brackets_cons_of_none hb]
    exact ⟨g, k, .done, Nat.le_refl g, Nat.le_refl k⟩
  | some b =>
    rw [brackets_cons_of_some hb]
    have hitem := Item.bracket?_eq_some.1 hb
    match b with
    | .opening .parens => exact ⟨g + 1, k, .openParen .done, Nat.le_succ g, Nat.le_refl k⟩
    | .opening .braces | .closing .braces =>
      exact ⟨g, k, .brace rfl hg .done, Nat.le_refl g, Nat.le_refl k⟩
    | .opening .block =>
      exact ⟨g, k + 1, .indent (Or.inr hg) .done, Nat.le_refl g, Nat.le_succ k⟩
    | .closing .parens => exact absurd hitem hclose
    | .closing .block => exact absurd hitem hdedent

/-! ## Stretches without blocks -/

/-- An expression goes on at no bracket but an opening parenthesis. -/
theorem endsExpr_of_bracket {b : Bracket} (hb : l.item.bracket? = some b)
    (hne : b ≠ .opening .parens) : endsExpr l.item = true := by
  rw [Item.bracket?_eq_some.1 hb]
  rcases b with e | e
  · cases e
    · exact absurd rfl hne
    · rfl
    · rfl
  · cases e <;> rfl

theorem ne_opening_of_bracket {b : Bracket} (hb : l.item.bracket? = some b)
    (hopen : l.item ≠ .token .openParen) : b ≠ .opening .parens := by
  rintro rfl
  exact hopen (Item.bracket?_eq_some.1 hb)

theorem braces_of_bracket {b : Bracket} (hb : l.item.bracket? = some b)
    (hopen : l.item ≠ .token .openParen) (hclose : l.item ≠ .token .closeParen)
    (hindent : l.item ≠ .indent) (hdedent : l.item ≠ .dedent) : b.enclosure = .braces := by
  have hitem := Item.bracket?_eq_some.1 hb
  match b with
  | .opening .braces | .closing .braces => rfl
  | .opening .parens => exact absurd hitem hopen
  | .closing .parens => exact absurd hitem hclose
  | .opening .block => exact absurd hitem hindent
  | .closing .block => exact absurd hitem hdedent

/-- An item at which something of depth `depth` goes on is no bracket, or a brace in parentheses. -/
theorem Keeps.cons_item {depth : Nat} (hdepth : depth ≤ g)
    (hparen : ∀ b, l.item.bracket? = some b → b.enclosure = .braces ∧ 0 < depth)
    (h : Keeps deeper g k (brackets ls) g' k') : Keeps deeper g k (brackets (l :: ls)) g' k' := by
  cases hb : l.item.bracket? with
  | none =>
    rw [brackets_cons_of_none hb]
    exact h
  | some b =>
    obtain ⟨hbraces, hpos⟩ := hparen b hb
    rw [brackets_cons_of_some hb]
    exact .brace hbraces (Nat.lt_of_lt_of_le hpos hdepth) h

/-- The rest of an expression closes no more parentheses than are known to be open. -/
theorem keeps_exprRest (depth : Nat) (items : List Located) {g k : Nat} (h : depth ≤ g) :
    ∃ g', Keeps deeper g k (brackets (items.take (exprRest depth items))) g' k ∧
      g ≤ g' + depth := by
  induction items generalizing depth g with
  | nil => exact ⟨g, .done, Nat.le_add_right g depth⟩
  | cons l ls ih =>
    have hstop : ∃ g', Keeps deeper g k (brackets ((l :: ls).take 0)) g' k ∧ g ≤ g' + depth :=
      ⟨g, .done, Nat.le_add_right g depth⟩
    unfold exprRest
    split
    · exact hstop
    · exact hstop
    · exact hstop
    · next hitem =>
      obtain ⟨g', hkeeps, hg'⟩ := ih (depth + 1) (Nat.succ_le_succ h)
      refine ⟨g', ?_, by omega⟩
      rw [List.take_succ_cons, brackets_cons_of_some (by rw [hitem]; rfl)]
      exact .openParen hkeeps
    · next hitem =>
      cases depth with
      | zero => exact hstop
      | succ d =>
        obtain ⟨g', hkeeps, hg'⟩ := ih d (g := g - 1) (by omega)
        refine ⟨g', ?_, by omega⟩
        dsimp only
        rw [List.take_succ_cons, brackets_cons_of_some (by rw [hitem]; rfl)]
        exact .closeParen hkeeps
    · next heof hindent hdedent hopen hclose =>
      split
      · exact hstop
      · next hgoes =>
        obtain ⟨g', hkeeps, hg'⟩ := ih depth h
        refine ⟨g', ?_, hg'⟩
        rw [List.take_succ_cons]
        refine hkeeps.cons_item h fun b hb => ?_
        have hends := endsExpr_of_bracket hb (ne_opening_of_bracket hb hopen)
        have hbraces := braces_of_bracket hb hopen hclose hindent hdedent
        refine ⟨hbraces, Nat.pos_of_ne_zero fun hzero => hgoes ?_⟩
        simp [hzero, hends]

theorem kept_exprRest (items : List Located) :
    Kept deeper 0 (items.take (exprRest 0 items)) := by
  intro g k _
  obtain ⟨g', hkeeps, hg'⟩ := keeps_exprRest 0 items (Nat.zero_le g)
  exact ⟨g', k, hkeeps, hg', Nat.le_refl k⟩

/-- The rest of a statement has no brackets but parentheses. -/
theorem keeps_statementRest (deeper : Bool) (g k : Nat) (items : List Located) :
    ∃ g', Keeps deeper g k (brackets (items.take (statementRest items))) g' k := by
  induction items generalizing g with
  | nil => exact ⟨g, .done⟩
  | cons l ls ih =>
    unfold statementRest
    by_cases hends : endsStatement l.item = true
    · rw [List.takeWhile_cons_of_neg (by simp [hends])]
      exact ⟨g, .done⟩
    · rw [List.takeWhile_cons_of_pos (by simp [hends]), List.length_cons, List.take_succ_cons]
      cases hb : l.item.bracket? with
      | none =>
        rw [brackets_cons_of_none hb]
        exact ih g
      | some b =>
        rw [brackets_cons_of_some hb]
        have hitem := Item.bracket?_eq_some.1 hb
        match b with
        | .opening .parens =>
          obtain ⟨g', hkeeps⟩ := ih (g + 1)
          exact ⟨g', .openParen hkeeps⟩
        | .closing .parens =>
          obtain ⟨g', hkeeps⟩ := ih (g - 1)
          exact ⟨g', .closeParen hkeeps⟩
        | .opening .braces | .closing .braces | .opening .block | .closing .block =>
          exact absurd (by rw [hitem]; rfl) hends

/-! ## Headings -/

/-- The item opens a block that is closed like this. -/
def Opens (close : BlockEnd) (item : Item) : Prop :=
  close = .brace ∧ item = .token .openBrace ∨ close = .dedent ∧ item = .indent

/-- A heading keeps the brackets of its items to itself, apart from the one that opens its block. -/
def HeadingKeeps (deeper : Bool) (g k : Nat) (items : List Located) : Heading × Nat → Prop
  | (.declaration, n) => ∃ g', Keeps deeper g k (brackets (items.take n)) g' k
  | (.block close, n) => ∃ m opener, n = m + 1 ∧ items[m]? = some opener ∧
      Opens close opener.item ∧ ∃ g', Keeps deeper g k (brackets (items.take m)) g' k

theorem HeadingKeeps.cons {read : Heading × Nat} (h : HeadingKeeps deeper g' k ls read)
    (hitem : ∀ w g'', Keeps deeper g' k w g'' k →
      Keeps deeper g k (l.item.bracket?.toList ++ w) g'' k) :
    HeadingKeeps deeper g k (l :: ls) (read.1, read.2 + 1) := by
  obtain ⟨lead, n⟩ := read
  cases lead with
  | declaration =>
    obtain ⟨g'', hkeeps⟩ := h
    refine ⟨g'', ?_⟩
    rw [List.take_succ_cons, brackets_cons]
    exact hitem _ _ hkeeps
  | block close =>
    obtain ⟨m, opener, hn, hopener, hopens, g'', hkeeps⟩ := h
    refine ⟨m + 1, opener, congrArg (· + 1) hn, hopener, hopens, g'', ?_⟩
    rw [List.take_succ_cons, brackets_cons]
    exact hitem _ _ hkeeps

/-- At least as many parentheses are open as the reader of a heading counts. -/
theorem keeps_heading (deeper : Bool) (depth : Nat) (items : List Located) {g : Nat} (k : Nat)
    (h : depth ≤ g) :
    HeadingKeeps deeper g k items (heading depth items).2 := by
  induction items generalizing depth g with
  | nil => exact ⟨g, .done⟩
  | cons l ls ih =>
    have hstop : HeadingKeeps deeper g k (l :: ls) (.declaration, 0) := ⟨g, .done⟩
    have hnone : ∀ depth, depth ≤ g → l.item.bracket? = none →
        HeadingKeeps deeper g k (l :: ls)
          ((heading depth ls).2.1, (heading depth ls).2.2 + 1) := by
      intro depth hdepth hb
      refine (ih depth hdepth).cons fun w g'' hkeeps => ?_
      rw [hb]
      exact hkeeps
    have hbrace : ∀ b, 0 < depth → l.item.bracket? = some b → b.enclosure = .braces →
        HeadingKeeps deeper g k (l :: ls)
          ((heading depth ls).2.1, (heading depth ls).2.2 + 1) := by
      intro b hpos hb hbraces
      refine (ih depth h).cons fun w g'' hkeeps => ?_
      rw [hb]
      exact .brace hbraces (Nat.lt_of_lt_of_le hpos h) hkeeps
    unfold heading
    split
    · exact hstop
    · exact hstop
    · exact hstop
    · next t hitem =>
      dsimp only
      split
      · split
        · exact ⟨0, l, rfl, rfl, Or.inl ⟨rfl, hitem⟩, g, .done⟩
        · next hdepth =>
          exact hbrace (.opening .braces) (Nat.pos_of_ne_zero hdepth) (by rw [hitem]; rfl) rfl
      · split
        · split
          · next hindent =>
            cases ls with
            | nil => cases hindent
            | cons l' ls' =>
              refine ⟨1, l', rfl, rfl, Or.inr ⟨rfl, Option.some.inj hindent⟩, g, ?_⟩
              rw [List.take_succ_cons, brackets_cons_of_none (by rw [hitem]; rfl)]
              exact .done
          · refine ⟨g, ?_⟩
            rw [List.take_succ_cons, brackets_cons_of_none (by rw [hitem]; rfl)]
            exact .done
        · exact hnone depth h (by rw [hitem]; rfl)
      · split
        · exact hstop
        · exact hnone depth h (by rw [hitem]; rfl)
      · split
        · exact hstop
        · next hdepth =>
          exact hbrace (.closing .braces) (Nat.pos_of_ne_zero hdepth) (by rw [hitem]; rfl) rfl
      · refine (ih (depth + 1) (Nat.succ_le_succ h)).cons fun w g'' hkeeps => ?_
        rw [hitem]
        exact .openParen hkeeps
      · refine (ih (depth - 1) (g := g - 1) (by omega)).cons fun w g'' hkeeps => ?_
        rw [hitem]
        exact .closeParen hkeeps
      · next hopenBrace hnewline hsemicolon hcloseBrace hopenParen hcloseParen =>
        refine hnone depth h ?_
        rw [hitem]
        cases t <;> first | rfl | contradiction

/-! ## Expressions -/

theorem exists_of_startsWith {t : Token} (h : startsWith t items = true) :
    ∃ p ps, items = p :: ps ∧ p.item = .token t := by
  cases items with
  | nil => simp [startsWith] at h
  | cons p ps =>
    refine ⟨p, ps, rfl, ?_⟩
    simpa [startsWith] using h

theorem take_count (t : Token) (items : List Located) :
    items.take (count t items) = [] ∨
      ∃ c, items.take (count t items) = [c] ∧ c.item = .token t := by
  unfold count
  split
  · next hstarts =>
    obtain ⟨p, ps, rfl, hp⟩ := exists_of_startsWith hstarts
    exact Or.inr ⟨p, rfl, hp⟩
  · exact Or.inl rfl

/-- How many items an expression takes. -/
theorem length_expression (items : List Located) :
    (expression items).2 =
      let n := (primary items).2 + (sum (primary items).1 (items.drop (primary items).2)).2
      if atEnd (items.drop n) then n else n + exprRest 0 (items.drop n) := by
  rw [expression.eq_def]
  dsimp only
  split
  · rfl
  · split <;> rfl

mutual

theorem kept_primary (deeper : Bool) (items : List Located) :
    Kept deeper 0 (items.take (primary items).2) := by
  match items with
  | [] =>
    rw [List.take_nil]
    exact .nil
  | l :: ls =>
    have hargs := kept_arguments deeper (ls.drop 1)
    have hinner := kept_expression deeper ls
    have hsingle : l.item.bracket? = none → Kept deeper 0 ((l :: ls).take 1) := fun hl =>
      Kept.nil.cons hl
    rw [primary.eq_def]
    dsimp only
    split
    · next hitem => exact hsingle (by rw [hitem]; rfl)
    · next hitem => exact hsingle (by rw [hitem]; rfl)
    · next hitem => exact hsingle (by rw [hitem]; rfl)
    · next name hitem =>
      split
      · next hopen =>
        obtain ⟨p, ps, rfl, hp⟩ := exists_of_startsWith hopen
        show Kept deeper 0 ((l :: p :: ps).take (2 + (arguments ps).2 +
          count .closeParen ((p :: ps).drop (1 + (arguments ps).2))))
        rw [Nat.add_comm 1, List.drop_succ_cons]
        have hcut : (l :: p :: ps).take (2 + (arguments ps).2 +
              count .closeParen (ps.drop (arguments ps).2)) =
            l :: p :: (ps.take (arguments ps).2 ++
              (ps.drop (arguments ps).2).take (count .closeParen (ps.drop (arguments ps).2))) := by
          rw [Nat.add_assoc, Nat.add_comm 2, List.take_succ_cons, List.take_succ_cons,
            List.take_add]
        rw [hcut]
        exact (hargs.parens hp (take_count _ _)).cons (by rw [hitem]; rfl)
      · exact hsingle (by rw [hitem]; rfl)
    · next hitem =>
      split
      · next hclose =>
        obtain ⟨c, cs, hrest, hc⟩ := exists_of_startsWith hclose
        show Kept deeper 0 ((l :: ls).take (1 + (expression ls).2 + 1))
        have hcut : (l :: ls).take (1 + (expression ls).2 + 1) =
            l :: (ls.take (expression ls).2 ++ [c]) := by
          rw [List.take_succ_cons, Nat.add_comm 1, List.take_add, hrest]
          rfl
        rw [hcut]
        exact hinner.mono.parens hitem (Or.inr ⟨c, rfl, hc⟩)
      · show Kept deeper 0 ((l :: ls).take
          (1 + (expression ls).2 + exprRest 0 (ls.drop (expression ls).2)))
        have hcut : (l :: ls).take
              (1 + (expression ls).2 + exprRest 0 (ls.drop (expression ls).2)) =
            l :: (ls.take (expression ls).2 ++ (ls.drop (expression ls).2).take
              (exprRest 0 (ls.drop (expression ls).2)) ++ []) := by
          rw [List.append_nil, Nat.add_assoc, Nat.add_comm 1, List.take_succ_cons, List.take_add]
        rw [hcut]
        exact (hinner.append (kept_exprRest _)).mono.parens hitem (Or.inl rfl)
    · next hstring hnumber hurl hident hparen =>
      dsimp only
      split
      · exact .nil
      · next hends =>
        refine hsingle (Option.eq_none_iff_forall_ne_some.2 fun b hb => hends ?_)
        exact endsExpr_of_bracket hb (ne_opening_of_bracket hb hparen)
termination_by 4 * items.length
decreasing_by all_goals (simp only [List.length_cons, List.length_drop]; omega)

theorem kept_sum (deeper : Bool) (left : Expr) (items : List Located) :
    Kept deeper 0 (items.take (sum left items).2) := by
  match items with
  | [] =>
    rw [List.take_nil]
    exact .nil
  | l :: ls =>
    have hright := kept_primary deeper ls
    have hmore := kept_sum deeper (.concat left (primary ls).1) (ls.drop (primary ls).2)
    rw [sum.eq_def]
    dsimp only
    split
    · next hplus =>
      show Kept deeper 0 ((l :: ls).take (1 + (primary ls).2 +
        (sum (.concat left (primary ls).1) (ls.drop (primary ls).2)).2))
      rw [Nat.add_assoc, Nat.add_comm 1, List.take_succ_cons, List.take_add]
      exact (hright.append hmore).cons (by rw [hplus]; rfl)
    · exact .nil
termination_by 4 * items.length
decreasing_by all_goals (simp only [List.length_cons, List.length_drop]; omega)

theorem kept_expression (deeper : Bool) (items : List Located) :
    Kept deeper 0 (items.take (expression items).2) := by
  have hfirst := kept_primary deeper items
  have hmore := kept_sum deeper (primary items).1 (items.drop (primary items).2)
  have hboth := hfirst.append hmore
  rw [← List.take_add] at hboth
  rw [length_expression]
  dsimp only
  split
  · exact hboth
  · rw [List.take_add]
    exact hboth.append (kept_exprRest _)
termination_by 4 * items.length + 1
decreasing_by
  · omega
  · simp only [List.length_drop]; omega

theorem kept_arguments (deeper : Bool) (items : List Located) :
    Kept deeper 1 (items.take (arguments items).2) := by
  match items with
  | [] =>
    rw [List.take_nil]
    exact .nil
  | l :: ls =>
    have hskip := kept_arguments deeper ls
    have harg := kept_expression deeper (l :: ls)
    have hmore := kept_arguments deeper (ls.drop ((expression (l :: ls)).2 - 1))
    rw [arguments.eq_def]
    dsimp only
    split
    · exact .nil
    · exact .nil
    · exact .nil
    · next hitem => exact hskip.cons (by rw [hitem]; rfl)
    · next hitem => exact hskip.cons (by rw [hitem]; rfl)
    · next hclose heof hdedent hcomma hnewline =>
      show Kept deeper 1 ((l :: ls).take ((expression (l :: ls)).2 - 1 + 1 +
        (arguments (ls.drop ((expression (l :: ls)).2 - 1))).2))
      rw [List.take_add, List.drop_succ_cons]
      refine Kept.append ?_ hmore
      -- The item is passed over if no expression starts with it.
      by_cases hzero : (expression (l :: ls)).2 = 0
      · rw [hzero]
        exact kept_singleton hclose hdedent
      · rw [Nat.sub_add_cancel (Nat.pos_of_ne_zero hzero)]
        exact harg.mono
termination_by 4 * items.length + 2
decreasing_by all_goals (simp only [List.length_cons, List.length_drop]; omega)

end

/-! ## Statements -/

/-- No line behind a comma is indented deeper. -/
def commasLevel : List Located → Bool
  | [] => true
  | l :: ls => (l.item ≠ .token .comma || !(afterComma ls).2) && commasLevel ls

theorem commasLevel_drop (h : commasLevel items = true) (n : Nat) :
    commasLevel (items.drop n) = true := by
  induction n generalizing items with
  | zero => exact h
  | succ n ih =>
    cases items with
    | nil => exact h
    | cons l ls => exact ih (Bool.and_eq_true_iff.1 h).2

theorem brackets_newlines (items : List Located) :
    brackets (items.take (newlines items)) = [] := by
  induction items with
  | nil => rfl
  | cons l ls ih =>
    unfold newlines
    by_cases hnewline : l.item = .token .newline
    · rw [List.takeWhile_cons_of_pos (by simp [hnewline]), List.length_cons, List.take_succ_cons,
        brackets_cons_of_none (by rw [hnewline]; rfl)]
      exact ih
    · rw [List.takeWhile_cons_of_neg (by simp [hnewline])]
      rfl

/-- Line breaks and the item behind them have the brackets of that item. -/
theorem brackets_take_newlines {item : Item}
    (h : (items.drop (newlines items)).head?.map Located.item = some item) :
    brackets (items.take (newlines items + 1)) = item.bracket?.toList := by
  rw [List.take_add, brackets_append, brackets_newlines, List.nil_append]
  cases hrest : items.drop (newlines items) with
  | nil => rw [hrest] at h; cases h
  | cons l ls =>
    rw [hrest] at h
    obtain rfl := Option.some.inj h
    rw [List.take_succ_cons, List.take_zero, brackets_cons, brackets_nil, List.append_nil]

theorem keeps_afterComma (items : List Located) (g k : Nat)
    (h : deeper = true ∨ (afterComma items).2 = false) :
    Keeps deeper g k (brackets (items.take (afterComma items).1)) g
      (k + (afterComma items).2.toNat) := by
  unfold afterComma at h ⊢
  dsimp only at h ⊢
  split
  · next hindent =>
    rw [if_pos hindent] at h
    rw [brackets_take_newlines hindent]
    exact .indent (Or.inl (h.resolve_right (by simp))) .done
  · rw [brackets_newlines]
    exact .done

/-- A list of path expressions leaves the indentation open that it has found. -/
theorem keeps_expressions (items : List Located) (h : deeper = true ∨ commasLevel items = true)
    (g k : Nat) :
    ∃ g' k', Keeps deeper g k (brackets (items.take (expressions items).2.2)) g' k' ∧
      k + (expressions items).2.1 ≤ k' := by
  induction hlength : items.length using Nat.strongRecOn generalizing items g k with
  | ind length ih =>
    obtain ⟨g₁, k₁, hfirst, -, hk₁⟩ := kept_expression deeper items g k (Nat.zero_le g)
    rw [expressions_eq]
    split
    · exact ⟨g₁, k₁, hfirst, hk₁⟩
    · next l ls hrest =>
      split
      · next hcomma =>
        have hshorter : (ls.drop (afterComma ls).1).length < length := by
          have hlen := congrArg List.length hrest
          simp only [List.length_drop, List.length_cons] at hlen ⊢
          omega
        have hlevel : deeper = true ∨
            (afterComma ls).2 = false ∧ commasLevel (ls.drop (afterComma ls).1) = true := by
          refine h.imp id fun hall => ?_
          have hdrop := commasLevel_drop hall (expression items).2
          rw [hrest] at hdrop
          obtain ⟨hhere, hbehind⟩ := Bool.and_eq_true_iff.1 hdrop
          exact ⟨by simpa [hcomma] using hhere, commasLevel_drop hbehind _⟩
        have hgap := keeps_afterComma ls g₁ k₁ (hlevel.imp id And.left)
        obtain ⟨g₂, k₂, hothers, hk₂⟩ := ih _ hshorter (ls.drop (afterComma ls).1)
          (hlevel.imp id And.right) g₁ (k₁ + (afterComma ls).2.toNat) rfl
        refine ⟨g₂, k₂, ?_, ?_⟩
        · have hcount : (expression items).2 + 1 + (afterComma ls).1 +
                (expressions (ls.drop (afterComma ls).1)).2.2 =
              (expression items).2 + ((afterComma ls).1 +
                (expressions (ls.drop (afterComma ls).1)).2.2 + 1) := by omega
          dsimp only
          rw [hcount, List.take_add, hrest, List.take_succ_cons, List.take_add, brackets_append,
            brackets_cons_of_none (by rw [hcomma]; rfl), brackets_append]
          exact hfirst.append (hgap.append hothers)
        · dsimp only
          omega
      · exact ⟨g₁, k₁, hfirst, hk₁⟩

/-- The indentation of a list is closed as often as it was found, or less. -/
theorem keeps_continuationRest (deeper : Bool) (indents : Nat) (items : List Located) (g : Nat)
    {k : Nat} (h : indents ≤ k) :
    ∃ k', Keeps deeper g k (brackets (items.take (continuationRest indents items))) g k' := by
  induction indents generalizing items k with
  | zero => exact ⟨k, .done⟩
  | succ indents ih =>
    unfold continuationRest
    dsimp only
    split
    · next hdedent =>
      obtain ⟨k, rfl⟩ : ∃ less, k = less + 1 := ⟨k - 1, by omega⟩
      obtain ⟨k', hkeeps⟩ := ih (items.drop (newlines items + 1)) (Nat.le_of_succ_le_succ h)
      refine ⟨k', ?_⟩
      rw [List.take_add, brackets_append, brackets_take_newlines hdedent]
      exact .dedent hkeeps
    · rw [brackets_newlines]
      exact ⟨k, .done⟩

theorem keeps_importing (kind : ImportKind) (l : Located) (ls : List Located)
    (h : deeper = true ∨ commasLevel ls = true) :
    ∃ g' k', Keeps deeper 0 0 (brackets (ls.take (importing kind l ls).2)) g' k' := by
  obtain ⟨g₁, k₁, hpaths, hindents⟩ := keeps_expressions ls h 0 0
  unfold importing
  dsimp only
  generalize expressions ls = read at hpaths hindents ⊢
  obtain ⟨exprs, indents, n⟩ := read
  dsimp only at hpaths hindents ⊢
  obtain ⟨g₂, hrest⟩ := keeps_statementRest deeper g₁ k₁ (ls.drop n)
  generalize statementRest (ls.drop n) = m at hrest ⊢
  have hsemicolon :
      brackets ((ls.drop (n + m)).take (count .semicolon (ls.drop (n + m)))) = [] := by
    refine brackets_eq_nil fun c hc => ?_
    rcases take_count .semicolon (ls.drop (n + m)) with hnone | ⟨c', hc', hitem⟩
    · rw [hnone] at hc
      cases hc
    · rw [hc', List.mem_singleton] at hc
      rw [hc, hitem]
      rfl
  generalize count .semicolon (ls.drop (n + m)) = j at hsemicolon ⊢
  obtain ⟨k', hclosed⟩ := keeps_continuationRest deeper indents (ls.drop (n + m + j)) g₂
    (Nat.zero_add indents ▸ hindents)
  refine ⟨g₂, k', ?_⟩
  rw [List.take_add, List.take_add, List.take_add, brackets_append, brackets_append,
    brackets_append, hsemicolon, List.append_nil]
  exact (hpaths.append hrest).append hclosed

theorem keeps_assignment (name : String) (op : AssignOp) (ls : List Located) :
    ∃ g' k', Keeps deeper 0 0 (brackets (ls.take (assignment name op ls).2)) g' k' := by
  obtain ⟨g₁, k₁, hvalue, -, -⟩ := kept_expression deeper ls 0 0 (Nat.le_refl 0)
  obtain ⟨g₂, hrest⟩ := keeps_statementRest deeper g₁ k₁
    (ls.drop (expression ls).2)
  refine ⟨g₂, k₁, ?_⟩
  unfold assignment
  dsimp only
  rw [List.take_add, brackets_append]
  exact hvalue.append hrest

theorem heading_pos (ls : List Located) (depth : Nat)
    (hstarts : startsStatement l.item = true) :
    0 < (heading depth (l :: ls)).2.2 := by
  unfold heading
  split
  · next hitem => rw [hitem] at hstarts; cases hstarts
  · next hitem => rw [hitem] at hstarts; cases hstarts
  · next hitem => rw [hitem] at hstarts; cases hstarts
  · next t hitem =>
    dsimp only
    split
    · split
      · exact Nat.one_pos
      · exact Nat.succ_pos _
    · rw [hitem] at hstarts; cases hstarts
    · rw [hitem] at hstarts; cases hstarts
    · rw [hitem] at hstarts; cases hstarts
    · exact Nat.succ_pos _
    · exact Nat.succ_pos _
    · exact Nat.succ_pos _

theorem bracket?_of_assignOp {item : Item} {op : AssignOp} (h : assignOp? item = some op) :
    item.bracket? = none := by
  unfold assignOp? at h
  split at h
  · rfl
  · rfl
  · rfl
  · cases h

/-- A statement without a block keeps all of its brackets to itself. -/
theorem keeps_complete {node : Node} {n : Nat} (hstarts : startsStatement l.item = true)
    (h : deeper = true ∨ commasLevel ls = true) (hopening : opening l ls = (.complete node, n)) :
    ∃ g' k', Keeps deeper 0 0 (brackets (l :: ls.take n)) g' k' := by
  cases opening_eq_iff.1 hopening with
  | import_ kind hitem =>
    rw [brackets_cons_of_none (by rw [hitem]; cases kind <;> rfl)]
    exact keeps_importing kind l ls h
  | assigns hitem split hop =>
    subst split
    rw [Nat.add_comm, List.take_succ_cons, brackets_cons_of_none (by rw [hitem]; rfl),
      brackets_cons_of_none (bracket?_of_assignOp hop)]
    exact keeps_assignment _ _ _
  | declaration _ hheading =>
    have hkeeps := keeps_heading deeper 0 (l :: ls) 0 (Nat.le_refl 0)
    have hpos := heading_pos ls 0 hstarts
    rw [hheading] at hkeeps hpos
    obtain ⟨g', hkeeps⟩ := hkeeps
    refine ⟨g', 0, ?_⟩
    rw [← List.take_succ_cons, Nat.sub_add_cancel hpos]
    exact hkeeps

/-- A statement with a block keeps to itself what stands in front of the block. -/
theorem keeps_before (deeper : Bool) {selector : String} {close : BlockEnd} {n : Nat}
    (hopening : opening l ls = (.before selector close, n)) :
    ∃ opener, (l :: ls)[n]? = some opener ∧ Opens close opener.item ∧
      ∃ g' k', Keeps deeper 0 0 (brackets ((l :: ls).take n)) g' k' := by
  cases opening_eq_iff.1 hopening with
  | @block _ _ m _ hheading =>
    have hkeeps := keeps_heading deeper 0 (l :: ls) 0 (Nat.le_refl 0)
    rw [hheading] at hkeeps
    obtain ⟨j, opener, hm, hopener, hopens, g', hkeeps⟩ := hkeeps
    obtain rfl : m = j + 1 := hm
    exact ⟨opener, hopener, hopens, g', 0, hkeeps⟩

end StyleWeave.Syntax
