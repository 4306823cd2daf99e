import StyleWeave.Proofs.Syntax.Exchange
import StyleWeave.Proofs.Syntax.Flow
import StyleWeave.Proofs.Syntax.Folding
import StyleWeave.Proofs.Token.Tiling

/-!
# Lists of path expressions over several lines

A list may go on on the next line behind each of its commas. Where it is broken there, it is read as
the same list: inside brackets because the line break is passed over (`Broken.bracketed`), and on a
line of its own because the list counts the block that the break opens, whose end stands where the
line ended (`Broken.oneLine`).
-/

namespace StyleWeave

namespace Syntax

variable {chosen : Nat → Prop} {opens : Prop} {owed : Bool} {xs ys ls ls' : List Located}
variable {l l' : Located} {n : Nat}

/-! ## The commas of a list -/

/-- Where the commas between path expressions stop. -/
def pathCommas (items : List Located) : List Nat :=
  match _h : items.drop (expression items).2 with
  | [] => []
  | l :: ls =>
    if l.item = .token .comma then l.stop :: pathCommas (ls.drop (afterComma ls).1) else []
termination_by items.length
decreasing_by
  have := congrArg List.length _h
  simp only [List.length_drop, List.length_cons] at *
  omega

/-- No comma among the items is chosen. -/
def Spared (chosen : Nat → Prop) (items : List Located) : Prop :=
  ∀ l ∈ items, l.item = .token .comma → ¬ chosen l.stop

/-- Of the commas in a list of path expressions, only those between the expressions are chosen. -/
inductive ListBreaks (chosen : Nat → Prop) : List Located → Prop where
  | last {items : List Located} (spared : Spared chosen items)
      (ends : (items.drop (expression items).2).head?.map Located.item ≠ some (.token .comma)) :
      ListBreaks chosen items
  | next {items ls : List Located} {l : Located}
      (first : Spared chosen (items.take (expression items).2))
      (drop : items.drop (expression items).2 = l :: ls) (comma : l.item = .token .comma)
      (others : ListBreaks chosen (ls.drop (afterComma ls).1)) : ListBreaks chosen items

theorem expressions_last
    (h : (xs.drop (expression xs).2).head?.map Located.item ≠ some (.token .comma)) :
    expressions xs = ([(expression xs).1], 0, (expression xs).2) := by
  rw [expressions_eq]
  cases hcons : xs.drop (expression xs).2 with
  | nil => rfl
  | cons l ls =>
    rw [hcons] at h
    have hcomma : l.item ≠ .token .comma := fun heq => h (congrArg some heq)
    exact if_neg hcomma

theorem expressions_next (hdrop : xs.drop (expression xs).2 = l :: ls)
    (hcomma : l.item = .token .comma) :
    expressions xs =
      ((expression xs).1 :: (expressions (ls.drop (afterComma ls).1)).1,
        (expressions (ls.drop (afterComma ls).1)).2.1 + (afterComma ls).2.toNat,
        (expression xs).2 + 1 + (afterComma ls).1 +
          (expressions (ls.drop (afterComma ls).1)).2.2) := by
  rw [expressions_eq, hdrop]
  exact if_pos hcomma

theorem drop_of_drop_cons (hdrop : xs.drop n = l :: ls) (k : Nat) :
    xs.drop (n + 1 + k) = ls.drop k := by
  rw [← List.drop_drop, ← List.drop_drop, hdrop]
  rfl

theorem importLength_next (hdrop : xs.drop (expression xs).2 = l :: ls)
    (hcomma : l.item = .token .comma) :
    importLength xs =
      (expression xs).2 + 1 + (afterComma ls).1 + importLength (ls.drop (afterComma ls).1) := by
  have hbehind : ∀ j, xs.drop ((expression xs).2 + 1 + (afterComma ls).1 + j) =
      (ls.drop (afterComma ls).1).drop j := by
    intro j
    rw [← List.drop_drop, drop_of_drop_cons hdrop]
  unfold importLength
  rw [expressions_next hdrop hcomma]
  dsimp only
  generalize ls.drop (afterComma ls).1 = rest at hbehind ⊢
  generalize (expression xs).2 + 1 + (afterComma ls).1 = k at hbehind ⊢
  generalize (expressions rest).2.2 = m
  rw [hbehind, Nat.add_assoc k m, hbehind]
  omega

/-! ## Broken lists -/

theorem Broken.head (h : Broken chosen opens owed xs ys) :
    ys.head?.map Located.item = xs.head?.map Located.item := by
  cases h with
  | same same => exact same.head.symm
  | item item _ _ => exact congrArg some item.symm
  | comma item item' _ _ _ | deeper _ item item' _ _ _ _ _ | paid item item' _ _ _ =>
    exact congrArg some (item'.trans item.symm)

/-- Where no comma is chosen, and no line ends that owes anything, the items are the same. -/
theorem Broken.split (h : Broken chosen opens owed xs ys) (n : Nat)
    (hspared : Spared chosen (xs.take n))
    (hline : owed = true → ∀ l ∈ xs.take n, l.item ≠ .token .newline) :
    SameItems (xs.take n) (ys.take n) ∧ Broken chosen opens owed (xs.drop n) (ys.drop n) := by
  induction n generalizing xs ys with
  | zero => exact ⟨rfl, h⟩
  | succ n ih =>
    cases h with
    | same same =>
      have htake := congrArg (List.take (n + 1)) same
      rw [← List.map_take, ← List.map_take] at htake
      exact ⟨htake, .same (same.drop _)⟩
    | item item solid others =>
      obtain ⟨hsame, hrest⟩ := ih others (fun e he => hspared e (List.mem_cons_of_mem _ he))
        fun howed e he => hline howed e (List.mem_cons_of_mem _ he)
      exact ⟨SameItems.cons_iff.2 ⟨item, hsame⟩, hrest⟩
    | comma item _ _ chosen_ _ | deeper _ item _ _ _ chosen_ _ _ =>
      exact absurd chosen_ (hspared _ List.mem_cons_self item)
    | paid item _ _ _ _ => exact absurd item (hline rfl _ List.mem_cons_self)

/-- Where no comma is chosen, nothing is broken. -/
theorem Broken.same_of_spared (h : Broken chosen opens false xs ys) (hspared : Spared chosen xs) :
    SameItems xs ys := by
  obtain ⟨hsame, hrest⟩ := h.split xs.length (by rwa [List.take_length]) (by simp)
  rw [List.drop_length] at hrest
  have hnone : ys.drop xs.length = [] := by
    cases hrest with
    | same same => exact List.map_eq_nil_iff.1 (Eq.symm same)
  have hall := List.take_append_drop xs.length ys
  rw [hnone, List.append_nil] at hall
  rwa [List.take_length, hall] at hsame

theorem same_of_take {xs ys : List Located} (h : SameItems (xs.take n) (ys.take n))
    (hhead : (ys.drop n).head?.map Located.item = (xs.drop n).head?.map Located.item) :
    Same (n + 1) xs ys := by
  have hnext : ∀ items : List Located, (items.map Located.item).take (n + 1) =
      (items.take n).map Located.item ++ ((items.drop n).head?.map Located.item).toList := by
    intro items
    rw [← List.map_take, List.take_add_one, List.map_append, List.head?_drop]
    cases items[n]? <;> rfl
  unfold Same
  rw [hnext, hnext, hhead, h]

/-- An expression without chosen commas is read as it was. -/
theorem Broken.expression (h : Broken chosen opens owed xs ys)
    (hspared : Spared chosen (xs.take (expression xs).2))
    (hline : owed = true → ∀ l ∈ xs.take (expression xs).2, l.item ≠ .token .newline) :
    Syntax.expression ys = Syntax.expression xs ∧
      Broken chosen opens owed (xs.drop (Syntax.expression xs).2)
        (ys.drop (Syntax.expression xs).2) := by
  obtain ⟨hsame, hrest⟩ := h.split _ hspared hline
  exact ⟨same_expression _ _ (same_of_take hsame hrest.head), hrest⟩

/-! ## What a list leaves -/

/-- What is left of a broken text behind a statement is what is left of the text. If a block is
owed, its end comes first, perhaps behind a line break. -/
inductive Leftover : Bool → List Located → List Located → Prop where
  | same {xs ys : List Located} (same : SameItems xs ys) : Leftover false xs ys
  | line {feed feed' dedent : Located} {behind behind' : List Located}
      (item : feed.item = .token .newline) (item' : feed'.item = .token .newline)
      (ends : dedent.item = .dedent) (same : SameItems behind behind') :
      Leftover true (feed :: behind) (feed' :: dedent :: behind')
  | list {dedent : Located} {behind behind' : List Located} (ends : dedent.item = .dedent)
      (same : SameItems behind behind') : Leftover true behind (dedent :: behind')

/-- A broken list is read as the list. The block that is `owed` from before the list is not counted
among those that it opens. -/
structure Outcome (owed owed' : Bool) (xs ys : List Located) : Prop where
  exprs : (expressions ys).1 = (expressions xs).1
  indents : (expressions ys).2.1 + owed.toNat = (expressions xs).2.1 + owed'.toNat
  leftover : Leftover owed' (xs.drop (importLength xs)) (ys.drop (importLength ys))

variable {owed' owed₁ : Bool}

theorem Outcome.of_same (h : SameItems xs ys) : Outcome false false xs ys := by
  have hlength : importLength ys = importLength xs := (Same.symm (h.same _)).importLength
  refine ⟨congrArg Prod.fst h.expressions.symm, ?_, ?_⟩
  · rw [h.expressions]
  · rw [hlength]
    exact .same (h.drop _)

/-- An expression, its comma and what may follow that. -/
theorem Outcome.next {more more' : List Located} {m : Located}
    (h : Outcome owed₁ owed' (more.drop (afterComma more).1) (more'.drop (afterComma more').1))
    (hfirst : Syntax.expression ys = Syntax.expression xs)
    (hdrop : xs.drop (Syntax.expression xs).2 = l :: more) (hcomma : l.item = .token .comma)
    (hdrop' : ys.drop (Syntax.expression xs).2 = m :: more') (hcomma' : m.item = .token .comma)
    (hopened : (afterComma more').2.toNat + owed.toNat = (afterComma more).2.toNat + owed₁.toNat) :
    Outcome owed owed' xs ys := by
  rw [← hfirst] at hdrop'
  obtain ⟨hexprs, hindents, hleftover⟩ := h
  refine ⟨?_, ?_, ?_⟩
  · rw [expressions_next hdrop hcomma, expressions_next hdrop' hcomma', hfirst, hexprs]
  · rw [expressions_next hdrop hcomma, expressions_next hdrop' hcomma']
    dsimp only
    omega
  · rw [importLength_next hdrop hcomma, importLength_next hdrop' hcomma',
      Nat.add_assoc _ (afterComma more).1, Nat.add_assoc _ (afterComma more').1,
      drop_of_drop_cons hdrop, drop_of_drop_cons hdrop', ← List.drop_drop, ← List.drop_drop]
    exact hleftover

/-! ## Lists inside brackets -/

theorem not_comma_afterComma (items : List Located) :
    ∀ l ∈ items.take (afterComma items).1, l.item ≠ .token .comma := by
  have hfeeds : ∀ l ∈ items.take (newlines items), l.item = .token .newline := by
    intro l hl
    have htake : items.take (newlines items) = items.takeWhile fun l => l.item = .token .newline :=
      List.prefix_iff_eq_take.1 (List.takeWhile_prefix _) |>.symm
    rw [htake] at hl
    simpa using List.mem_takeWhile_imp hl
  intro l hl
  unfold afterComma at hl
  dsimp only at hl
  split at hl
  · next hindent =>
    rw [List.take_add_one, List.mem_append] at hl
    rcases hl with hl | hl
    · rw [hfeeds l hl]
      decide
    · rw [List.head?_drop] at hindent
      rw [Option.mem_toList] at hl
      rw [hl] at hindent
      rw [Option.some.inj hindent]
      decide
  · rw [hfeeds l hl]
    decide

/-- The list goes on as it did where no block is opened by a break. -/
theorem Broken.afterComma (h : Broken chosen opens false ls ls') :
    Syntax.afterComma ls' = Syntax.afterComma ls ∧
      Broken chosen opens false (ls.drop (Syntax.afterComma ls).1)
        (ls'.drop (Syntax.afterComma ls).1) := by
  obtain ⟨hsame, hrest⟩ := h.split (Syntax.afterComma ls).1
    (fun l hl hcomma => absurd hcomma (not_comma_afterComma ls l hl)) (by simp)
  exact ⟨(same_of_take hsame hrest.head).afterComma, hrest⟩

theorem newlines_feed (h : l.item = .token .newline) (ls : List Located) :
    newlines (l :: ls) = newlines ls + 1 := by
  unfold newlines
  rw [List.takeWhile_cons_of_pos (by simp [h])]
  rfl

theorem newlines_zero (h : ∀ e ∈ ls.head?, e.item ≠ .token .newline) : newlines ls = 0 := by
  cases ls with
  | nil => rfl
  | cons e ls =>
    unfold newlines
    rw [List.takeWhile_cons_of_neg (by simpa using h e rfl)]
    rfl

theorem afterComma_newline (h : l.item = .token .newline) (ls : List Located) :
    afterComma (l :: ls) = ((afterComma ls).1 + 1, (afterComma ls).2) := by
  unfold afterComma
  dsimp only
  rw [newlines_feed h, List.drop_succ_cons]
  split <;> rfl

/-- Behind a comma there may be a break, or one that opens a block. -/
theorem Broken.comma_cases (h : Broken chosen opens owed (l :: ls) ys)
    (hcomma : l.item = .token .comma) :
    ∃ m more owed₁ ls', ys = m :: more ∧ m.item = .token .comma ∧ Broken chosen opens owed₁ ls ls' ∧
      (owed₁ = owed ∧ (more = ls' ∨ ∃ f, more = f :: ls' ∧ f.item = .token .newline) ∨
        opens ∧ owed = false ∧ owed₁ = true ∧ (∀ next ∈ ls.head?, next.IsSolid) ∧
          ∃ f i, more = f :: i :: ls' ∧ f.item = .token .newline ∧ i.item = .indent) := by
  cases h with
  | same same =>
    cases ys with
    | nil => cases same
    | cons m ls' =>
      obtain ⟨hitem, hsame⟩ := SameItems.cons_iff.1 same
      exact ⟨m, ls', false, ls', rfl, hitem ▸ hcomma, .same hsame, Or.inl ⟨rfl, Or.inl rfl⟩⟩
  | item item _ others =>
    exact ⟨_, _, owed, _, rfl, item ▸ hcomma, others, Or.inl ⟨rfl, Or.inl rfl⟩⟩
  | comma _ item' feed _ others =>
    exact ⟨_, _, owed, _, rfl, item', others, Or.inl ⟨rfl, Or.inr ⟨_, rfl, feed⟩⟩⟩
  | deeper opens_ _ item' feed indent _ solid others =>
    exact ⟨_, _, true, _, rfl, item', others,
      Or.inr ⟨opens_, rfl, rfl, solid, _, _, rfl, feed, indent⟩⟩
  | paid item =>
    rw [hcomma] at item
    cases item

theorem afterComma_zero (h : ∀ e ∈ ls.head?, e.item ≠ .token .newline ∧ e.item ≠ .indent) :
    afterComma ls = (0, false) := by
  unfold afterComma
  dsimp only
  rw [newlines_zero fun e he => (h e he).1, List.drop_zero, if_neg]
  intro hindent
  obtain ⟨e, he, hitem⟩ := Option.map_eq_some_iff.1 hindent
  exact (h e he).2 hitem

theorem afterComma_solid (h : ∀ next ∈ ls.head?, next.IsSolid) : afterComma ls = (0, false) := by
  refine afterComma_zero fun e he => ?_
  obtain ⟨t, hitem, hne⟩ := h e he
  rw [hitem]
  exact ⟨fun heq => hne (Item.token.inj heq), by simp⟩

theorem Broken.afterComma_solid (h : Broken chosen opens owed ls ls')
    (hsolid : ∀ next ∈ ls.head?, next.IsSolid) : Syntax.afterComma ls' = (0, false) := by
  refine Syntax.afterComma_solid fun e he => ?_
  have hhead := h.head
  rw [Option.mem_def.1 he] at hhead
  obtain ⟨e', he', hitem⟩ := Option.map_eq_some_iff.1 hhead.symm
  obtain ⟨t, ht, hne⟩ := hsolid e' he'
  exact ⟨t, hitem ▸ ht, hne⟩

theorem afterComma_indent (h : l.item = .indent) (ls : List Located) :
    afterComma (l :: ls) = (1, true) := by
  unfold afterComma
  dsimp only
  rw [newlines_zero (by simp [h])]
  exact if_pos (congrArg some h)

/-- A list that goes on behind a comma is read as before if the rest of it is. -/
theorem Broken.next (h : Broken chosen opens owed xs ys)
    (hspared : Spared chosen (xs.take (Syntax.expression xs).2))
    (hline : owed = true → ∀ l ∈ xs.take (Syntax.expression xs).2, l.item ≠ .token .newline)
    (hdrop : xs.drop (Syntax.expression xs).2 = l :: ls) (hcomma : l.item = .token .comma) :
    ∃ owed₁ ls', Broken chosen opens owed₁ ls ls' ∧
      (owed₁ = owed ∨ opens ∧ ∀ next ∈ ls.head?, next.IsSolid) ∧
      ∀ owed', (Syntax.afterComma ls').2 = (Syntax.afterComma ls).2 →
        Outcome owed₁ owed' (ls.drop (Syntax.afterComma ls).1)
          (ls'.drop (Syntax.afterComma ls').1) → Outcome owed owed' xs ys := by
  obtain ⟨hfirst, hrest⟩ := h.expression hspared hline
  rw [hdrop] at hrest
  obtain ⟨m, more, owed₁, ls', hdrop', hm, hothers, hcases⟩ := hrest.comma_cases hcomma
  rcases hcases with ⟨rfl, hmore⟩ | ⟨hopens, rfl, rfl, hsolid, f, i, rfl, hf, hi⟩
  · have hsame : (Syntax.afterComma more).2 = (Syntax.afterComma ls').2 ∧
        more.drop (Syntax.afterComma more).1 = ls'.drop (Syntax.afterComma ls').1 := by
      rcases hmore with rfl | ⟨f, rfl, hf⟩
      · exact ⟨rfl, rfl⟩
      · rw [afterComma_newline hf]
        exact ⟨rfl, rfl⟩
    refine ⟨owed₁, ls', hothers, Or.inl rfl, fun owed' hlevel hlist => ?_⟩
    rw [← hsame.2] at hlist
    exact hlist.next hfirst hdrop hcomma hdrop' hm (by rw [hsame.1, hlevel])
  · refine ⟨true, ls', hothers, Or.inr ⟨hopens, hsolid⟩, fun owed' hlevel hlist => ?_⟩
    have hstarts : Syntax.afterComma (f :: i :: ls') = (2, true) := by
      rw [afterComma_newline hf, afterComma_indent hi]
    rw [hothers.afterComma_solid hsolid, List.drop_zero] at hlist
    have hdrop₂ : (f :: i :: ls').drop (Syntax.afterComma (f :: i :: ls')).1 = ls' := by
      rw [hstarts]
      rfl
    rw [← hdrop₂] at hlist
    refine hlist.next hfirst hdrop hcomma hdrop' hm ?_
    rw [hstarts, Syntax.afterComma_solid hsolid]
    rfl

theorem Broken.bracketed (hopens : ¬ opens) (hlist : ListBreaks chosen xs)
    (h : Broken chosen opens false xs ys) : Outcome false false xs ys := by
  induction hlist generalizing ys with
  | last spared ends => exact .of_same (h.same_of_spared spared)
  | @next items ls l first drop comma others ih =>
    obtain ⟨owed₁, ls', hothers, hcases, hread⟩ := h.next first (by simp) drop comma
    rcases hcases with rfl | ⟨opens_, -⟩
    · obtain ⟨hafter, hbehind⟩ := hothers.afterComma
      refine hread false (by rw [hafter]) ?_
      rw [hafter]
      exact ih hbehind
    · exact absurd opens_ hopens

/-! ## Lists on a line -/

theorem expression_of_count (h : (Syntax.expression xs).2 = 0) :
    Syntax.expression xs = (.unknown, 0) := by
  have hprimary : (primary xs).2 = 0 → primary xs = (.unknown, 0) := by
    intro hcount
    refine Prod.ext ?_ hcount
    rw [primary.eq_def] at hcount ⊢
    cases xs with
    | nil => rfl
    | cons l ls =>
      dsimp only at hcount ⊢
      split at hcount
      · cases hcount
      · cases hcount
      · cases hcount
      · split at hcount
        · dsimp only at hcount
          omega
        · cases hcount
      · split at hcount
        · dsimp only at hcount
          omega
        · dsimp only at hcount
          omega
      · rfl
  have hsum : ∀ left, (sum left xs).2 = 0 → sum left xs = (left, 0) := by
    intro left hcount
    refine Prod.ext ?_ hcount
    rw [sum.eq_def] at hcount ⊢
    cases xs with
    | nil => rfl
    | cons l ls =>
      dsimp only at hcount ⊢
      split at hcount
      · dsimp only at hcount
        omega
      · next hplus => rw [if_neg hplus]
  rw [length_expression] at h
  dsimp only at h
  have hfirst : (primary xs).2 = 0 := by
    split at h <;> omega
  rw [expression.eq_def]
  rw [hprimary hfirst] at h ⊢
  dsimp only at h ⊢
  rw [List.drop_zero] at h ⊢
  have hmore : (sum .unknown xs).2 = 0 := by
    split at h <;> omega
  rw [hsum _ hmore] at h ⊢
  dsimp only at h ⊢
  split at h
  · next hends => rw [if_pos hends]
  · next hends =>
    rw [if_neg hends, h]

theorem expressions_of_importLength (h : importLength xs = 0) :
    expressions xs = ([.unknown], 0, 0) := by
  have hcount : (expressions xs).2.2 = 0 := by
    unfold importLength at h
    dsimp only at h
    omega
  by_cases hcomma : (xs.drop (Syntax.expression xs).2).head?.map Located.item = some (.token .comma)
  · cases hdrop : xs.drop (Syntax.expression xs).2 with
    | nil =>
      rw [hdrop] at hcomma
      cases hcomma
    | cons l ls =>
      rw [hdrop] at hcomma
      rw [expressions_next hdrop (Option.some.inj hcomma)] at hcount
      dsimp only at hcount
      omega
  · rw [expressions_last hcomma] at hcount ⊢
    rw [expression_of_count hcount]

theorem statementRest_cons (l : Located) (ls : List Located) :
    statementRest (l :: ls) = if endsStatement l.item then 0 else statementRest ls + 1 := by
  unfold statementRest
  by_cases hends : endsStatement l.item = true
  · rw [if_pos hends, List.takeWhile_cons_of_neg (by simp [hends])]
    rfl
  · rw [if_neg hends, List.takeWhile_cons_of_pos (by simp [hends])]
    rfl

theorem importLength_of_ends
    (h : ∀ e ∈ xs.head?, endsStatement e.item = true ∧ e.item ≠ .token .semicolon) :
    importLength xs = 0 := by
  have hexpression : (Syntax.expression xs).2 = 0 := by
    cases xs with
    | nil =>
      rw [length_expression, primary.eq_def]
      dsimp only
      rw [List.drop_nil, sum.eq_def]
      rfl
    | cons e xs =>
      refine expression_of_ends ?_
      obtain ⟨hends, -⟩ := h e rfl
      generalize e.item = item at hends
      cases item with
      | token t => cases t <;> first | rfl | cases hends
      | _ => rfl
  have hcomma : (xs.drop (Syntax.expression xs).2).head?.map Located.item ≠
      some (.token .comma) := by
    rw [hexpression, List.drop_zero]
    intro hhead
    obtain ⟨e, he, hitem⟩ := Option.map_eq_some_iff.1 hhead
    have hends := (h e he).1
    rw [hitem] at hends
    cases hends
  have hskipped : statementRest xs = 0 := by
    cases xs with
    | nil => rfl
    | cons e xs => rw [statementRest_cons, if_pos (h e rfl).1]
  have hsemicolon : count .semicolon xs = 0 := by
    unfold count startsWith
    rw [if_neg]
    intro hhead
    obtain ⟨e, he, hitem⟩ := Option.map_eq_some_iff.1 (of_decide_eq_true hhead)
    exact (h e he).2 hitem
  unfold importLength
  rw [expressions_last hcomma, hexpression]
  dsimp only
  rw [List.drop_zero, hskipped, List.drop_zero, hsemicolon]

/-- Where a line that owes the end of a block ends, it is paid. -/
theorem Broken.feed (h : Broken chosen opens owed (l :: ls) ys) (hfeed : l.item = .token .newline)
    (hspared : Spared chosen ls) :
    ∃ l' more, ys = l' :: more ∧ l'.item = .token .newline ∧
      (owed = false ∧ SameItems ls more ∨
        owed = true ∧ ∃ d behind, more = d :: behind ∧ d.item = .dedent ∧ SameItems ls behind) := by
  cases h with
  | same same =>
    cases ys with
    | nil => cases same
    | cons l' more =>
      obtain ⟨hitem, hsame⟩ := SameItems.cons_iff.1 same
      exact ⟨l', more, rfl, hitem ▸ hfeed, Or.inl ⟨rfl, hsame⟩⟩
  | item item solid others =>
    cases owed with
    | false => exact ⟨_, _, rfl, item ▸ hfeed, Or.inl ⟨rfl, others.same_of_spared hspared⟩⟩
    | true => exact absurd (solid rfl) (not_solid_of_newline hfeed)
  | comma item | deeper _ item =>
    rw [hfeed] at item
    cases item
  | paid _ item' ends _ same => exact ⟨_, _, rfl, item', Or.inr ⟨rfl, _, _, rfl, ends, same⟩⟩

/-- Some items up to the end of their line, behind which the next line is no deeper. No expression
that starts among them goes on on the next line. -/
structure LineEnd (line : List Located) (feed : Located) (behind : List Located) : Prop where
  solid : ∀ l ∈ line, l.IsSolid
  ends : feed.item = .token .newline
  next : ∀ e ∈ behind.head?, e.item ≠ .token .newline ∧ e.item ≠ .indent
  within : ∀ before after, line = before ++ after →
    (Syntax.expression (after ++ feed :: behind)).2 ≤ after.length

variable {line line' behind : List Located} {feed : Located}

theorem LineEnd.rest (h : LineEnd (line ++ line') feed behind) : LineEnd line' feed behind := by
  refine ⟨fun l hl => h.solid l (List.mem_append_right _ hl), h.ends, h.next, ?_⟩
  rintro before after rfl
  exact h.within (line ++ before) after (by rw [List.append_assoc])

theorem LineEnd.cut (h : LineEnd line feed behind) (hle : n ≤ line.length)
    (hdrop : (line ++ feed :: behind).drop n = l :: ls) (hcomma : l.item = .token .comma) :
    ∃ line', line = line.take n ++ l :: line' ∧ ls = line' ++ feed :: behind := by
  rw [List.drop_append_of_le_length hle] at hdrop
  cases hrest : line.drop n with
  | nil =>
    rw [hrest, List.nil_append] at hdrop
    obtain ⟨rfl, -⟩ := List.cons.inj hdrop
    have hfeed := h.ends
    rw [hcomma] at hfeed
    cases hfeed
  | cons e line' =>
    rw [hrest, List.cons_append] at hdrop
    obtain ⟨rfl, rfl⟩ := List.cons.inj hdrop
    refine ⟨line', ?_, rfl⟩
    rw [← hrest, List.take_append_drop]

theorem LineEnd.importLength_le (h : LineEnd line feed behind)
    (hlast : ((line ++ feed :: behind).drop
      (Syntax.expression (line ++ feed :: behind)).2).head?.map Located.item ≠
        some (.token .comma)) :
    importLength (line ++ feed :: behind) ≤ line.length := by
  have hexpression := h.within [] line rfl
  have hskipped : ∀ rest : List Located,
      statementRest (rest ++ feed :: behind) +
        count .semicolon ((rest ++ feed :: behind).drop (statementRest (rest ++ feed :: behind))) ≤
      rest.length := by
    intro rest
    induction rest with
    | nil =>
      rw [List.nil_append, statementRest_cons, if_pos (by rw [h.ends]; rfl), List.drop_zero]
      unfold count startsWith
      rw [List.head?_cons, Option.map_some, h.ends]
      decide
    | cons e rest ih =>
      rw [List.cons_append, statementRest_cons]
      split
      · rw [List.drop_zero, List.length_cons]
        unfold count
        split <;> omega
      · rw [List.drop_succ_cons, List.length_cons]
        omega
  unfold importLength
  rw [expressions_last hlast]
  dsimp only
  generalize (Syntax.expression (line ++ feed :: behind)).2 = k at hexpression ⊢
  have hrest := hskipped (line.drop k)
  rw [List.length_drop] at hrest
  rw [← List.drop_drop, List.drop_append_of_le_length hexpression]
  omega

/-- A comma that ends the line is the end of the list. -/
theorem LineEnd.importLength_behind (h : LineEnd line feed behind)
    (hends : ∀ e ∈ behind.head?, e.IsSolid → importLength behind = 0) :
    importLength behind = 0 := by
  cases behind with
  | nil => exact importLength_of_ends (by simp)
  | cons e behind =>
    by_cases hsolid : e.IsSolid
    · exact hends e rfl hsolid
    · refine importLength_of_ends fun e' he' => ?_
      obtain rfl := Option.some.inj he'
      obtain ⟨hnewline, hindent⟩ := h.next e rfl
      cases hitem : e.item with
      | token t => exact absurd ⟨t, hitem, fun heq => hnewline (by rw [hitem, heq])⟩ hsolid
      | indent => exact absurd hitem hindent
      | eof | dedent => exact ⟨rfl, by simp⟩

/-- The list ends with its line, where what is owed is paid. -/
theorem Broken.trailing {more : List Located} (hfeed : feed.item = .token .newline)
    (hnext : ∀ e ∈ behind.head?, e.item ≠ .token .newline ∧ e.item ≠ .indent)
    (hbehind : importLength behind = 0) (hspared : Spared chosen behind)
    (h : Broken chosen opens owed (feed :: behind) more) :
    (Syntax.afterComma more).2 = false ∧
      Outcome owed owed behind (more.drop (Syntax.afterComma more).1) := by
  obtain ⟨feed', rest, rfl, hfeed', hrest⟩ := h.feed hfeed hspared
  rw [afterComma_newline hfeed', List.drop_succ_cons]
  rcases hrest with ⟨rfl, hsame⟩ | ⟨rfl, d, behind', rfl, hd, hsame⟩
  · have hnext' : ∀ e ∈ rest.head?, e.item ≠ .token .newline ∧ e.item ≠ .indent := by
      intro e he
      have hhead := hsame.head
      rw [Option.mem_def.1 he] at hhead
      obtain ⟨e', he', hitem⟩ := Option.map_eq_some_iff.1 hhead
      rw [← hitem]
      exact hnext e' he'
    rw [afterComma_zero hnext']
    exact ⟨rfl, .of_same hsame⟩
  · rw [afterComma_zero (by simp [hd]), List.drop_zero]
    have hends : importLength (d :: behind') = 0 :=
      importLength_of_ends (by simp [hd, endsStatement])
    refine ⟨rfl, ?_, ?_, ?_⟩
    · rw [expressions_of_importLength hbehind, expressions_of_importLength hends]
    · rw [expressions_of_importLength hbehind, expressions_of_importLength hends]
    · rw [hbehind, hends]
      exact .list hd hsame

/-- The last expression of a list goes on up to the end of its line, where what is owed is paid. -/
theorem Broken.last_expression (hline : LineEnd line feed behind) (hspared : Spared chosen xs)
    (hxs : xs = line ++ feed :: behind) (hlength : importLength xs = line.length)
    (h : Broken chosen opens owed xs ys) : Outcome owed owed xs ys := by
  cases owed with
  | false => exact .of_same (h.same_of_spared hspared)
  | true =>
    have htake : xs.take line.length = line := by rw [hxs, List.take_left]
    obtain ⟨hsame, hrest⟩ := h.split line.length
      (fun l hl => hspared l (List.mem_of_mem_take hl)) fun _ l hl hfeed => by
        rw [htake] at hl
        exact not_solid_of_newline hfeed (hline.solid l hl)
    have hmost : Same (importLength xs + 1) xs ys := by
      rw [hlength]
      exact same_of_take hsame hrest.head
    have hexpressions : expressions ys = expressions xs := by
      have hle := expressions_le_importLength xs
      exact Same.expressions (hmost.mono (by omega))
    have hdrop : xs.drop line.length = feed :: behind := by rw [hxs, List.drop_left]
    rw [hdrop] at hrest
    have hspared' : Spared chosen behind := fun l hl =>
      hspared l (by rw [hxs]; exact List.mem_append_right _ (List.mem_cons_of_mem _ hl))
    obtain ⟨feed', more, hmore, hfeed', hpaid⟩ := hrest.feed hline.ends hspared'
    rcases hpaid with ⟨hnot, -⟩ | ⟨-, d, behind', rfl, hd, hsame'⟩
    · cases hnot
    · refine ⟨congrArg Prod.fst hexpressions, by rw [hexpressions], ?_⟩
      rw [hmost.importLength, hlength, hdrop, hmore]
      exact .line hline.ends hfeed' hd hsame'

/-- A broken list that ends with its line is read as the list. -/
theorem Broken.oneLine (hlist : ListBreaks chosen xs) (hline : LineEnd line feed behind)
    (hspared : Spared chosen behind) (hxs : xs = line ++ feed :: behind)
    (hreaches : line.length ≤ importLength xs)
    (hends : ∀ e ∈ behind.head?, e.IsSolid → importLength xs ≤ line.length + 1)
    (h : Broken chosen opens owed xs ys) :
    ∃ owed', Outcome owed owed' xs ys ∧ (expressions xs).2.1 = 0 := by
  induction hlist generalizing line ys owed with
  | @last items spared ends =>
    have hle : importLength items ≤ line.length := by
      subst hxs
      exact hline.importLength_le ends
    exact ⟨owed, h.last_expression hline spared hxs (by omega), by rw [expressions_last ends]⟩
  | @next items ls l first drop comma others ih =>
    have hwithin : (Syntax.expression items).2 ≤ line.length := by
      subst hxs
      exact hline.within [] line rfl
    have hlength := importLength_next drop comma
    have hindents : (expressions items).2.1 = _ :=
      congrArg (fun read => read.2.1) (expressions_next drop comma)
    have htake :
        items.take (Syntax.expression items).2 = line.take (Syntax.expression items).2 := by
      have hfront : (line ++ feed :: behind).take (Syntax.expression items).2 =
          line.take (Syntax.expression items).2 := List.take_append_of_le_length hwithin
      rw [← hfront, ← hxs]
    have hsolid : ∀ e ∈ items.take (Syntax.expression items).2, e.IsSolid := by
      intro e he
      rw [htake] at he
      exact hline.solid e (List.mem_of_mem_take he)
    obtain ⟨owed₁, ls', hothers, hcases, hread⟩ := h.next first
      (fun _ e he hfeed => not_solid_of_newline hfeed (hsolid e he)) drop comma
    obtain ⟨line', hcut, hls⟩ := hline.cut hwithin (by rw [← hxs]; exact drop) comma
    subst hls
    have hline' : LineEnd line' feed behind := by
      rw [hcut, ← List.singleton_append, ← List.append_assoc] at hline
      exact hline.rest
    have hwidth : line.length = (Syntax.expression items).2 + 1 + line'.length := by
      have hwidth := congrArg List.length hcut
      rw [List.length_append, List.length_cons, List.length_take_of_le hwithin] at hwidth
      omega
    rw [hindents]
    cases line' with
    | nil =>
      rw [List.nil_append] at hlength hothers hread hcases ⊢
      rw [afterComma_newline hline.ends, afterComma_zero hline.next, List.drop_succ_cons,
        List.drop_zero] at hlength hread ⊢
      have hbehind : importLength behind = 0 := hline.importLength_behind fun e he hsolid => by
        have hle := hends e he hsolid
        rw [List.length_nil] at hwidth
        omega
      rcases hcases with rfl | ⟨-, hnot⟩
      · obtain ⟨hlevel, hpaid⟩ := hothers.trailing hline.ends hline.next hbehind hspared
        exact ⟨owed₁, hread owed₁ hlevel hpaid, by rw [expressions_of_importLength hbehind]; rfl⟩
      · exact absurd (hnot feed rfl) (not_solid_of_newline hline.ends)
    | cons e line' =>
      have hnext : ∀ next ∈ ((e :: line') ++ feed :: behind).head?, next.IsSolid := by
        intro next hnext
        obtain rfl := Option.some.inj hnext
        exact hline'.solid e List.mem_cons_self
      rw [Syntax.afterComma_solid hnext, List.drop_zero] at hlength ih hread ⊢
      rw [hothers.afterComma_solid hnext, List.drop_zero] at hread
      obtain ⟨owed', houtcome, hnone⟩ := ih hline' rfl (by omega)
        (fun e he hs => by have hle := hends e he hs; omega) hothers
      exact ⟨owed', hread owed' rfl houtcome, by rw [hnone]; rfl⟩

theorem continuationRest_paid {dedent : Located} (h : dedent.item = .dedent)
    (behind : List Located) :
    continuationRest 1 (dedent :: behind) = 1 := by
  unfold continuationRest
  dsimp only
  rw [newlines_zero (by simp [h])]
  exact if_pos (congrArg some h)

theorem continuationRest_line {dedent : Located} (hfeed : feed.item = .token .newline)
    (h : dedent.item = .dedent) (behind : List Located) :
    continuationRest 1 (feed :: dedent :: behind) = 2 := by
  unfold continuationRest
  dsimp only
  rw [newlines_feed hfeed, newlines_zero (by simp [h])]
  exact if_pos (congrArg some h)

/-- A statement whose list is read as before is the same statement, and the document goes on behind
it as before. -/
theorem Outcome.exchanged {keyword keyword' : Located} (kind : ImportKind)
    (h : Outcome false owed' xs ys) (hlevel : owed' = true → (expressions xs).2.1 = 0)
    (hkeyword : keyword'.item = keyword.item) : Exchanged kind keyword xs keyword' ys := by
  obtain ⟨hexprs, hindents, hleftover⟩ := h
  refine ⟨hkeyword, ?_, ?_⟩
  · rw [importing_eq, importing_eq]
    dsimp only
    rw [Node.unplaced, Node.unplaced, hexprs]
    rfl
  · rw [importing_eq, importing_eq]
    dsimp only
    rw [← List.drop_drop, ← List.drop_drop]
    generalize xs.drop (importLength xs) = rest at hleftover ⊢
    generalize ys.drop (importLength ys) = rest' at hleftover ⊢
    cases hleftover with
    | same same =>
      have heq : (expressions ys).2.1 = (expressions xs).2.1 := hindents
      rw [heq, same.continuationRest]
      exact Or.inl (same.drop _)
    | line item item' ends same =>
      rw [hlevel rfl] at hindents ⊢
      have heq : (expressions ys).2.1 = 1 := hindents
      rw [heq, continuationRest_line item' ends]
      exact Or.inr ⟨_, _, rfl, item, same⟩
    | list ends same =>
      rw [hlevel rfl] at hindents ⊢
      have heq : (expressions ys).2.1 = 1 := hindents
      rw [heq, continuationRest_paid ends]
      exact Or.inl same

/-! ## Chosen commas -/

/-- Tokens stop one behind the other. -/
def Ordered (items : List Located) : Prop :=
  items.Pairwise fun a b => a.IsSolid → b.IsSolid → a.stop < b.stop

theorem ordered_of_tokenize {source : List Char} (h : tokenize source = .ok xs) : Ordered xs := by
  obtain ⟨hlies, hpairwise⟩ := tokens_of_tokenize h
  refine hpairwise.imp_of_mem fun ha hb hab hsolid hsolid' => ?_
  have hlt := (hlies _ hb hsolid').lt
  have hle := hab hsolid hsolid'
  omega

theorem isSolid_comma (h : l.item = .token .comma) : l.IsSolid :=
  ⟨_, h, by decide⟩

theorem mem_of_pathCommas (items : List Located) {k : Nat} (h : k ∈ pathCommas items) :
    ∃ l ∈ items.drop (Syntax.expression items).2, l.item = .token .comma ∧ l.stop = k := by
  induction hlength : items.length using Nat.strongRecOn generalizing items with
  | ind length ih =>
    rw [pathCommas.eq_def] at h
    split at h
    · cases h
    · next l ls hdrop =>
      rw [hdrop]
      split at h
      · next hcomma =>
        rcases List.mem_cons.1 h with rfl | h
        · exact ⟨l, List.mem_cons_self, hcomma, rfl⟩
        · have hshorter : (ls.drop (Syntax.afterComma ls).1).length < length := by
            have hlen := congrArg List.length hdrop
            simp only [List.length_drop, List.length_cons] at hlen ⊢
            omega
          obtain ⟨l', hl', hitem, hstop⟩ := ih _ hshorter _ h rfl
          exact ⟨l', List.mem_cons_of_mem _ (List.mem_of_mem_drop (List.mem_of_mem_drop hl')),
            hitem, hstop⟩
      · cases h

theorem listBreaks_of_pathCommas (hordered : Ordered xs)
    (hchosen : ∀ l ∈ xs, l.item = .token .comma → chosen l.stop → l.stop ∈ pathCommas xs) :
    ListBreaks chosen xs := by
  induction hlength : xs.length using Nat.strongRecOn generalizing xs with
  | ind length ih =>
    cases hdrop : xs.drop (Syntax.expression xs).2 with
    | nil =>
      refine .last (fun e he hcomma hbreak => ?_) (by rw [hdrop]; simp)
      obtain ⟨l, hl, -⟩ := mem_of_pathCommas xs (hchosen e he hcomma hbreak)
      rw [hdrop] at hl
      cases hl
    | cons l ls =>
      have hcommas : pathCommas xs =
          if l.item = .token .comma then
            l.stop :: pathCommas (ls.drop (Syntax.afterComma ls).1) else [] := by
        rw [pathCommas.eq_def]
        split
        · next hnil =>
          rw [hdrop] at hnil
          cases hnil
        · next hcons =>
          rw [hdrop] at hcons
          obtain ⟨rfl, rfl⟩ := List.cons.inj hcons
          rfl
      by_cases hcomma : l.item = .token .comma
      · rw [if_pos hcomma] at hcommas
        have hall := hordered
        rw [Ordered, ← List.take_append_drop (Syntax.expression xs).2 xs, List.pairwise_append,
          hdrop, List.pairwise_cons] at hall
        obtain ⟨-, ⟨hbehind, hrest⟩, hacross⟩ := hall
        have hsub : ls.drop (Syntax.afterComma ls).1 ⊆ xs := fun e he =>
          List.mem_of_mem_drop (hdrop ▸ List.mem_cons_of_mem l (List.mem_of_mem_drop he))
        refine .next (fun e he hitem hbreak => ?_) hdrop hcomma
          (ih _ ?_ (hrest.sublist (List.drop_sublist _ _)) (fun e he hitem hbreak => ?_) rfl)
        · obtain ⟨e', he', hitem', hstop⟩ :=
            mem_of_pathCommas xs (hchosen e (List.mem_of_mem_take he) hitem hbreak)
          have hlt := hacross e he e' (hdrop ▸ he') (isSolid_comma hitem) (isSolid_comma hitem')
          omega
        · have hlen := congrArg List.length hdrop
          simp only [List.length_drop, List.length_cons] at hlen ⊢
          omega
        · have hmem := hchosen e (hsub he) hitem hbreak
          rw [hcommas] at hmem
          have hlt :=
            hbehind e (List.mem_of_mem_drop he) (isSolid_comma hcomma) (isSolid_comma hitem)
          exact (List.mem_cons.1 hmem).resolve_left (by omega)
      · rw [if_neg hcomma] at hcommas
        refine .last (fun e he hitem hbreak => ?_) ?_
        · have hmem := hchosen e he hitem hbreak
          rw [hcommas] at hmem
          cases hmem
        · rw [hdrop]
          exact fun heq => hcomma (Option.some.inj heq)

/-! ## Expressions on a line -/

theorem Keeps.split {g k g' k' : Nat} {w w' : List Bracket} (h : Keeps false g k (w ++ w') g' k') :
    ∃ g₁ k₁, Keeps false g k w g₁ k₁ ∧ Keeps false g₁ k₁ w' g' k' := by
  induction w generalizing g k with
  | nil => exact ⟨g, k, .done, h⟩
  | cons b w ih =>
    rw [List.cons_append] at h
    cases h with
    | openParen rest =>
      obtain ⟨g₁, k₁, hfirst, hrest⟩ := ih rest
      exact ⟨g₁, k₁, .openParen hfirst, hrest⟩
    | closeParen rest =>
      obtain ⟨g₁, k₁, hfirst, hrest⟩ := ih rest
      exact ⟨g₁, k₁, .closeParen hfirst, hrest⟩
    | brace braces inside rest =>
      obtain ⟨g₁, k₁, hfirst, hrest⟩ := ih rest
      exact ⟨g₁, k₁, .brace braces inside hfirst, hrest⟩
    | indent inside rest =>
      obtain ⟨g₁, k₁, hfirst, hrest⟩ := ih rest
      exact ⟨g₁, k₁, .indent inside hfirst, hrest⟩
    | dedent rest =>
      obtain ⟨g₁, k₁, hfirst, hrest⟩ := ih rest
      exact ⟨g₁, k₁, .dedent hfirst, hrest⟩

/-- A statement has no more parentheses open than there are. -/
theorem Keeps.le_open {g k g' k' parens braces blocks : Nat} {w w' : List Bracket}
    (h : Keeps false g k w g' k') (htallied : Tallied parens braces blocks (w ++ w'))
    (hle : g ≤ parens) : (g' : Int) ≤ parens + surplus .parens w := by
  induction h generalizing parens braces blocks with
  | done =>
    rw [surplus_nil]
    omega
  | openParen _ ih =>
    rw [List.cons_append] at htallied
    cases htallied with
    | openParen rest =>
      have hrest := ih rest (by omega)
      rw [surplus_opening]
      omega
  | closeParen _ ih =>
    rw [List.cons_append] at htallied
    cases htallied with
    | closeParen rest =>
      have hrest := ih rest (by omega)
      rw [surplus_closing]
      omega
  | brace hbrace _ _ ih =>
    rw [List.cons_append] at htallied
    rw [surplus_cons_of_ne (by rw [hbrace]; decide)]
    cases htallied with
    | openParen | closeParen | indent | dedent => cases hbrace
    | openBrace rest | closeBrace rest => exact ih rest hle
  | indent _ _ ih =>
    rw [List.cons_append] at htallied
    rw [surplus_cons_of_ne (by decide)]
    cases htallied with
    | indent rest => exact ih rest hle
  | dedent _ ih =>
    rw [List.cons_append] at htallied
    rw [surplus_cons_of_ne (by decide)]
    cases htallied with
    | dedent rest => exact ih rest hle

theorem braced_of_solid (h : l.IsSolid) : braced l = l := by
  obtain ⟨t, hitem, hne⟩ := h
  unfold braced
  rw [if_neg]
  rw [hitem]
  exact fun heq => hne (Item.token.inj heq)

/-- Outside parentheses an expression ends with its line. -/
theorem expression_le_line {p b c : Nat} (hsolid : ∀ l ∈ line, l.IsSolid)
    (hfeed : feed.item = .token .newline)
    (htallied : Tallied p b c (brackets (line ++ feed :: behind)))
    (hclosed : (p : Int) + surplus .parens (brackets line) = 0) :
    (Syntax.expression (line ++ feed :: behind)).2 ≤ line.length := by
  refine Nat.le_of_not_lt fun hlt => ?_
  -- As a brace, the line break would have to stand in a parenthesis of the expression.
  have hcount := local_expression _ _ (like_braced _ (line ++ feed :: behind))
  have hkept := kept_expression false ((line ++ feed :: behind).map braced)
  rw [hcount] at hkept
  generalize (Syntax.expression (line ++ feed :: behind)).2 = n at hlt hkept
  obtain ⟨g, k, hkeeps, -, -⟩ := hkept 0 0 (Nat.le_refl 0)
  have hline : line.map braced = line := by
    rw [List.map_congr_left fun l hl => braced_of_solid (hsolid l hl), List.map_id']
  have hbrace : (braced feed).item.bracket? = some (.opening .braces) := by
    unfold braced
    rw [if_pos hfeed]
    rfl
  obtain ⟨m, rfl⟩ := Nat.exists_eq_add_of_lt hlt
  rw [List.map_append, List.map_cons, hline, Nat.add_assoc, List.take_length_add_append,
    List.take_succ_cons, brackets_append, brackets_cons_of_some hbrace] at hkeeps
  obtain ⟨g₁, k₁, hfirst, hrest⟩ := hkeeps.split
  rw [brackets_append] at htallied
  have hle := hfirst.le_open htallied (Nat.zero_le p)
  cases hrest with
  | brace _ inside _ => omega

end Syntax

end StyleWeave
