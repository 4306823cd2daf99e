import StyleWeave.Proofs.Token.Blanking
import StyleWeave.Proofs.Token.Brackets

/-!
# Brackets of token streams

The layout pass counts parentheses and braces apart and has indentation outside both only
(`tallied_of_tokenize`). So each of them are nested among themselves (`nested_of_tokenize`), and
where they are nested together, they are nested with the indentation (`walk_of_tokenize`). They need
not be nested together, but they are if no brace stands inside parentheses
(`nested_of_bracesOutside`).
-/

namespace StyleWeave

open Text (bytes)

/-- With so many parentheses, braces and blocks open, the brackets close them all, and indentation
stands outside parentheses and braces. -/
inductive Tallied : Nat → Nat → Nat → List Bracket → Prop where
  | done : Tallied 0 0 0 []
  | openParen {parens braces blocks : Nat} {w : List Bracket}
      (rest : Tallied (parens + 1) braces blocks w) :
      Tallied parens braces blocks (.opening .parens :: w)
  | closeParen {parens braces blocks : Nat} {w : List Bracket}
      (rest : Tallied parens braces blocks w) :
      Tallied (parens + 1) braces blocks (.closing .parens :: w)
  | openBrace {parens braces blocks : Nat} {w : List Bracket}
      (rest : Tallied parens (braces + 1) blocks w) :
      Tallied parens braces blocks (.opening .braces :: w)
  | closeBrace {parens braces blocks : Nat} {w : List Bracket}
      (rest : Tallied parens braces blocks w) :
      Tallied parens (braces + 1) blocks (.closing .braces :: w)
  | indent {blocks : Nat} {w : List Bracket} (rest : Tallied 0 0 (blocks + 1) w) :
      Tallied 0 0 blocks (.opening .block :: w)
  | dedent {blocks : Nat} {w : List Bracket} (rest : Tallied 0 0 blocks w) :
      Tallied 0 0 (blocks + 1) (.closing .block :: w)

/-- No brace stands inside parentheses, `depth` of which are open. -/
def bracesOutside (depth : Nat) : List Bracket → Bool
  | [] => true
  | .opening .parens :: w => bracesOutside (depth + 1) w
  | .closing .parens :: w => bracesOutside (depth - 1) w
  | .opening .braces :: w | .closing .braces :: w => depth = 0 && bracesOutside depth w
  | .opening .block :: w | .closing .block :: w => bracesOutside depth w

section

variable {parens braces blocks : Nat} {w : List Bracket}

theorem Tallied.dedents (n : Nat) : Tallied 0 0 n (List.replicate n (.closing .block)) := by
  induction n with
  | zero => exact .done
  | succ n ih => exact .dedent ih

/-- As many blocks are closed as are opened. -/
theorem Tallied.surplus_block (h : Tallied parens braces blocks w) :
    surplus .block w = -blocks := by
  induction h with
  | done => rfl
  | openParen _ ih | closeParen _ ih | openBrace _ ih | closeBrace _ ih =>
    rw [surplus_cons_of_ne (by simp [Bracket.enclosure]), ih]
  | indent _ ih =>
    rw [surplus_opening, ih]
    omega
  | dedent _ ih =>
    rw [surplus_closing, ih]
    omega

/-- Parentheses and braces that are nested are nested with the blocks around them. -/
theorem Tallied.walk_blocks (h : Tallied parens braces blocks w) {stack : List Enclosure}
    (hlength : stack.length = parens + braces)
    (hw : walk stack (only [.parens, .braces] w) = some []) :
    walk (stack ++ List.replicate blocks .block) w = some [] := by
  induction h generalizing stack with
  | done =>
    rw [List.length_eq_zero_iff.1 hlength]
    rfl
  | openParen _ ih | openBrace _ ih =>
    rw [only_cons_of_mem (by simp [Bracket.enclosure])] at hw
    exact ih (by rw [List.length_cons, hlength]; omega) hw
  | closeParen _ ih | closeBrace _ ih =>
    rw [only_cons_of_mem (by simp [Bracket.enclosure])] at hw
    obtain ⟨below, rfl, hbelow⟩ := walk_closing.1 hw
    rw [List.length_cons] at hlength
    exact walk_closing.2 ⟨_, rfl, ih (by omega) hbelow⟩
  | indent _ ih | dedent _ ih =>
    rw [only_cons_of_not_mem (by simp [Bracket.enclosure])] at hw
    obtain rfl := List.length_eq_zero_iff.1 hlength
    exact ih rfl hw

/-- Brackets of one kind are nested among themselves. -/
theorem Tallied.walk_parens (h : Tallied parens braces blocks w) :
    walk (List.replicate parens .parens) (only [.parens] w) = some [] := by
  induction h with
  | done => rfl
  | openParen _ ih | closeParen _ ih =>
    rw [only_cons_of_mem (by simp [Bracket.enclosure])]
    exact ih
  | openBrace _ ih | closeBrace _ ih | indent _ ih | dedent _ ih =>
    rw [only_cons_of_not_mem (by simp [Bracket.enclosure])]
    exact ih

theorem Tallied.walk_braces (h : Tallied parens braces blocks w) :
    walk (List.replicate braces .braces) (only [.braces] w) = some [] := by
  induction h with
  | done => rfl
  | openBrace _ ih | closeBrace _ ih =>
    rw [only_cons_of_mem (by simp [Bracket.enclosure])]
    exact ih
  | openParen _ ih | closeParen _ ih | indent _ ih | dedent _ ih =>
    rw [only_cons_of_not_mem (by simp [Bracket.enclosure])]
    exact ih

/-- Without braces inside parentheses, the innermost are the parentheses, then the braces. -/
theorem Tallied.walk_of_bracesOutside (h : Tallied parens braces blocks w)
    (houtside : bracesOutside parens w = true) :
    walk (List.replicate parens .parens ++
      (List.replicate braces .braces ++ List.replicate blocks .block)) w = some [] := by
  induction h with
  | done => rfl
  | openParen _ ih | closeParen _ ih | indent _ ih | dedent _ ih => exact ih houtside
  | openBrace _ ih | closeBrace _ ih =>
    obtain ⟨hparens, hrest⟩ := Bool.and_eq_true_iff.1 houtside
    obtain rfl := of_decide_eq_true hparens
    exact ih hrest

theorem Tallied.behind {rest : List Bracket} (h : Tallied parens braces blocks (w ++ rest))
    (houtside : bracesOutside parens (w ++ rest) = true) :
    ∃ parens' braces' blocks',
      Tallied parens' braces' blocks' rest ∧ bracesOutside parens' rest = true := by
  induction w generalizing parens braces blocks with
  | nil => exact ⟨parens, braces, blocks, h, houtside⟩
  | cons b w ih =>
    rw [List.cons_append] at h houtside
    cases h with
    | openParen rest | closeParen rest | indent rest | dedent rest => exact ih rest houtside
    | openBrace rest | closeBrace rest => exact ih rest (Bool.and_eq_true_iff.1 houtside).2

end

namespace Layout

variable {s s' : State} {items : List Located} {w : List Bracket}

/-- What the pass has open is closed by the brackets. -/
def State.Closes (s : State) (w : List Bracket) : Prop :=
  Tallied s.parens s.braces s.columns.length w

theorem brackets_passGap (s : State) (gap : List Char) : brackets (passGap s gap).1 = [] :=
  brackets_eq_nil fun l hl => by
    rw [passGap_newline s gap l hl]
    rfl

theorem length_outdent_le (col : Nat) (columns : List Nat) :
    (outdent col columns).length ≤ columns.length :=
  (List.dropWhile_sublist _).length_le

theorem LaidOut.closes {start : Nat} (h : LaidOut s start items s') (hs' : s'.Closes w) :
    s.Closes (brackets items ++ w) := by
  cases h with
  | within | inside => exact hs'
  | deeper fresh braces parens column_eq lt =>
    unfold State.Closes at hs' ⊢
    rw [braces, parens] at hs' ⊢
    exact .indent hs'
  | @level col fresh braces parens column_eq le level =>
    have hle := length_outdent_le col s.columns
    unfold State.Closes at hs' ⊢
    dsimp only at hs' ⊢
    rw [braces, parens] at hs' ⊢
    clear level
    generalize (outdent col s.columns).length = left at hs' hle ⊢
    obtain ⟨n, hn⟩ := Nat.exists_eq_add_of_le hle
    rw [hn, Nat.add_sub_cancel_left]
    clear hn hle
    induction n with
    | zero => exact hs'
    | succ n ih =>
      rw [List.replicate_succ, brackets_cons]
      exact .dedent ih

theorem Counted.closes {t : Token} (h : Counted s t s') (hs' : s'.Closes w) :
    s.Closes ((Item.token t).bracket?.toList ++ w) := by
  cases h with
  | openBrace => exact .openBrace hs'
  | closeBrace opened =>
    unfold State.Closes
    rw [opened]
    exact .closeBrace hs'
  | openParen => exact .openParen hs'
  | closeParen opened =>
    unfold State.Closes
    rw [opened]
    exact .closeParen hs'
  | other none =>
    rw [none]
    exact hs'

theorem closes_put {start stop : Nat} {t : Token} (h : put s start stop t = .ok (items, s'))
    (hs' : s'.Closes w) : s.Closes (brackets items ++ w) := by
  rcases put_cases h with ⟨-, rfl, rfl⟩ | ⟨-, layout, s₁, s₂, hlaid, hcounted, rfl, rfl⟩
  · split
    · exact hs'
    · exact hs'
  · have hs₂ : s₂.Closes w := hs'
    rw [brackets_append, List.append_assoc]
    refine hlaid.closes ?_
    rw [brackets_cons, brackets_nil, List.append_nil]
    exact hcounted.closes hs₂

theorem closes_finish {size : Nat} (h : finish s size = .ok items) : s.Closes (brackets items) := by
  obtain ⟨hbraces, hparens, rfl⟩ := finish_eq_ok.1 h
  unfold State.Closes
  rw [hbraces, hparens]
  have hended : ∀ fresh : Bool, brackets (if fresh then []
      else [⟨.token .newline, s.line, size, size⟩]) = [] := by
    intro fresh
    cases fresh <;> rfl
  have hdedents : ∀ n, brackets (List.replicate n ⟨.dedent, s.line, size, size⟩) =
      List.replicate n (.closing .block) := by
    intro n
    unfold brackets
    rw [List.filterMap_replicate]
    rfl
  rw [brackets_append, brackets_append, hended, hdedents]
  simpa [brackets, Item.bracket?] using Tallied.dedents s.columns.length

theorem closes_run {size : Nat} {lexemes : List Lexeme} (h : run size s lexemes = .ok items) :
    s.Closes (brackets items) := by
  induction lexemes generalizing s items with
  | nil => exact closes_finish h
  | cons l rest ih =>
    obtain ⟨t, s₁, here, others, -, hput, hrun, rfl⟩ := run_cons h
    have hs₁ := closes_put hput (ih hrun)
    obtain ⟨-, -, hcolumns, hbraces, hparens⟩ := passGap_state s l.gap
    unfold State.Closes at hs₁ ⊢
    rw [hcolumns, hbraces, hparens] at hs₁
    rw [brackets_append, brackets_append, brackets_passGap, List.nil_append]
    exact hs₁

/-! ## The end of the document -/

theorem put_not_eof {start stop : Nat} {t : Token} (h : put s start stop t = .ok (items, s')) :
    ∀ l ∈ items, l.item ≠ .eof := by
  intro l hl
  rcases put_cases h with ⟨-, rfl, -⟩ | ⟨-, layout, s₁, s₂, hlaid, -, rfl, -⟩
  · rw [List.mem_singleton.1 (List.mem_ite_nil_left.1 hl).2]
    simp
  · rcases List.mem_append.1 hl with hl | hl
    · rcases (hlaid.items_spec l hl).1 with hitem | hitem
      · simp [hitem]
      · simp [hitem]
    · rw [List.mem_singleton.1 hl]
      simp

/-- The last item is the end of the document, and no other. -/
theorem run_eof {size : Nat} {lexemes : List Lexeme} (h : run size s lexemes = .ok items) :
    ∃ body last, items = body ++ [last] ∧ last.item = .eof ∧ ∀ l ∈ body, l.item ≠ .eof := by
  induction lexemes generalizing s items with
  | nil =>
    obtain ⟨-, -, rfl⟩ := finish_eq_ok.1 h
    refine ⟨_, _, rfl, rfl, fun l hl => ?_⟩
    rcases List.mem_append.1 hl with hl | hl
    · rw [List.mem_singleton.1 (List.mem_ite_nil_left.1 hl).2]
      simp
    · rw [List.eq_of_mem_replicate hl]
      simp
  | cons l rest ih =>
    obtain ⟨t, s₁, here, others, -, hput, hrun, rfl⟩ := run_cons h
    obtain ⟨body, last, rfl, hlast, hbody⟩ := ih hrun
    refine ⟨(passGap s l.gap).1 ++ here ++ body, last, by simp, hlast, fun i hi => ?_⟩
    rcases List.mem_append.1 hi with hi | hi
    · rcases List.mem_append.1 hi with hi | hi
      · simp [passGap_newline s l.gap i hi]
      · exact put_not_eof hput i hi
    · exact hbody i hi

end Layout

variable {source : List Char} {items : List Located}

theorem tallied_of_tokenize (h : tokenize source = .ok items) : Tallied 0 0 0 (brackets items) :=
  Layout.closes_run h

/-- Nothing stands behind the end of a document. -/
theorem eof_last (h : tokenize source = .ok items) {l : Located} {ls : List Located}
    (hsuffix : l :: ls <:+ items) (hl : l.item = .eof) : ls = [] := by
  obtain ⟨body, last, rfl, -, hbody⟩ := Layout.run_eof h
  obtain ⟨before, hbefore⟩ := hsuffix
  by_cases hls : ls = []
  · exact hls
  · have hinit := congrArg List.dropLast hbefore
    rw [List.dropLast_concat, List.dropLast_append_of_ne_nil (List.cons_ne_nil _ _),
      List.dropLast_cons_of_ne_nil hls] at hinit
    refine absurd hl (hbody l ?_)
    rw [← hinit]
    simp

/-- Where the parentheses and braces of a token stream are nested, all of its brackets are. -/
theorem walk_of_tokenize (h : tokenize source = .ok items) :
    Nested [.parens, .braces] items ↔ walk [] (brackets items) = some [] := by
  constructor
  · exact fun hnested => (tallied_of_tokenize h).walk_blocks rfl hnested
  · exact fun hwalk => walk_only hwalk [.parens, .braces]

/-- The parentheses of a token stream are nested, and so are its braces. -/
theorem nested_of_tokenize (h : tokenize source = .ok items) :
    Nested [.parens] items ∧ Nested [.braces] items :=
  ⟨(tallied_of_tokenize h).walk_parens, (tallied_of_tokenize h).walk_braces⟩

/-- A token stream without braces inside its parentheses is nested. -/
theorem nested_of_bracesOutside (h : tokenize source = .ok items)
    (houtside : bracesOutside 0 (brackets items) = true) :
    Nested [.parens, .braces] items :=
  walk_only ((tallied_of_tokenize h).walk_of_bracesOutside houtside) [.parens, .braces]

end StyleWeave
