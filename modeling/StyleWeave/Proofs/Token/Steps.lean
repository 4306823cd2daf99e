import StyleWeave.Proofs.Token.Brackets
import StyleWeave.Token.Layout

/-!
# Steps of the layout pass

What each function of the layout pass gives, and why it gives nothing: the layout of a line
(`LaidOut`, `indentation_error`), the count of brackets (`Counted`, `bracket_error`), a token behind
its layout (`put_cases`, `put_error`), a lexeme behind its gap (`place_ok`), and the ends of the
indented blocks behind the last one (`finish_eq_ok`).
-/

namespace StyleWeave

open Text (bytes)

theorem bind_eq_ok {α β ε : Type} {x : Except ε α} {f : α → Except ε β} {b : β}
    (h : (x >>= f) = .ok b) : ∃ a, x = .ok a ∧ f a = .ok b := by
  cases x with
  | error e => cases h
  | ok a => exact ⟨a, rfl, h⟩

namespace Layout

variable {s s₁ s₂ s' : State} {items layout : List Located} {start stop size : Nat} {t : Token}
variable {e : ParseError}

/-- A gap holds the end of a line or nothing. -/
theorem passGap_newline (s : State) (gap : List Char) :
    ∀ l ∈ (passGap s gap).1, l.item = .token .newline := by
  intro l hl
  unfold passGap at hl
  split at hl
  · cases hl
  · rw [List.mem_singleton.1 (List.mem_ite_nil_left.1 hl).2]

/-! ## The layout of a line -/

/-- The layout in front of a token at byte `start`, and the state behind it. -/
inductive LaidOut (s : State) (start : Nat) : List Located → State → Prop where
  /-- The token is not the first of its line. -/
  | within (fresh : s.fresh = false) : LaidOut s start [] s
  /-- A line inside braces or parentheses has no layout. -/
  | inside (fresh : s.fresh = true) (opened : s.braces ≠ 0 ∨ s.parens ≠ 0) :
      LaidOut s start [] { s with fresh := false }
  | deeper {col : Nat} (fresh : s.fresh = true) (braces : s.braces = 0) (parens : s.parens = 0)
      (column_eq : start - s.lineStart = col) (lt : column s.columns < col) :
      LaidOut s start [⟨.indent, s.line, start, start⟩]
        { s with fresh := false, columns := col :: s.columns }
  /-- The blocks further in end. -/
  | level {col : Nat} (fresh : s.fresh = true) (braces : s.braces = 0) (parens : s.parens = 0)
      (column_eq : start - s.lineStart = col) (le : col ≤ column s.columns)
      (level : col = column (outdent col s.columns)) :
      LaidOut s start
        (List.replicate (s.columns.length - (outdent col s.columns).length)
          ⟨.dedent, s.line, start, start⟩)
        { s with fresh := false, columns := outdent col s.columns }

theorem inside_iff {s : State} :
    (s.braces != 0 || s.parens != 0) = true ↔ s.braces ≠ 0 ∨ s.parens ≠ 0 := by
  simp

theorem indentation_eq_ok : indentation s start = .ok (items, s') ↔ LaidOut s start items s' := by
  constructor
  · intro h
    unfold indentation at h
    split at h
    · next hwithin =>
      obtain ⟨rfl, rfl⟩ := Prod.mk.inj (Except.ok.inj h)
      exact .within (by simpa using hwithin)
    · next hstarts =>
      have hfresh : s.fresh = true := by simpa using hstarts
      split at h
      · next hinside =>
        obtain ⟨rfl, rfl⟩ := Prod.mk.inj (Except.ok.inj h)
        exact .inside hfresh (inside_iff.1 hinside)
      · next houtside =>
        obtain ⟨hbraces, hparens⟩ : s.braces = 0 ∧ s.parens = 0 := by simpa using houtside
        dsimp only at h
        split at h
        · next hdeeper =>
          obtain ⟨rfl, rfl⟩ := Prod.mk.inj (Except.ok.inj h)
          exact .deeper hfresh hbraces hparens rfl hdeeper
        · next hdeeper =>
          split at h
          · next hlevel =>
            obtain ⟨rfl, rfl⟩ := Prod.mk.inj (Except.ok.inj h)
            exact .level hfresh hbraces hparens rfl (Nat.le_of_not_lt hdeeper) hlevel
          · cases h
  · intro h
    unfold indentation
    cases h with
    | within fresh => rw [if_pos (by simp [fresh])]
    | inside fresh opened => rw [if_neg (by simp [fresh]), if_pos (inside_iff.2 opened)]
    | deeper fresh braces parens column_eq lt =>
      rw [if_neg (by simp [fresh]), if_neg (by simp [braces, parens])]
      dsimp only
      rw [column_eq, if_pos lt]
    | level fresh braces parens column_eq le level =>
      rw [if_neg (by simp [fresh]), if_neg (by simp [braces, parens])]
      dsimp only
      rw [column_eq, if_neg (Nat.not_lt.2 le), if_pos level]

/-- The line starts further out than the innermost block, and not where an outer one does. -/
theorem indentation_error (h : indentation s start = .error e) :
    s.fresh = true ∧ s.braces = 0 ∧ s.parens = 0 ∧ start - s.lineStart ≤ column s.columns ∧
      start - s.lineStart ≠ column (outdent (start - s.lineStart) s.columns) ∧
      e = .indentation (s.line + 1) := by
  unfold indentation at h
  split at h
  · cases h
  · next hfresh =>
    split at h
    · cases h
    · next houtside =>
      obtain ⟨hbraces, hparens⟩ : s.braces = 0 ∧ s.parens = 0 := by simpa using houtside
      dsimp only at h
      split at h
      · cases h
      · next hdeep =>
        split at h
        · cases h
        · next hcolumn =>
          obtain rfl := Except.error.inj h
          exact ⟨by simpa using hfresh, hbraces, hparens, Nat.le_of_not_lt hdeep, hcolumn, rfl⟩

namespace LaidOut

/-- Layout changes the open blocks and nothing else. -/
theorem frame (h : LaidOut s start items s') :
    s'.fresh = false ∧ s'.offset = s.offset ∧ s'.line = s.line ∧ s'.lineStart = s.lineStart ∧
      s'.braces = s.braces ∧ s'.parens = s.parens := by
  cases h with
  | within fresh => exact ⟨fresh, rfl, rfl, rfl, rfl, rfl⟩
  | inside | deeper | level => exact ⟨rfl, rfl, rfl, rfl, rfl, rfl⟩

theorem eq_of_within (h : LaidOut s start items s') (hfresh : s.fresh = false) :
    items = [] ∧ s' = s := by
  cases h with
  | within => exact ⟨rfl, rfl⟩
  | inside fresh | deeper fresh | level fresh =>
    rw [hfresh] at fresh
    cases fresh

/-- Layout stands where the token does, and is indentation. -/
theorem items_spec (h : LaidOut s start items s') :
    ∀ l ∈ items, (l.item = .indent ∨ l.item = .dedent) ∧ l.start = start ∧ l.stop = start := by
  intro l hl
  cases h with
  | within | inside => cases hl
  | deeper =>
    rw [List.mem_singleton.1 hl]
    exact ⟨Or.inl rfl, rfl, rfl⟩
  | level =>
    rw [List.eq_of_mem_replicate hl]
    exact ⟨Or.inr rfl, rfl, rfl⟩

end LaidOut

/-! ## Brackets -/

/-- The state behind a token, for the brackets that are open. -/
inductive Counted (s : State) : Token → State → Prop where
  | openBrace : Counted s .openBrace { s with braces := s.braces + 1 }
  | closeBrace {braces : Nat} (opened : s.braces = braces + 1) :
      Counted s .closeBrace { s with braces }
  | openParen : Counted s .openParen { s with parens := s.parens + 1 }
  | closeParen {parens : Nat} (opened : s.parens = parens + 1) :
      Counted s .closeParen { s with parens }
  | other {t : Token} (none : (Item.token t).bracket? = none) : Counted s t s

theorem bracket_eq_ok : bracket s t = .ok s' ↔ Counted s t s' := by
  constructor
  · intro h
    unfold bracket at h
    split at h
    · obtain rfl := Except.ok.inj h
      exact .openBrace
    · split at h
      · cases h
      · obtain rfl := Except.ok.inj h
        exact .closeBrace (by omega)
    · obtain rfl := Except.ok.inj h
      exact .openParen
    · split at h
      · cases h
      · obtain rfl := Except.ok.inj h
        exact .closeParen (by omega)
    · obtain rfl := Except.ok.inj h
      refine .other ?_
      cases t <;> first | rfl | contradiction
  · intro h
    cases h with
    | openBrace | openParen => rfl
    | closeBrace opened | closeParen opened => simp [bracket, opened]
    | other none => cases t <;> first | rfl | cases none

/-- A closing bracket needs an open one of its kind. -/
theorem bracket_error (h : bracket s t = .error e) :
    e = .unbalanced (s.line + 1) ∧
      ((t = .closeBrace ∧ s.braces = 0) ∨ (t = .closeParen ∧ s.parens = 0)) := by
  unfold bracket at h
  split at h
  · cases h
  · split at h
    · next hnone =>
      obtain rfl := Except.error.inj h
      exact ⟨rfl, Or.inl ⟨rfl, hnone⟩⟩
    · cases h
  · cases h
  · split at h
    · next hnone =>
      obtain rfl := Except.error.inj h
      exact ⟨rfl, Or.inr ⟨rfl, hnone⟩⟩
    · cases h
  · cases h

/-- A bracket changes how many are open and nothing else. -/
theorem Counted.frame (h : Counted s t s') :
    s'.fresh = s.fresh ∧ s'.offset = s.offset ∧ s'.line = s.line ∧ s'.lineStart = s.lineStart ∧
      s'.columns = s.columns := by
  cases h <;> exact ⟨rfl, rfl, rfl, rfl, rfl⟩

/-! ## Tokens -/

/-- Place a token between two byte offsets. -/
def put (s : State) (start stop : Nat) (t : Token) : Except ParseError (List Located × State) :=
  if t = .newline then
    .ok (if s.fresh then [] else [⟨.token .newline, s.line, start, stop⟩],
      { s with offset := stop, line := s.line + 1, lineStart := stop, fresh := true })
  else do
    let (layout, s) ← indentation s start
    let s ← bracket s t
    return (layout ++ [⟨.token t, s.line, start, stop⟩], { s with offset := stop })

/-- A token is put behind its layout, with the line where it starts. -/
theorem put_cases (h : put s start stop t = .ok (items, s')) :
    (t = .newline ∧ items = (if s.fresh then [] else [⟨.token .newline, s.line, start, stop⟩]) ∧
      s' = { s with offset := stop, line := s.line + 1, lineStart := stop, fresh := true }) ∨
    (t ≠ .newline ∧ ∃ layout s₁ s₂, LaidOut s start layout s₁ ∧ Counted s₁ t s₂ ∧
      items = layout ++ [⟨.token t, s.line, start, stop⟩] ∧ s' = { s₂ with offset := stop }) := by
  unfold put at h
  split at h
  · next hnewline =>
    obtain ⟨rfl, rfl⟩ := Prod.mk.inj (Except.ok.inj h)
    exact Or.inl ⟨hnewline, rfl, rfl⟩
  · next hnewline =>
    obtain ⟨⟨layout, s₁⟩, hlayout, hmore⟩ := bind_eq_ok h
    obtain ⟨s₂, hbracket, hitems⟩ := bind_eq_ok hmore
    obtain ⟨rfl, rfl⟩ := Prod.mk.inj (Except.ok.inj hitems)
    have hlaid := indentation_eq_ok.1 hlayout
    have hcounted := bracket_eq_ok.1 hbracket
    have hline : s₂.line = s.line := hcounted.frame.2.2.1.trans hlaid.frame.2.2.1
    refine Or.inr ⟨hnewline, layout, s₁, s₂, hlaid, hcounted, ?_, rfl⟩
    rw [hline]

theorem put_of (hne : t ≠ .newline) (hlaid : LaidOut s start layout s₁)
    (hcounted : Counted s₁ t s₂) :
    put s start stop t =
      .ok (layout ++ [⟨.token t, s₂.line, start, stop⟩], { s₂ with offset := stop }) := by
  unfold put
  rw [if_neg hne, indentation_eq_ok.2 hlaid]
  simp only [bind, Except.bind, bracket_eq_ok.2 hcounted, pure, Except.pure]

theorem put_error (h : put s start stop t = .error e) :
    t ≠ .newline ∧ (indentation s start = .error e ∨
      ∃ layout s₁, LaidOut s start layout s₁ ∧ bracket s₁ t = .error e) := by
  unfold put at h
  split at h
  · cases h
  · next hnewline =>
    refine ⟨hnewline, ?_⟩
    cases hlayout : indentation s start with
    | error e' =>
      rw [hlayout] at h
      exact Or.inl h
    | ok answer =>
      obtain ⟨layout, s₁⟩ := answer
      rw [hlayout] at h
      refine Or.inr ⟨layout, s₁, indentation_eq_ok.1 hlayout, ?_⟩
      cases hbracket : bracket s₁ t with
      | error e' =>
        simp only [bind, Except.bind, hbracket] at h
        exact congrArg _ (Except.error.inj h)
      | ok s₂ =>
        simp only [bind, Except.bind, hbracket, pure, Except.pure] at h
        cases h

theorem offset_of_put (h : put s start stop t = .ok (items, s')) : s'.offset = stop := by
  rcases put_cases h with ⟨-, -, rfl⟩ | ⟨-, layout, s₁, s₂, -, -, -, rfl⟩
  · rfl
  · rfl

/-! ## Lexemes -/

theorem place_token (s : State) (gap text : List Char) (t : Token) :
    place s ⟨gap, .token t, text⟩ =
      (put (passGap s gap).2 (s.offset + bytes gap) (s.offset + bytes gap + bytes text) t).map
        fun placed => ((passGap s gap).1 ++ placed.1, placed.2) := by
  unfold place put
  dsimp only
  split
  · rfl
  · cases indentation (passGap s gap).2 (s.offset + bytes gap) with
    | error e => rfl
    | ok answer =>
      obtain ⟨layout, s₁⟩ := answer
      simp only [bind, Except.bind]
      cases bracket s₁ t with
      | error e => rfl
      | ok s₂ => simp [pure, Except.pure, Except.map]

/-- A lexeme that is placed is a token, which is put behind the line that ends in its gap. -/
theorem place_ok {l : Lexeme} (h : place s l = .ok (items, s')) :
    ∃ t here, l.kind = .token t ∧
      put (passGap s l.gap).2 (s.offset + bytes l.gap) (s.offset + bytes l.gap + bytes l.text) t =
        .ok (here, s') ∧ items = (passGap s l.gap).1 ++ here := by
  obtain ⟨gap, kind, text⟩ := l
  cases kind with
  | token t =>
    rw [place_token] at h
    cases hput : put (passGap s gap).2 (s.offset + bytes gap)
        (s.offset + bytes gap + bytes text) t with
    | error e =>
      rw [hput] at h
      cases h
    | ok placed =>
      rw [hput] at h
      obtain ⟨here, s₁⟩ := placed
      obtain ⟨rfl, rfl⟩ := Prod.mk.inj (Except.ok.inj h)
      exact ⟨t, here, rfl, hput, rfl⟩
  | openString => cases h
  | openComment => cases h

theorem run_token (size : Nat) (s : State) (gap text : List Char) (t : Token)
    (lexemes : List Lexeme) :
    run size s (⟨gap, .token t, text⟩ :: lexemes) =
      put (passGap s gap).2 (s.offset + bytes gap) (s.offset + bytes gap + bytes text) t >>=
        fun placed => (run size placed.2 lexemes).map ((passGap s gap).1 ++ placed.1 ++ ·) := by
  rw [run, place_token]
  cases put (passGap s gap).2 (s.offset + bytes gap) (s.offset + bytes gap + bytes text) t with
  | error e => rfl
  | ok placed =>
    simp only [bind, Except.bind, Except.map]
    cases run size placed.2 lexemes <;> rfl

theorem run_cons {l : Lexeme} {rest : List Lexeme} (h : run size s (l :: rest) = .ok items) :
    ∃ t s₁ here others, l.kind = .token t ∧
      put (passGap s l.gap).2 (s.offset + bytes l.gap) (s.offset + bytes l.gap + bytes l.text) t =
        .ok (here, s₁) ∧
      run size s₁ rest = .ok others ∧ items = (passGap s l.gap).1 ++ here ++ others := by
  obtain ⟨⟨placed, s₁⟩, hplace, hmore⟩ := bind_eq_ok h
  obtain ⟨others, hrun, hitems⟩ := bind_eq_ok hmore
  obtain ⟨t, here, hkind, hput, rfl⟩ := place_ok hplace
  exact ⟨t, s₁, here, others, hkind, hput, hrun, (Except.ok.inj hitems).symm⟩

/-! ## The end of a document -/

/-- The line and the open blocks end, and all brackets are closed. -/
theorem finish_eq_ok : finish s size = .ok items ↔
    s.braces = 0 ∧ s.parens = 0 ∧
      items = (if s.fresh then [] else [⟨.token .newline, s.line, size, size⟩]) ++
        List.replicate s.columns.length ⟨.dedent, s.line, size, size⟩ ++
        [⟨.eof, s.line, size, size⟩] := by
  constructor
  · intro h
    unfold finish at h
    split at h
    · cases h
    · next houtside =>
      obtain ⟨hbraces, hparens⟩ : s.braces = 0 ∧ s.parens = 0 := by simpa using houtside
      exact ⟨hbraces, hparens, (Except.ok.inj h).symm⟩
  · rintro ⟨hbraces, hparens, rfl⟩
    unfold finish
    rw [if_neg (by simp [hbraces, hparens])]

theorem finish_items (h : finish s size = .ok items) :
    ∀ l ∈ items, (l.item = .token .newline ∨ l.item = .dedent ∨ l.item = .eof) ∧
      l.start = size ∧ l.stop = size := by
  obtain ⟨-, -, rfl⟩ := finish_eq_ok.1 h
  intro l hl
  rcases List.mem_append.1 hl with hl | hl
  · rcases List.mem_append.1 hl with hl | hl
    · rw [List.mem_singleton.1 (List.mem_ite_nil_left.1 hl).2]
      exact ⟨Or.inl rfl, rfl, rfl⟩
    · rw [List.eq_of_mem_replicate hl]
      exact ⟨Or.inr (Or.inl rfl), rfl, rfl⟩
  · rw [List.mem_singleton.1 hl]
    exact ⟨Or.inr (Or.inr rfl), rfl, rfl⟩

theorem finish_error (h : finish s size = .error e) :
    (s.braces ≠ 0 ∨ s.parens ≠ 0) ∧ e = .unbalanced (s.line + 1) := by
  unfold finish at h
  split at h
  · next hinside => exact ⟨inside_iff.1 hinside, (Except.error.inj h).symm⟩
  · cases h

end Layout

end StyleWeave
