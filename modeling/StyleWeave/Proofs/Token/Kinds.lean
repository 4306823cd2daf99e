import StyleWeave.Token.Lexer

/-!
# Kinds of lexemes

What a gap starts with, what a lexeme is by its first character and what follows (`starts_kindOf`),
and the character that a line break, a comma, an import keyword and what has no end start with.
-/

namespace StyleWeave.Lexeme

variable {c : Char} {cs : List Char}

/-! ## Gaps -/

/-- A comment by its first character, the text behind that and how much of it the comment takes. -/
inductive StartsComment : Char → List Char → Nat → Prop where
  | line (cs : List Char) :
      StartsComment '/' ('/' :: cs) ((cs.takeWhile (· != '\n')).length + 1)
  | block {cs : List Char} {n : Nat} (tail : commentTail cs = some n) :
      StartsComment '/' ('*' :: cs) (n + 1)

theorem commentRest_eq_some {n : Nat} : commentRest (c :: cs) = some n ↔ StartsComment c cs n := by
  constructor
  · intro h
    unfold commentRest at h
    split at h
    · next heq =>
      obtain ⟨rfl, rfl⟩ := List.cons.inj heq
      obtain rfl := Option.some.inj h
      exact .line _
    · next heq =>
      obtain ⟨rfl, rfl⟩ := List.cons.inj heq
      obtain ⟨n, htail, rfl⟩ := Option.map_eq_some_iff.1 h
      exact .block htail
    · cases h
  · intro h
    cases h with
    | line cs => rfl
    | block tail => exact Option.map_eq_some_iff.2 ⟨_, tail, rfl⟩

theorem commentRest_eq_none : commentRest (c :: cs) = none ↔ ∀ n, ¬ StartsComment c cs n := by
  rw [Option.eq_none_iff_forall_ne_some]
  exact forall_congr' fun _ => not_congr commentRest_eq_some

theorem commentRest_of_ne (h : c ≠ '/') (cs : List Char) : commentRest (c :: cs) = none := by
  refine commentRest_eq_none.2 fun n hstarts => ?_
  cases hstarts with
  | line | block => exact h rfl

theorem gapLength_blank (h : Text.isGap c = true) (cs : List Char) :
    gapLength (c :: cs) = gapLength cs + 1 := by
  rw [gapLength.eq_def]
  simp [h]

theorem gapLength_comment {n : Nat} (hgap : Text.isGap c = false)
    (h : commentRest (c :: cs) = some n) :
    gapLength (c :: cs) = gapLength (cs.drop n) + n + 1 := by
  rw [gapLength.eq_def]
  simp [hgap, h]

theorem gapLength_none (hgap : Text.isGap c = false) (h : commentRest (c :: cs) = none) :
    gapLength (c :: cs) = 0 := by
  rw [gapLength.eq_def]
  simp [hgap, h]

/-! ## What a lexeme can be -/

theorem identOf_cases (c : Char) (cs : List Char) :
    (∃ s, (identOf c cs).1 = .ident s) ∨ (∃ s, (identOf c cs).1 = .url s) ∨
      ∃ s, (identOf c cs).1 = .punct s := by
  unfold identOf
  dsimp only
  split
  · split
    · split
      · exact Or.inr (Or.inl ⟨_, rfl⟩)
      · exact Or.inr (Or.inr ⟨_, rfl⟩)
    · exact Or.inl ⟨_, rfl⟩
  · exact Or.inl ⟨_, rfl⟩

theorem atToken_cases (name : List Char) :
    atToken name = .atImport ∨ atToken name = .atRequire ∨ ∃ s, atToken name = .atRule s := by
  unfold atToken
  split
  · exact Or.inl rfl
  · exact Or.inr (Or.inl rfl)
  · exact Or.inr (Or.inr ⟨_, rfl⟩)

/-- The signs of one character, whatever follows. -/
def marks : List (Char × Token) :=
  [('\n', .newline), ('+', .plus), ('=', .assign), ('(', .openParen), (')', .closeParen),
    ('\x7b', .openBrace), ('\x7d', .closeBrace), (',', .comma), (';', .semicolon)]

/-- A lexeme that starts with a character, by the text behind it. -/
inductive Starts (c : Char) (cs : List Char) : Kind × Nat → Prop where
  | ident (start : isIdentStart c = true) :
      Starts c cs (.token (identOf c cs).1, (identOf c cs).2)
  | number (digit : c.isDigit = true) :
      Starts c cs (.token (.number (String.ofList (c :: cs.take (numberTail cs)))), numberTail cs)
  | string {n : Nat} (quote : c = '"' ∨ c = '\'') (tail : stringTail c cs = some n) :
      Starts c cs (.token (.string (String.ofList (unescape (cs.take (n - 1))))), n)
  | openString (quote : c = '"' ∨ c = '\'') (tail : stringTail c cs = none) :
      Starts c cs (.openString, 0)
  | openComment {rest : List Char} (slash : c = '/') (star : cs = '*' :: rest) :
      Starts c cs (.openComment, cs.length)
  | atName (sign : c = '@') :
      Starts c cs (.token (atToken (cs.takeWhile isNameChar)), (cs.takeWhile isNameChar).length)
  | dashed {d : Char} {ds : List Char} (dash : c = '-') (split : cs = d :: ds)
      (start : isIdentStart d = true) :
      Starts c cs (.token (.ident (String.ofList (c :: d :: ds.takeWhile isIdentChar))),
        (ds.takeWhile isIdentChar).length + 1)
  | assignment {t : Token} {ds : List Char} (token : t = .assignDefault ∨ t = .assignLocal)
      (split : cs = '=' :: ds) : Starts c cs (.token t, 1)
  | mark {t : Token} (mem : (c, t) ∈ marks) : Starts c cs (.token t, 0)
  | other (start : ¬ isIdentStart c = true) : Starts c cs (.token (.punct (String.ofList [c])), 0)

theorem starts_kindOf (c : Char) (cs : List Char) : Starts c cs (kindOf c cs) := by
  unfold kindOf
  dsimp only
  split
  · next hstart => exact .ident hstart
  · next hother =>
    split
    · next hdigit => exact .number hdigit
    · split
      case h_2 | h_3 =>
        split
        · next n hn => exact .string (by decide) hn
        · next hn => exact .openString (by decide) hn
      case h_4 =>
        split
        · exact .atName rfl
        · exact .other hother
      case h_5 =>
        split
        · next hstart => exact .dashed rfl rfl hstart
        · exact .other hother
      case h_6 => exact .openComment rfl rfl
      case h_7 => exact .assignment (Or.inl rfl) rfl
      case h_8 => exact .assignment (Or.inr rfl) rfl
      case h_17 => exact .other hother
      all_goals exact .mark (by decide)

theorem kindOf_mark {t : Token} (h : (c, t) ∈ marks) (cs : List Char) :
    kindOf c cs = (.token t, 0) := by
  simp only [marks, List.mem_cons, List.not_mem_nil, or_false, Prod.mk.injEq] at h
  rcases h with ⟨rfl, rfl⟩ | ⟨rfl, rfl⟩ | ⟨rfl, rfl⟩ | ⟨rfl, rfl⟩ | ⟨rfl, rfl⟩ | ⟨rfl, rfl⟩ |
    ⟨rfl, rfl⟩ | ⟨rfl, rfl⟩ | ⟨rfl, rfl⟩ <;> cases cs <;> rfl

/-- A mark is lexed where it stands and nowhere else. -/
theorem mark_of_kindOf {t : Token} (h : (kindOf c cs).1 = .token t)
    (ht : t ∈ marks.map Prod.snd) : (c, t) ∈ marks := by
  have hstarts := starts_kindOf c cs
  generalize kindOf c cs = k at h hstarts
  cases hstarts with
  | mark mem =>
    obtain rfl := Kind.token.inj h
    exact mem
  | ident =>
    obtain rfl := Kind.token.inj h
    rcases identOf_cases c cs with ⟨s, hs⟩ | ⟨s, hs⟩ | ⟨s, hs⟩
    · simp [marks, hs] at ht
    · simp [marks, hs] at ht
    · simp [marks, hs] at ht
  | atName =>
    obtain rfl := Kind.token.inj h
    rcases atToken_cases (cs.takeWhile isNameChar) with hs | hs | ⟨s, hs⟩
    · simp [marks, hs] at ht
    · simp [marks, hs] at ht
    · simp [marks, hs] at ht
  | assignment token =>
    obtain rfl := Kind.token.inj h
    rcases token with rfl | rfl
    · simp [marks] at ht
    · simp [marks] at ht
  | openString | openComment => cases h
  | number | string | dashed | other =>
    obtain rfl := Kind.token.inj h
    simp [marks] at ht

theorem kindOf_feed (cs : List Char) : kindOf '\n' cs = (.token .newline, 0) :=
  kindOf_mark (by decide) cs

theorem kindOf_newline (h : (kindOf c cs).1 = .token .newline) : c = '\n' := by
  simpa [marks] using mark_of_kindOf h (by decide)

theorem kindOf_of_comma (cs : List Char) : kindOf ',' cs = (.token .comma, 0) :=
  kindOf_mark (by decide) cs

theorem kindOf_comma (h : (kindOf c cs).1 = .token .comma) : c = ',' := by
  simpa [marks] using mark_of_kindOf h (by decide)

/-- An import keyword starts with an at sign. -/
theorem kindOf_keyword
    (h : (kindOf c cs).1 = .token .atImport ∨ (kindOf c cs).1 = .token .atRequire) : c = '@' := by
  have hstarts := starts_kindOf c cs
  generalize kindOf c cs = k at h hstarts
  cases hstarts with
  | atName sign => exact sign
  | ident =>
    rcases identOf_cases c cs with ⟨s, hs⟩ | ⟨s, hs⟩ | ⟨s, hs⟩
    · simp [hs] at h
    · simp [hs] at h
    · simp [hs] at h
  | assignment token => rcases token with rfl | rfl <;> simp at h
  | mark mem =>
    have hmarks : ∀ m ∈ marks, m.2 ≠ .atImport ∧ m.2 ≠ .atRequire := by decide
    have hne := hmarks _ mem
    rcases h with h | h
    · exact absurd (Kind.token.inj h) hne.1
    · exact absurd (Kind.token.inj h) hne.2
  | number | string | openString | openComment | dashed | other => simp at h

/-! ## By the first character -/

theorem kindOf_ident (h : isIdentStart c = true) (cs : List Char) :
    kindOf c cs = (.token (identOf c cs).1, (identOf c cs).2) := by
  unfold kindOf
  rw [if_pos h]

theorem kindOf_digit (hident : ¬ isIdentStart c = true) (h : c.isDigit = true) (cs : List Char) :
    kindOf c cs =
      (.token (.number (String.ofList (c :: cs.take (numberTail cs)))), numberTail cs) := by
  unfold kindOf
  rw [if_neg hident, if_pos h]

theorem kindOf_quote (h : c = '"' ∨ c = '\'') (cs : List Char) :
    kindOf c cs =
      match stringTail c cs with
      | some n => (.token (.string (String.ofList (unescape (cs.take (n - 1))))), n)
      | none => (.openString, 0) := by
  rcases h with rfl | rfl
  · rfl
  · rfl

theorem kindOf_at (cs : List Char) :
    kindOf '@' cs =
      if cs.head?.any fun d => isNameStart d || d = '-' then
        (.token (atToken (cs.takeWhile isNameChar)), (cs.takeWhile isNameChar).length)
      else (.token (.punct (String.ofList ['@'])), 0) := by
  cases cs <;> rfl

theorem isIdentChar_of_start {d : Char} (h : isIdentStart d = true) : isIdentChar d = true := by
  simp only [isIdentStart, isIdentChar, isNameStart, isNameChar, Char.isAlphanum, Bool.or_eq_true,
    decide_eq_true_eq] at *
  rcases h with (h | h) | h
  · exact Or.inl (Or.inl (Or.inl (Or.inl h)))
  · exact Or.inl (Or.inl (Or.inr h))
  · exact Or.inr h

theorem kindOf_dash (cs : List Char) :
    kindOf '-' cs =
      if cs.head?.any isIdentStart then
        (.token (.ident (String.ofList ('-' :: cs.takeWhile isIdentChar))),
          (cs.takeWhile isIdentChar).length)
      else (.token (.punct (String.ofList ['-'])), 0) := by
  cases cs with
  | nil => rfl
  | cons d ds =>
    by_cases hd : isIdentStart d = true
    · rw [if_pos (by simpa using hd), List.takeWhile_cons_of_pos (isIdentChar_of_start hd)]
      exact if_pos hd
    · rw [if_neg (by simpa using hd)]
      exact if_neg hd

/-- The signs that are the first character of something longer, by the one behind them. -/
def pairs : List (Char × Char) :=
  [('/', '*'), ('?', '='), (':', '=')]

/-- A sign stands for itself if what follows makes it nothing longer. -/
theorem kindOf_of_next {d : Char} (h : (c, d) ∈ pairs) (hnext : ¬ cs.head?.any (· == d) = true) :
    kindOf c cs = (.token (.punct (String.ofList [c])), 0) := by
  simp only [pairs, List.mem_cons, List.not_mem_nil, or_false, Prod.mk.injEq] at h
  unfold kindOf
  dsimp only
  rcases h with ⟨rfl, rfl⟩ | ⟨rfl, rfl⟩ | ⟨rfl, rfl⟩
  all_goals
    rw [if_neg (by decide), if_neg (by decide)]
    split <;> first | rfl | contradiction

/-- A sign that starts nothing longer is the same whatever follows. -/
theorem kindOf_of_sign (hident : ¬ isIdentStart c = true) (hdigit : ¬ c.isDigit = true)
    (hsign : c ∉ ['"', '\'', '@', '-', '/', '?', ':']) (cs : List Char) :
    kindOf c cs = kindOf c [] := by
  unfold kindOf
  dsimp only
  rw [if_neg hident, if_neg hident, if_neg hdigit, if_neg hdigit]
  split
  case h_17 => split <;> first | rfl | contradiction
  all_goals first | rfl | exact absurd (by decide) hsign

theorem kindOf_openString (h : (kindOf c cs).1 = .openString) :
    (c = '"' ∨ c = '\'') ∧ stringTail c cs = none := by
  have hstarts := starts_kindOf c cs
  generalize kindOf c cs = k at h hstarts
  cases hstarts with
  | openString quote tail => exact ⟨quote, tail⟩
  | _ => cases h

theorem kindOf_openComment (h : (kindOf c cs).1 = .openComment) :
    c = '/' ∧ ∃ rest, cs = '*' :: rest := by
  have hstarts := starts_kindOf c cs
  generalize kindOf c cs = k at h hstarts
  cases hstarts with
  | openComment slash star => exact ⟨slash, _, star⟩
  | _ => cases h

end StyleWeave.Lexeme
