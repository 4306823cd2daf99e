import StyleWeave.Proofs.Token.Places

/-!
# How tokens are spelled

A token is spelled by a text if the lexer takes just this text as the token, whatever follows it
within a condition (`Spells`). A text that starts with the spelling of a token, blanks in front of
it, is cut behind the spelling (`ofText_spells`).
-/

namespace StyleWeave

/-! ## Identifiers and quoted strings -/

/-- An identifier: a letter, an underscore or a dollar sign, with a minus sign in front of it or
not, and letters, digits, underscores, dollar and minus signs behind it. -/
def isIdent : List Char → Bool
  | '-' :: c :: more => Lexeme.isIdentStart c && more.all Lexeme.isIdentChar
  | c :: more => Lexeme.isIdentStart c && more.all Lexeme.isIdentChar
  | [] => false

/-- The name of an at-rule that imports nothing. -/
def isAtName : List Char → Bool
  | c :: more =>
    (Lexeme.isNameStart c || c = '-') && more.all Lexeme.isNameChar &&
      String.ofList (c :: more) != "import" && String.ofList (c :: more) != "require"
  | [] => false

/-- A character between double quotes. -/
def escaped (c : Char) : List Char :=
  if c = '"' || c = '\\' then ['\\', c] else [c]

/-- A text in double quotes. -/
def quoted (text : List Char) : List Char :=
  '"' :: (text.flatMap escaped ++ ['"'])

namespace Lexeme

/-! ## Cutting off one token -/

/-- No identifier goes on with this text, and no call starts with it. -/
def Delimited (rest : List Char) : Prop :=
  ∀ c, rest.head? = some c → isIdentChar c = false ∧ c ≠ '('

theorem delimited_cons {c : Char} {rest : List Char} (h : Lexeme.isIdentChar c = false)
    (hparen : c ≠ '(') : Delimited (c :: rest) := by
  intro d hd
  obtain rfl := Option.some.inj hd
  exact ⟨h, hparen⟩

/-- In front of a text that satisfies `B`, the token `t` is spelled `text`. -/
def Spells (text : List Char) (t : Token) (B : List Char → Prop) : Prop :=
  ∃ c more, text = c :: more ∧ Text.isGap c = false ∧ c ≠ '/' ∧
    ∀ rest, B rest → kindOf c (more ++ rest) = (.token t, more.length)

theorem gapLength_spaces (n : Nat) {c : Char} (hgap : Text.isGap c = false) (hslash : c ≠ '/')
    (rest : List Char) : gapLength (List.replicate n ' ' ++ c :: rest) = n := by
  induction n with
  | zero =>
    rw [List.replicate_zero, List.nil_append, gapLength_none hgap (commentRest_of_ne hslash rest)]
  | succ n ih =>
    have hspace : Text.isGap ' ' = true := by decide
    rw [List.replicate_succ, List.cons_append, gapLength_blank hspace, ih]

variable {text rest : List Char} {t : Token} {B : List Char → Prop}

theorem ofText_spells (h : Spells text t B) (n : Nat) (hB : B rest) :
    ofText (List.replicate n ' ' ++ (text ++ rest)) =
      ⟨List.replicate n ' ', .token t, text⟩ :: ofText rest := by
  obtain ⟨c, more, rfl, hgap, hslash, hkind⟩ := h
  have hlength := gapLength_spaces n hgap hslash (more ++ rest)
  have hdrop : (List.replicate n ' ' ++ (c :: more ++ rest)).drop
      (gapLength (List.replicate n ' ' ++ (c :: more ++ rest))) = c :: (more ++ rest) := by
    rw [List.cons_append, hlength, List.drop_left' List.length_replicate]
  rw [ofText_of_drop_cons hdrop, hkind rest hB, List.cons_append, hlength,
    List.take_left' List.length_replicate, List.take_left' rfl, List.drop_left' rfl]

theorem Spells.mono {B' : List Char → Prop} (h : Spells text t B) (hB : ∀ rest, B' rest → B rest) :
    Spells text t B' := by
  obtain ⟨c, more, htext, hgap, hslash, hkind⟩ := h
  exact ⟨c, more, htext, hgap, hslash, fun rest hrest => hkind rest (hB rest hrest)⟩

/-! ## Words -/

/-- The longest match ends where the characters of the class do. -/
theorem takeWhile_append_of_stop {p : Char → Bool} {more rest : List Char}
    (hmore : ∀ c ∈ more, p c = true) (hrest : ∀ c, rest.head? = some c → p c = false) :
    (more ++ rest).takeWhile p = more := by
  have hstop : rest.takeWhile p = [] := by
    cases rest with
    | nil => rfl
    | cons c cs => exact List.takeWhile_cons_of_neg (by simp [hrest c rfl])
  rw [List.takeWhile_append_of_pos hmore, hstop, List.append_nil]

theorem not_isGap_of_isIdentStart {c : Char} (h : isIdentStart c = true) :
    Text.isGap c = false ∧ c ≠ '/' := by
  constructor
  · rw [Bool.eq_false_iff]
    intro hgap
    simp only [Text.isGap, Bool.or_eq_true, decide_eq_true_eq] at hgap
    rcases hgap with ((rfl | rfl) | rfl) | rfl <;> revert h <;> decide
  · rintro rfl
    revert h
    decide

/-- What may follow an identifier: none of its own characters, and no parenthesis behind `url`. -/
def EndsIdent (name rest : List Char) : Prop :=
  ∀ c, rest.head? = some c →
    isIdentChar c = false ∧ (c = '(' → String.ofList name ≠ "url")

theorem Delimited.endsIdent (h : Delimited rest) (name : List Char) : EndsIdent name rest :=
  fun c hc => ⟨(h c hc).1, fun hparen => absurd hparen (h c hc).2⟩

theorem identOf_append {c : Char} {more : List Char} (hmore : ∀ d ∈ more, isIdentChar d = true)
    (hrest : EndsIdent (c :: more) rest) :
    identOf c (more ++ rest) = (.ident (String.ofList (c :: more)), more.length) := by
  have htake : (more ++ rest).takeWhile isIdentChar = more :=
    takeWhile_append_of_stop hmore fun d hd => (hrest d hd).1
  have hdrop : (more ++ rest).drop more.length = rest := List.drop_left' rfl
  unfold identOf
  dsimp only
  rw [htake, hdrop]
  split
  · have hurl := (hrest '(' rfl).2 rfl
    rw [if_neg hurl]
  · rfl

theorem spells_ident {name : List Char} (h : isIdent name = true) :
    Spells name (.ident (String.ofList name)) (EndsIdent name) := by
  unfold isIdent at h
  split at h
  · next d more =>
    rw [Bool.and_eq_true, List.all_eq_true] at h
    refine ⟨'-', d :: more, rfl, by decide, by decide, fun rest hrest => ?_⟩
    have htake : ((d :: more) ++ rest).takeWhile isIdentChar = d :: more := by
      rw [List.cons_append, List.takeWhile_cons_of_pos (isIdentChar_of_start h.1),
        takeWhile_append_of_stop h.2 fun c hc => (hrest c hc).1]
    rw [kindOf_dash, htake, if_pos (by simpa using h.1)]
  · next c more _ =>
    rw [Bool.and_eq_true, List.all_eq_true] at h
    obtain ⟨hgap, hslash⟩ := not_isGap_of_isIdentStart h.1
    refine ⟨c, more, rfl, hgap, hslash, fun rest hrest => ?_⟩
    rw [kindOf_ident h.1, identOf_append h.2 hrest]
  · cases h

/-- What may follow the name of an at-rule. -/
def EndsName (rest : List Char) : Prop :=
  ∀ c, rest.head? = some c → isNameChar c = false

theorem Delimited.endsName (h : Delimited rest) : EndsName rest := by
  intro c hc
  have hident := (h c hc).1
  rw [isIdentChar, Bool.or_eq_false_iff] at hident
  exact hident.1

theorem isNameChar_of_start {c : Char} (h : (isNameStart c || c = '-') = true) :
    isNameChar c = true := by
  simp only [isNameStart, isNameChar, Char.isAlphanum, Bool.or_eq_true, decide_eq_true_eq] at *
  rcases h with (h | h) | h
  · exact Or.inl (Or.inl (Or.inl h))
  · exact Or.inl (Or.inr h)
  · exact Or.inr h

theorem spells_at {c : Char} {more : List Char} (hc : (isNameStart c || c = '-') = true)
    (hmore : ∀ d ∈ more, isNameChar d = true) :
    Spells ('@' :: c :: more) (atToken (c :: more)) EndsName := by
  refine ⟨'@', c :: more, rfl, by decide, by decide, fun rest hrest => ?_⟩
  have htake : (c :: (more ++ rest)).takeWhile isNameChar = c :: more := by
    rw [List.takeWhile_cons_of_pos (isNameChar_of_start hc), takeWhile_append_of_stop hmore hrest]
  rw [List.cons_append, kindOf_at, htake, if_pos (by simpa using hc)]

theorem spells_atRule {name : List Char} (h : isAtName name = true) :
    Spells ('@' :: name) (.atRule (String.ofList name)) EndsName := by
  unfold isAtName at h
  split at h
  · next c more =>
    simp only [Bool.and_eq_true, List.all_eq_true, bne_iff_ne] at h
    obtain ⟨⟨⟨hc, hmore⟩, himport⟩, hrequire⟩ := h
    have htoken : atToken (c :: more) = .atRule (String.ofList (c :: more)) := by
      unfold atToken
      split
      · next heq => exact absurd heq himport
      · next heq => exact absurd heq hrequire
      · rfl
    have hspells := spells_at hc hmore
    rwa [htoken] at hspells
  · cases h

theorem spells_import : Spells "@import".toList .atImport EndsName :=
  spells_at (by decide) (List.all_eq_true.1 (by decide))

theorem spells_require : Spells "@require".toList .atRequire EndsName :=
  spells_at (by decide) (List.all_eq_true.1 (by decide))

/-! ## Strings -/

theorem stringTail_escaped (text rest : List Char) (h : '\n' ∉ text) :
    stringTail '"' (text.flatMap escaped ++ '"' :: rest) =
      some ((text.flatMap escaped).length + 1) := by
  induction text with
  | nil => simp [stringTail]
  | cons c cs ih =>
    obtain ⟨hc, hcs⟩ := not_or.1 (fun hm => h (List.mem_cons.2 hm))
    have hrest := ih hcs
    by_cases hescape : c = '"' ∨ c = '\\'
    · have htext : escaped c = ['\\', c] := by simp [escaped, hescape]
      have hfeed : c ≠ '\n' := by rcases hescape with rfl | rfl <;> decide
      rw [List.flatMap_cons, htext]
      simp [stringTail, hfeed, hrest]
    · obtain ⟨hquote, hslash⟩ := not_or.1 hescape
      have htext : escaped c = [c] := by simp [escaped, hquote, hslash]
      have hfeed : c ≠ '\n' := fun heq => hc heq.symm
      rw [List.flatMap_cons, htext, List.singleton_append, List.cons_append, stringTail.eq_def]
      simp [hquote, hslash, hfeed, hrest]

theorem unescape_escaped (text : List Char) : unescape (text.flatMap escaped) = text := by
  induction text with
  | nil => rfl
  | cons c cs ih =>
    by_cases hescape : c = '"' ∨ c = '\\'
    · have htext : escaped c = ['\\', c] := by simp [escaped, hescape]
      rw [List.flatMap_cons, htext]
      simp [unescape, ih]
    · obtain ⟨hquote, hslash⟩ := not_or.1 hescape
      have htext : escaped c = [c] := by simp [escaped, hquote, hslash]
      rw [List.flatMap_cons, htext]
      simp [unescape, hslash, ih]

theorem spells_quoted {text : List Char} (h : '\n' ∉ text) :
    Spells (quoted text) (.string (String.ofList text)) fun _ => True := by
  refine ⟨'"', text.flatMap escaped ++ ['"'], rfl, by decide, by decide, fun rest _ => ?_⟩
  have htail := stringTail_escaped text rest h
  rw [List.append_assoc, List.singleton_append, kindOf_quote (Or.inl rfl), htail]
  simp [unescape_escaped]

/-! ## Signs -/

/-- The tokens that are spelled alike wherever they stand. -/
def signs : List (List Char × Token) :=
  [(['\n'], .newline), (['+'], .plus), ([','], .comma), (['('], .openParen), ([')'], .closeParen),
    (['\x7b'], .openBrace), (['\x7d'], .closeBrace), (['='], .assign), (['?', '='], .assignDefault),
    ([':', '='], .assignLocal)]

theorem spells_sign (h : (text, t) ∈ signs) : Spells text t fun _ => True := by
  simp only [signs, List.mem_cons, List.not_mem_nil, or_false, Prod.mk.injEq] at h
  rcases h with ⟨rfl, rfl⟩ | ⟨rfl, rfl⟩ | ⟨rfl, rfl⟩ | ⟨rfl, rfl⟩ | ⟨rfl, rfl⟩ | ⟨rfl, rfl⟩ |
    ⟨rfl, rfl⟩ | ⟨rfl, rfl⟩ | ⟨rfl, rfl⟩ | ⟨rfl, rfl⟩ <;>
    exact ⟨_, _, rfl, by decide, by decide, fun _ _ => rfl⟩

end Lexeme

end StyleWeave
