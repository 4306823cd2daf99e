import StyleWeave.Proofs.Token.Comments
import StyleWeave.Proofs.Token.OneLine

/-!
# Lexing piece by piece

`Lexes` follows the lexer through a text character by character where it can: over blanks, through
comments, and from token to token. It has the text that is left as an index, so that pieces are put
together (`Lexes.append`) and taken apart (`Lexes.at_front`, `Lexes.at_back`) without a second look
at the longest match. A line break in a block comment counts as a token, as it does for the layout
of the lines.
-/

namespace StyleWeave

/-- A token in a text: the text from its first character on, and the text behind it. -/
structure Spot where
  token : Token
  front : List Char
  back : List Char

namespace Lexeme

/-- From one place in a text to another, these tokens are lexed. `inComment` says whether a place is
inside a block comment. -/
inductive Lexes : Bool → List Char → List Spot → Bool → List Char → Prop where
  | done {inComment : Bool} {cs : List Char} : Lexes inComment cs [] inComment cs
  | gap {c : Char} {cs rest : List Char} {spots : List Spot} {inComment : Bool}
      (gap : Text.isGap c = true) (others : Lexes false cs spots inComment rest) :
      Lexes false (c :: cs) spots inComment rest
  | token {c : Char} {u cs rest : List Char} {t : Token} {spots : List Spot} {inComment : Bool}
      (gap : Text.isGap c = false) (comment : commentRest (c :: (u ++ cs)) = none)
      (kind : kindOf c (u ++ cs) = (.token t, u.length))
      (others : Lexes false cs spots inComment rest) :
      Lexes false (c :: (u ++ cs)) (⟨t, c :: (u ++ cs), cs⟩ :: spots) inComment rest
  | line {cs rest : List Char} {spots : List Spot} {inComment : Bool}
      (others : Lexes false (cs.dropWhile (· != '\n')) spots inComment rest) :
      Lexes false ('/' :: '/' :: cs) spots inComment rest
  | opens {cs rest : List Char} {spots : List Spot} {inComment : Bool}
      (others : Lexes true cs spots inComment rest) :
      Lexes false ('/' :: '*' :: cs) spots inComment rest
  | closes {cs rest : List Char} {spots : List Spot} {inComment : Bool}
      (others : Lexes false cs spots inComment rest) :
      Lexes true ('*' :: '/' :: cs) spots inComment rest
  | feed {cs rest : List Char} {spots : List Spot} {inComment : Bool}
      (others : Lexes true cs spots inComment rest) :
      Lexes true ('\n' :: cs) (⟨.newline, '\n' :: cs, cs⟩ :: spots) inComment rest
  | within {c : Char} {cs rest : List Char} {spots : List Spot} {inComment : Bool}
      (feed : c ≠ '\n') (open_ : c = '*' → cs.head? ≠ some '/')
      (others : Lexes true cs spots inComment rest) :
      Lexes true (c :: cs) spots inComment rest

variable {m m' m'' : Bool} {cs rest rest' a b v : List Char} {spots spots' : List Spot} {s : Spot}

theorem Lexes.append (h : Lexes m cs spots m' rest) (h' : Lexes m' rest spots' m'' rest') :
    Lexes m cs (spots ++ spots') m'' rest' := by
  induction h with
  | done => exact h'
  | gap hgap _ ih => exact .gap hgap (ih h')
  | token hgap hcomment hkind _ ih => exact .token hgap hcomment hkind (ih h')
  | line _ ih => exact .line (ih h')
  | opens _ ih => exact .opens (ih h')
  | closes _ ih => exact .closes (ih h')
  | feed _ ih => exact .feed (ih h')
  | within hfeed hopen _ ih => exact .within hfeed hopen (ih h')

/-- What is left is the end of the text. -/
theorem Lexes.suffix (h : Lexes m cs spots m' rest) : rest <:+ cs := by
  induction h with
  | done => exact List.suffix_refl _
  | gap _ _ ih | feed _ ih | within _ _ _ ih => exact ih.trans (List.suffix_cons _ _)
  | token _ _ _ _ ih => exact (ih.trans (List.suffix_append _ _)).trans (List.suffix_cons _ _)
  | line _ ih =>
    have hline := ih.trans (List.dropWhile_suffix _)
    exact (hline.trans (List.suffix_cons _ _)).trans (List.suffix_cons _ _)
  | opens _ ih | closes _ ih => exact (ih.trans (List.suffix_cons _ _)).trans (List.suffix_cons _ _)

/-- Nothing is lexed from a place to itself. -/
theorem Lexes.eq_of_same (h : Lexes m cs spots m' rest) (hsame : rest = cs) :
    spots = [] ∧ m' = m := by
  subst hsame
  have hlonger : ∀ {c : Char} {ds es : List Char}, c :: ds <:+ es → es <:+ ds → False := by
    intro c ds es hle hle'
    have hlength := (hle.trans hle').length_le
    rw [List.length_cons] at hlength
    omega
  cases h with
  | done => exact ⟨rfl, rfl⟩
  | gap _ others => exact (hlonger others.suffix (List.suffix_refl _)).elim
  | token _ _ _ others => exact (hlonger others.suffix (List.suffix_append _ _)).elim
  | line others =>
    exact (hlonger others.suffix ((List.dropWhile_suffix _).trans (List.suffix_cons _ _))).elim
  | opens others | closes others => exact (hlonger others.suffix (List.suffix_cons _ _)).elim
  | feed others => exact (hlonger others.suffix (List.suffix_refl _)).elim
  | within _ _ others => exact (hlonger others.suffix (List.suffix_refl _)).elim

/-! ## Cutting at a token -/

/-- A text can be cut in front of a token and behind it. -/
theorem Lexes.cut (h : Lexes m cs (spots ++ s :: spots') m' rest) (hs : s.token ≠ .newline) :
    Lexes m cs spots false s.front ∧ Lexes false s.front [s] false s.back ∧
      Lexes false s.back spots' m' rest := by
  generalize hall : spots ++ s :: spots' = all at h
  induction h generalizing spots with
  | done => simp at hall
  | gap hgap _ ih => exact (ih hall).imp (.gap hgap) id
  | token hgap hcomment hkind others ih =>
    cases spots with
    | nil =>
      obtain ⟨rfl, rfl⟩ := List.cons.inj hall
      exact ⟨.done, .token hgap hcomment hkind .done, others⟩
    | cons first more =>
      obtain ⟨rfl, hmore⟩ := List.cons.inj hall
      exact (ih hmore).imp (.token hgap hcomment hkind) id
  | line _ ih => exact (ih hall).imp .line id
  | opens _ ih => exact (ih hall).imp .opens id
  | closes _ ih => exact (ih hall).imp .closes id
  | feed _ ih =>
    cases spots with
    | nil =>
      obtain ⟨rfl, -⟩ := List.cons.inj hall
      exact absurd rfl hs
    | cons first more =>
      obtain ⟨rfl, hmore⟩ := List.cons.inj hall
      exact (ih hmore).imp .feed id
  | within hfeed hopen _ ih => exact (ih hall).imp (.within hfeed hopen) id

/-- A text can be cut in front of a token. -/
theorem Lexes.at_front (h : Lexes m cs (spots ++ s :: spots') m' rest)
    (hs : s.token ≠ .newline) :
    Lexes m cs spots false s.front ∧ Lexes false s.front (s :: spots') m' rest := by
  obtain ⟨hbefore, hhere, hbehind⟩ := h.cut hs
  exact ⟨hbefore, hhere.append hbehind⟩

/-- A text can be cut behind a token. -/
theorem Lexes.at_back (h : Lexes m cs (spots ++ s :: spots') m' rest) (hs : s.token ≠ .newline) :
    Lexes m cs (spots ++ [s]) false s.back ∧ Lexes false s.back spots' m' rest := by
  obtain ⟨hbefore, hhere, hbehind⟩ := h.cut hs
  exact ⟨hbefore.append hhere, hbehind⟩

end Lexeme

end StyleWeave
