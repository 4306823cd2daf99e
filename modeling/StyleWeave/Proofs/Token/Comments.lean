import StyleWeave.Proofs.Token.Lookahead

/-!
# Comments as blank space

`blankComments` puts blanks in place of the comments of a text, as many as the comments have bytes,
and keeps their line breaks. The lexemes stay the same: no lexeme looks past the slash that a
comment starts with, and none goes on behind a blank (`kindOf_of_ahead`). Only gaps change, and a
line break in a comment becomes a lexeme.
-/

namespace StyleWeave

open Text (bytes)

/-- A comment as blank space: a blank for each byte, and line breaks as they are. -/
def blankOut (comment : List Char) : List Char :=
  comment.flatMap fun c => if c = '\n' then ['\n'] else List.replicate c.utf8Size ' '

/-- The text with blank space in place of its comments, up to a string or comment without end. -/
def blankComments (cs : List Char) : List Char :=
  match cs with
  | [] => []
  | c :: rest =>
    if Text.isGap c then c :: blankComments rest
    else
      match Lexeme.commentRest (c :: rest) with
      | some n => blankOut (c :: rest.take n) ++ blankComments (rest.drop n)
      | none =>
        match Lexeme.kindOf c rest with
        | (.token _, n) => c :: (rest.take n ++ blankComments (rest.drop n))
        | _ => c :: rest
termination_by cs.length
decreasing_by all_goals (simp only [List.length_cons, List.length_drop]; omega)

namespace Lexeme

/-- How a text becomes the one with blank space in place of its comments. -/
inductive Blanked : List Char → List Char → Prop where
  | nil : Blanked [] []
  | gap {c : Char} {cs cs' : List Char} (gap : Text.isGap c = true) (others : Blanked cs cs') :
      Blanked (c :: cs) (c :: cs')
  | comment {c : Char} {rest cs' : List Char} {n : Nat} (gap : Text.isGap c = false)
      (comment : commentRest (c :: rest) = some n) (others : Blanked (rest.drop n) cs') :
      Blanked (c :: rest) (blankOut (c :: rest.take n) ++ cs')
  | token {c : Char} {rest cs' : List Char} {t : Token} {n : Nat} (gap : Text.isGap c = false)
      (comment : commentRest (c :: rest) = none) (kind : kindOf c rest = (.token t, n))
      (others : Blanked (rest.drop n) cs') : Blanked (c :: rest) (c :: (rest.take n ++ cs'))
  /-- A string or comment does not end. -/
  | open_ {c : Char} {rest : List Char} (gap : Text.isGap c = false)
      (comment : commentRest (c :: rest) = none) (kind : ∀ t, (kindOf c rest).1 ≠ .token t) :
      Blanked (c :: rest) (c :: rest)

theorem blanked_blankComments (cs : List Char) : Blanked cs (blankComments cs) := by
  fun_induction blankComments cs with
  | case1 => exact .nil
  | case2 c rest hgap ih => exact .gap hgap ih
  | case3 c rest hgap n hcomment ih => exact .comment (by simpa using hgap) hcomment ih
  | case4 c rest hgap hcomment t n hkind ih => exact .token (by simpa using hgap) hcomment hkind ih
  | case5 c rest hgap hcomment hkind =>
    refine .open_ (by simpa using hgap) hcomment fun t ht => ?_
    exact hkind t (kindOf c rest).2 (Prod.ext ht rfl)

/-! ## Cutting off what comes first -/

/-- The lexemes when more stands in front of the first one. -/
def behind (gap : List Char) : List Lexeme → List Lexeme
  | [] => []
  | l :: ls => { l with gap := gap ++ l.gap } :: ls

theorem behind_behind (gap gap' : List Char) (lexemes : List Lexeme) :
    behind gap (behind gap' lexemes) = behind (gap ++ gap') lexemes := by
  cases lexemes with
  | nil => rfl
  | cons l ls => simp [behind]

theorem behind_nil (lexemes : List Lexeme) : behind [] lexemes = lexemes := by
  cases lexemes <;> rfl

@[simp] theorem ofText_nil : ofText [] = [] :=
  ofText_of_drop_nil List.drop_nil

/-- What is passed over in front of a text belongs to the gap of its first lexeme. -/
theorem ofText_of_gapLength {front cs : List Char}
    (h : gapLength (front ++ cs) = front.length + gapLength cs) :
    ofText (front ++ cs) = behind front (ofText cs) := by
  have hdrop : (front ++ cs).drop (gapLength (front ++ cs)) = cs.drop (gapLength cs) := by
    rw [h, ← List.drop_drop, List.drop_left' rfl]
  have htake : (front ++ cs).take (gapLength (front ++ cs)) = front ++ cs.take (gapLength cs) := by
    rw [h, List.take_add, List.take_left' rfl, List.drop_left' rfl]
  cases hrest : cs.drop (gapLength cs) with
  | nil => rw [ofText_of_drop_nil (hdrop.trans hrest), ofText_of_drop_nil hrest, behind]
  | cons c rest =>
    rw [ofText_of_drop_cons (hdrop.trans hrest), ofText_of_drop_cons hrest, htake, behind]

theorem ofText_gap {c : Char} (h : Text.isGap c = true) (cs : List Char) :
    ofText (c :: cs) = behind [c] (ofText cs) := by
  have hlength : gapLength ([c] ++ cs) = [c].length + gapLength cs :=
    (gapLength_blank h cs).trans (Nat.add_comm _ _)
  exact ofText_of_gapLength hlength

/-- The end of a block comment is behind this character. -/
theorem commentTail_cons {c : Char} {cs : List Char} (hopen : c = '*' → cs.head? ≠ some '/') :
    commentTail (c :: cs) = (commentTail cs).map (· + 1) := by
  rw [commentTail]
  rintro more rfl rfl
  exact hopen rfl rfl

theorem commentTail_le {cs : List Char} {n : Nat} (h : commentTail cs = some n) :
    n ≤ cs.length := by
  induction cs generalizing n with
  | nil => cases h
  | cons c cs ih =>
    unfold commentTail at h
    split at h
    · next heq =>
      obtain ⟨-, rfl⟩ := List.cons.inj heq
      obtain rfl := Option.some.inj h
      simp
    · next heq =>
      obtain ⟨-, rfl⟩ := List.cons.inj heq
      obtain ⟨m, hm, rfl⟩ := Option.map_eq_some_iff.1 h
      have hle := ih hm
      rw [List.length_cons]
      omega
    · cases h

theorem commentRest_le {c : Char} {rest : List Char} {n : Nat}
    (h : commentRest (c :: rest) = some n) : n ≤ rest.length := by
  cases commentRest_eq_some.1 h with
  | line cs =>
    have hle := (List.takeWhile_prefix (· != '\n') (l := cs)).length_le
    exact Nat.succ_le_succ hle
  | block tail => exact Nat.succ_le_succ (commentTail_le tail)

theorem ofText_comment {c : Char} {rest : List Char} {n : Nat} (hgap : Text.isGap c = false)
    (h : commentRest (c :: rest) = some n) :
    ofText (c :: rest) = behind (c :: rest.take n) (ofText (rest.drop n)) := by
  have hcut : (c :: rest.take n) ++ rest.drop n = c :: rest := by
    rw [List.cons_append, List.take_append_drop]
  have hlength : gapLength ((c :: rest.take n) ++ rest.drop n) =
      (c :: rest.take n).length + gapLength (rest.drop n) := by
    have hle := commentRest_le h
    rw [hcut, gapLength_comment hgap h, List.length_cons, List.length_take]
    omega
  have hcomment := ofText_of_gapLength hlength
  rwa [hcut] at hcomment

theorem ofText_lexeme {c : Char} {rest : List Char} (hgap : Text.isGap c = false)
    (hcomment : commentRest (c :: rest) = none) :
    ofText (c :: rest) = ⟨[], (kindOf c rest).1, c :: rest.take (kindOf c rest).2⟩ ::
      ofText (rest.drop (kindOf c rest).2) := by
  have hlength := gapLength_none hgap hcomment
  have hdrop : (c :: rest).drop (gapLength (c :: rest)) = c :: rest := by
    rw [hlength, List.drop_zero]
  rw [ofText_of_drop_cons hdrop, hlength, List.take_zero]

/-! ## What a lexeme sees of a comment -/

theorem blankOut_slash (comment : List Char) :
    blankOut ('/' :: comment) = ' ' :: blankOut comment := by
  rfl

theorem Blanked.ahead {cs cs' : List Char} (h : Blanked cs cs') : Ahead cs cs' := by
  induction h with
  | nil => exact .nil
  | gap _ _ ih => exact .cons _ ih
  | @comment c rest cs' n hgap hcomment _ _ =>
    have hslash : c = '/' := by
      cases commentRest_eq_some.1 hcomment with
      | line | block => rfl
    subst hslash
    refine .edge (fun d hd => ?_) fun d hd => ?_
    · exact Or.inr (Or.inr (Or.inr (Or.inl (Option.some.inj hd).symm)))
    · rw [blankOut_slash, List.cons_append] at hd
      exact Or.inl (Option.some.inj hd ▸ by decide)
  | @token c rest cs' t n _ _ _ _ ih =>
    have hrest := ih.append (rest.take n)
    rw [List.take_append_drop] at hrest
    exact .cons c hrest
  | open_ => exact .refl _


/-- A line ends where it did. -/
theorem Blanked.endsLine {cs cs' : List Char} (h : Blanked cs cs') (hends : EndsLine cs) :
    EndsLine cs' := by
  cases h with
  | nil => exact endsLine_nil
  | gap _ _ => exact fun d hd => hends d hd
  | @comment c rest _ _ _ hcomment _ =>
    obtain rfl := hends c rfl
    cases hcomment
  | token _ _ _ _ => exact fun d hd => hends d hd
  | open_ => exact hends

/-- A lexeme is the same when the comments behind it are blank space. -/
theorem ofText_blanked {c : Char} {rest cs' : List Char} {t : Token} {n : Nat}
    (hgap : Text.isGap c = false) (hcomment : commentRest (c :: rest) = none)
    (hkind : kindOf c rest = (.token t, n)) (h : Blanked (rest.drop n) cs') :
    ofText (c :: (rest.take n ++ cs')) = ⟨[], .token t, c :: rest.take n⟩ :: ofText cs' := by
  have hrest : rest.take n ++ rest.drop n = rest := List.take_append_drop n rest
  have hahead := h.ahead.append (rest.take n)
  rw [hrest] at hahead
  have hcomment' := commentRest_of_ahead hahead hcomment hkind
  by_cases hle : n ≤ rest.length
  · have hlength : (rest.take n).length = n := List.length_take_of_le hle
    have hsplit : kindOf c (rest.take n ++ rest.drop n) = (.token t, (rest.take n).length) := by
      rw [hrest, hlength, hkind]
    have hkind' := kindOf_of_ahead h.ahead (fun _ _ => h.endsLine) hsplit
    have hlexeme := ofText_lexeme hgap hcomment'
    rw [hkind', List.take_left' rfl, List.drop_left' rfl] at hlexeme
    exact hlexeme
  · -- The lexeme is the rest of the text, so nothing is behind it.
    have hnil : rest.drop n = [] := List.drop_eq_nil_of_le (by omega)
    have hall : rest.take n = rest := List.take_of_length_le (by omega)
    rw [hnil] at h
    cases h
    have hlexeme := ofText_lexeme hgap hcomment
    rw [hkind] at hlexeme
    rw [hall, List.append_nil]
    rw [hall, hnil] at hlexeme
    exact hlexeme

end Lexeme

end StyleWeave
