import StyleWeave.Proofs.Token.Places

/-!
# What a lexeme sees of the text behind it

The longest lexeme that fits is taken, so what a lexeme is may depend on what follows it. It does
not depend on more than where it ends: in front of blank space or a comma, or at the end of the
text, a lexeme is the same that was cut off in front of a blank, a line break, a comma, a comment or
an at-rule (`kindOf_of_ahead`). The exception is a `url(` without its closing parenthesis, which
goes on up to the end of its line.
-/

namespace StyleWeave.Lexeme

/-! ## Edges -/

/-- No lexeme but a string or a `url(...)` goes on with this text: it is at its end, or a blank, a
line break, a comma, a comment or an at-rule starts there. -/
def Edge (v : List Char) : Prop :=
  ∀ c, v.head? = some c → Text.isGap c = true ∨ c = '\n' ∨ c = ',' ∨ c = '/' ∨ c = '@'

/-- The text is at its end, or blank space or a comma starts there. -/
def Clear (v : List Char) : Prop :=
  ∀ c, v.head? = some c → Text.isGap c = true ∨ c = '\n' ∨ c = ','

/-- The text is at the end of a line. -/
def EndsLine (v : List Char) : Prop :=
  ∀ c, v.head? = some c → c = '\n'

variable {c d : Char} {v v' w r r' : List Char}

theorem Clear.edge (h : Clear v) : Edge v :=
  fun c hc => (h c hc).imp id fun hrest => hrest.imp id Or.inl

theorem EndsLine.clear (h : EndsLine v) : Clear v :=
  fun c hc => Or.inr (Or.inl (h c hc))

theorem endsLine_nil : EndsLine [] := by
  intro c hc
  cases hc

theorem endsLine_feed (v : List Char) : EndsLine ('\n' :: v) := by
  intro c hc
  exact (Option.some.inj hc).symm

theorem clear_gap (h : Text.isGap c = true) (v : List Char) : Clear (c :: v) := by
  intro d hd
  obtain rfl := Option.some.inj hd
  exact Or.inl h

theorem clear_comma (v : List Char) : Clear (',' :: v) := by
  intro d hd
  exact Or.inr (Or.inr (Option.some.inj hd).symm)

theorem edge_cases (h : Edge (c :: v)) :
    c = ' ' ∨ c = '\t' ∨ c = '\r' ∨ c = '\x0c' ∨ c = '\n' ∨ c = ',' ∨ c = '/' ∨ c = '@' := by
  rcases h c rfl with hgap | hrest
  · simp only [Text.isGap, Bool.or_eq_true, decide_eq_true_eq] at hgap
    rcases hgap with ((hc | hc) | hc) | hc <;> simp [hc]
  · rcases hrest with hc | hc | hc | hc <;> simp [hc]

/-- No character of the class starts an edge. -/
def Inner (p : Char → Bool) : Prop :=
  ∀ c v, Edge (c :: v) → p c = false

theorem Inner.of_all {p : Char → Bool}
    (h : [' ', '\t', '\r', '\x0c', '\n', ',', '/', '@'].all (fun c => !p c) = true) : Inner p := by
  intro c v hedge
  have hmem : c ∈ [' ', '\t', '\r', '\x0c', '\n', ',', '/', '@'] := by
    simpa using edge_cases hedge
  simpa using List.all_eq_true.1 h c hmem

theorem inner_isIdentChar : Inner isIdentChar :=
  .of_all (by decide)

theorem inner_isNameChar : Inner isNameChar :=
  .of_all (by decide)

theorem inner_isDigit : Inner Char.isDigit :=
  .of_all (by decide)

theorem inner_isUnitChar : Inner isUnitChar :=
  .of_all (by decide)

theorem Edge.takeWhile {p : Char → Bool} (h : Edge v) (hp : Inner p) : v.takeWhile p = [] := by
  cases v with
  | nil => rfl
  | cons c v => exact List.takeWhile_cons_of_neg (by simp [hp c v h])

/-- Two texts are alike up to an edge, where the second has blank space or a comma or ends. -/
inductive Ahead : List Char → List Char → Prop where
  | nil : Ahead [] []
  | cons (c : Char) {v v' : List Char} (others : Ahead v v') : Ahead (c :: v) (c :: v')
  | edge {v v' : List Char} (here : Edge v) (clear : Clear v') : Ahead v v'

theorem Ahead.refl (v : List Char) : Ahead v v := by
  induction v with
  | nil => exact .nil
  | cons c v ih => exact .cons c ih

theorem Ahead.append (h : Ahead v v') (u : List Char) : Ahead (u ++ v) (u ++ v') := by
  induction u with
  | nil => exact h
  | cons c u ih => exact .cons c ih

/-- A text that starts alike starts with the same character, or both are at an edge. -/
theorem Ahead.head_source (h : Ahead r (d :: w)) :
    (∃ w', r = d :: w' ∧ Ahead w' w) ∨ Edge r ∧ Clear (d :: w) := by
  cases h with
  | cons _ others => exact Or.inl ⟨_, rfl, others⟩
  | edge here clear => exact Or.inr ⟨here, clear⟩

theorem Edge.any_head? {p : Char → Bool} (h : Edge v) (hp : Inner p) : v.head?.any p = false := by
  cases v with
  | nil => rfl
  | cons c v => exact hp c v h

theorem Ahead.any_head? {p : Char → Bool} (h : Ahead v v') (hp : Inner p) :
    v'.head?.any p = v.head?.any p := by
  cases h with
  | nil | cons => rfl
  | edge here clear => rw [here.any_head? hp, clear.edge.any_head? hp]

theorem Ahead.takeWhile (h : Ahead v v') {p : Char → Bool} (hp : Inner p) :
    v'.takeWhile p = v.takeWhile p := by
  induction h with
  | nil => rfl
  | cons c _ ih => rw [List.takeWhile_cons, List.takeWhile_cons, ih]
  | edge here clear => rw [here.takeWhile hp, clear.edge.takeWhile hp]

theorem Ahead.drop_takeWhile (h : Ahead v v') {p : Char → Bool} (hp : Inner p) :
    Ahead (v.drop (v.takeWhile p).length) (v'.drop (v.takeWhile p).length) := by
  induction h with
  | nil => exact .nil
  | cons c others ih =>
    by_cases hc : p c = true
    · rw [List.takeWhile_cons_of_pos hc]
      exact ih
    · rw [List.takeWhile_cons_of_neg hc]
      exact .cons c others
  | edge here clear =>
    rw [here.takeWhile hp]
    exact .edge here clear

/-! ## Numbers -/

/-- How long the fraction of a number is that a text starts with, its point included. -/
def fraction : List Char → Nat
  | '.' :: ds =>
    match (ds.takeWhile Char.isDigit).length with
    | 0 => 0
    | n => n + 1
  | _ => 0

theorem numberTail_eq (cs : List Char) :
    numberTail cs =
      let rest := cs.drop (cs.takeWhile Char.isDigit).length
      (cs.takeWhile Char.isDigit).length + fraction rest +
        ((rest.drop (fraction rest)).takeWhile isUnitChar).length := by
  dsimp only
  rw [List.drop_drop]
  rfl

theorem fraction_of_ne (h : c ≠ '.') (v : List Char) : fraction (c :: v) = 0 := by
  unfold fraction
  split
  · next heq => exact absurd (List.cons.inj heq).1 h
  · rfl

theorem Edge.fraction (h : Edge v) : fraction v = 0 := by
  cases v with
  | nil => rfl
  | cons c v =>
    refine fraction_of_ne ?_ v
    rintro rfl
    rcases edge_cases h with hc | hc | hc | hc | hc | hc | hc | hc <;> cases hc

theorem fraction_of_ahead (h : Ahead v v') :
    fraction v' = fraction v ∧ Ahead (v.drop (fraction v)) (v'.drop (fraction v)) := by
  cases h with
  | nil => exact ⟨rfl, .nil⟩
  | @cons c ds ds' others =>
    by_cases hpoint : c = '.'
    · subst hpoint
      have hdigits := others.takeWhile inner_isDigit
      have hbehind := others.drop_takeWhile inner_isDigit
      have hfraction : ∀ x : List Char, fraction ('.' :: x) =
          match (x.takeWhile Char.isDigit).length with
          | 0 => 0
          | n => n + 1 := fun _ => rfl
      rw [hfraction, hfraction, hdigits]
      cases hn : (ds.takeWhile Char.isDigit).length with
      | zero => exact ⟨rfl, .cons '.' others⟩
      | succ n =>
        rw [hn] at hbehind
        exact ⟨rfl, hbehind⟩
    · rw [fraction_of_ne hpoint, fraction_of_ne hpoint]
      exact ⟨rfl, .cons c others⟩
  | edge here clear =>
    rw [here.fraction, clear.edge.fraction]
    exact ⟨rfl, .edge here clear⟩

theorem numberTail_of_ahead (h : Ahead v v') : numberTail v' = numberTail v := by
  have hwhole := h.takeWhile inner_isDigit
  have hrest := h.drop_takeWhile inner_isDigit
  obtain ⟨hfraction, hunit⟩ := fraction_of_ahead hrest
  have hunits := hunit.takeWhile inner_isUnitChar
  rw [numberTail_eq, numberTail_eq]
  dsimp only
  rw [hwhole, hfraction, hunits]

/-! ## Identifiers and `url(...)` -/

theorem urlInside_close (cs : List Char) : urlInside (')' :: cs) = (0, true) :=
  rfl

theorem urlInside_cons (hclose : c ≠ ')') (hfeed : c ≠ '\n') (cs : List Char) :
    urlInside (c :: cs) = ((urlInside cs).1 + 1, (urlInside cs).2) := by
  unfold urlInside
  dsimp only
  rw [List.takeWhile_cons_of_pos (by simp [hclose, hfeed]), List.length_cons, List.drop_succ_cons]

theorem EndsLine.urlInside (h : EndsLine v) : urlInside v = (0, false) := by
  cases v with
  | nil => rfl
  | cons c v =>
    obtain rfl := h c rfl
    rfl

/-- A `url(...)` whose inside is empty and not closed is at the end of its line. -/
theorem endsLine_of_urlInside (h : (urlInside v).1 + (urlInside v).2.toNat = 0) : EndsLine v := by
  cases v with
  | nil => exact endsLine_nil
  | cons c v =>
    by_cases hclose : c = ')'
    · subst hclose
      rw [urlInside_close] at h
      cases h
    · by_cases hfeed : c = '\n'
      · subst hfeed
        exact endsLine_feed v
      · rw [urlInside_cons hclose hfeed] at h
        dsimp only at h
        omega

/-- The inside of a `url(...)` that is taken up to its end does not depend on what follows, but
that it goes on up to the end of the line if the parenthesis is missing. -/
theorem urlInside_of_ahead {x : List Char}
    (hends : (urlInside (x ++ v)).2 = false → EndsLine v → EndsLine v')
    (hx : x.length = (urlInside (x ++ v)).1 + (urlInside (x ++ v)).2.toNat) :
    urlInside (x ++ v') = urlInside (x ++ v) := by
  induction x with
  | nil =>
    rw [List.nil_append] at hends hx
    have hline := endsLine_of_urlInside hx.symm
    rw [hline.urlInside] at hends
    exact (hends rfl hline).urlInside.trans hline.urlInside.symm
  | cons c x ih =>
    by_cases hclose : c = ')'
    · subst hclose
      rfl
    · by_cases hfeed : c = '\n'
      · subst hfeed
        cases hx
      · have hcons := urlInside_cons hclose hfeed
        rw [List.cons_append, hcons] at hends hx
        rw [List.length_cons] at hx
        rw [List.cons_append, List.cons_append, hcons, hcons, ih hends (by dsimp only at hx; omega)]

theorem identOf_of_not_paren {c : Char} {cs : List Char}
    (h : ∀ inside, cs.drop (cs.takeWhile isIdentChar).length ≠ '(' :: inside) :
    identOf c cs = (.ident (String.ofList (c :: cs.takeWhile isIdentChar)),
      (cs.takeWhile isIdentChar).length) := by
  unfold identOf
  dsimp only
  split
  · next inside heq => exact absurd heq (h inside)
  · rfl

theorem identOf_of_paren {c : Char} {cs inside : List Char}
    (h : cs.drop (cs.takeWhile isIdentChar).length = '(' :: inside) :
    identOf c cs =
      if String.ofList (c :: cs.takeWhile isIdentChar) = "url" then
        let stop := (cs.takeWhile isIdentChar).length + ((urlInside inside).1 + 1 +
          (urlInside inside).2.toNat)
        let text := String.ofList (c :: cs.take stop)
        (if (urlInside inside).2 then .url text else .punct text, stop)
      else (.ident (String.ofList (c :: cs.takeWhile isIdentChar)),
        (cs.takeWhile isIdentChar).length) := by
  unfold identOf
  dsimp only
  split
  · next inside' heq =>
    rw [h] at heq
    obtain rfl := (List.cons.inj heq).2
    cases (urlInside inside).2 <;> rfl
  · next hnot => exact absurd h (hnot inside)

/-- The token has the text of a `url(` without its closing parenthesis, or of a sign. -/
def IsPunct (t : Token) : Prop :=
  ∃ s, t = .punct s

theorem Edge.not_paren (h : Edge v) (inside : List Char) : v ≠ '(' :: inside := by
  rintro rfl
  rcases edge_cases h with hc | hc | hc | hc | hc | hc | hc | hc <;> cases hc

theorem identOf_of_ahead {c : Char} {u : List Char} (h : Ahead v v')
    (hends : IsPunct (identOf c (u ++ v)).1 → EndsLine v → EndsLine v')
    (hlength : (identOf c (u ++ v)).2 = u.length) : identOf c (u ++ v') = identOf c (u ++ v) := by
  have hmore := (h.append u).takeWhile inner_isIdentChar
  have hrest := (h.append u).drop_takeWhile inner_isIdentChar
  by_cases hparen : ∃ inside, (u ++ v).drop ((u ++ v).takeWhile isIdentChar).length = '(' :: inside
  · obtain ⟨w, hw⟩ := hparen
    rw [hw] at hrest
    generalize hd : (u ++ v').drop ((u ++ v).takeWhile isIdentChar).length = rest at hrest
    cases hrest with
    | @cons _ _ w' others =>
      rw [identOf_of_paren hw] at hlength hends ⊢
      rw [← hmore] at hd
      rw [identOf_of_paren hd, hmore]
      rw [hmore] at hd
      generalize (u ++ v).takeWhile isIdentChar = more at hlength hends hw hd ⊢
      by_cases hurl : String.ofList (c :: more) = "url"
      · rw [if_pos hurl] at hlength hends
        rw [if_pos hurl, if_pos hurl]
        dsimp only at hlength hends ⊢
        -- The parenthesis is part of the lexeme, and so is what is taken of its inside.
        have hle : more.length + 1 ≤ u.length := by omega
        have hinside : ∀ {y z : List Char}, (u ++ y).drop more.length = '(' :: z →
            z = u.drop (more.length + 1) ++ y := by
          intro y z hy
          have htail := congrArg (List.drop 1) hy
          rw [List.drop_drop, List.drop_append_of_le_length hle] at htail
          exact htail.symm
        have hx : (u.drop (more.length + 1)).length =
            (urlInside w).1 + (urlInside w).2.toNat := by
          rw [List.length_drop]
          omega
        have hopen : (urlInside w).2 = false → EndsLine v → EndsLine v' := by
          intro hopen
          rw [hopen] at hends
          exact hends ⟨_, rfl⟩
        have hsame : urlInside w' = urlInside w := by
          rw [hinside hw] at hx hopen ⊢
          rw [hinside hd]
          exact urlInside_of_ahead hopen hx
        rw [hsame, hlength, List.take_left' rfl, List.take_left' rfl]
      · rw [if_neg hurl, if_neg hurl]
    | edge here _ => exact absurd rfl (here.not_paren w)
  · have hnot : ∀ inside, (u ++ v).drop ((u ++ v).takeWhile isIdentChar).length ≠ '(' :: inside :=
      fun inside heq => hparen ⟨inside, heq⟩
    have hnot' : ∀ inside,
        (u ++ v').drop ((u ++ v').takeWhile isIdentChar).length ≠ '(' :: inside := by
      intro inside heq
      rw [hmore] at heq
      rw [heq] at hrest
      generalize (u ++ v).drop ((u ++ v).takeWhile isIdentChar).length = rest at hrest hnot
      cases hrest with
      | cons => exact hnot _ rfl
      | edge _ clear => exact absurd rfl (clear.edge.not_paren inside)
    rw [identOf_of_not_paren hnot, identOf_of_not_paren hnot', hmore]

/-! ## Strings -/

theorem stringTail_pos {quote : Char} {cs : List Char} {n : Nat}
    (h : stringTail quote cs = some n) : 0 < n := by
  unfold stringTail at h
  split at h
  · cases h
  · split at h
    · cases h
    · obtain ⟨m, -, rfl⟩ := Option.map_eq_some_iff.1 h
      omega
  · split at h
    · obtain rfl := Option.some.inj h
      omega
    · split at h
      · cases h
      · obtain ⟨m, -, rfl⟩ := Option.map_eq_some_iff.1 h
        omega

theorem stringTail_escape (quote c : Char) (cs : List Char) :
    stringTail quote ('\\' :: c :: cs) =
      if c = '\n' then none else (stringTail quote cs).map (· + 2) := rfl

theorem stringTail_plain {quote d : Char} (hd : d ≠ '\\') (cs : List Char) :
    stringTail quote (d :: cs) =
      if d = quote then some 1 else if d = '\n' then none
      else (stringTail quote cs).map (· + 1) := by
  rw [stringTail.eq_def]
  split
  · next heq => cases heq
  · next heq => exact absurd (List.cons.inj heq).1 hd
  · next heq =>
    obtain ⟨rfl, rfl⟩ := List.cons.inj heq
    simp [hd]

/-- Where a string ends does not depend on what follows it. -/
theorem stringTail_append {quote : Char} (hquote : quote ≠ '\\') {u v : List Char}
    (h : stringTail quote (u ++ v) = some u.length) (v' : List Char) :
    stringTail quote (u ++ v') = some u.length := by
  induction hlength : u.length using Nat.strongRecOn generalizing u with
  | ind length ih =>
    cases u with
    | nil => exact absurd (stringTail_pos h) (Nat.lt_irrefl 0)
    | cons d w =>
      subst hlength
      by_cases hd : d = '\\'
      · subst hd
        cases w with
        | nil =>
          exfalso
          cases v with
          | nil => simp [stringTail, hquote.symm] at h
          | cons c cs =>
            rw [List.singleton_append, stringTail_escape] at h
            split at h
            · cases h
            · obtain ⟨m, -, hm⟩ := Option.map_eq_some_iff.1 h
              simp at hm
        | cons e w =>
          rw [List.cons_append, List.cons_append, stringTail_escape] at h ⊢
          split at h
          · cases h
          · next he =>
            obtain ⟨m, hm, heq⟩ := Option.map_eq_some_iff.1 h
            obtain rfl : m = w.length := Nat.add_right_cancel heq
            have hshorter : w.length < ('\\' :: e :: w).length := by
              simp only [List.length_cons]
              omega
            rw [if_neg he, ih w.length hshorter hm rfl]
            rfl
      · rw [List.cons_append, stringTail_plain hd] at h ⊢
        by_cases hend : d = quote
        · rw [if_pos hend] at h ⊢
          exact h
        · rw [if_neg hend] at h ⊢
          split at h
          · cases h
          · next hfeed =>
            obtain ⟨m, hm, heq⟩ := Option.map_eq_some_iff.1 h
            obtain rfl : m = w.length := Nat.add_right_cancel heq
            rw [if_neg hfeed, ih w.length (Nat.lt_succ_self _) hm rfl]
            rfl

theorem kindOf_quote_of_ahead {u : List Char} {t : Token} (hquote : c = '"' ∨ c = '\'')
    (h : kindOf c (u ++ v) = (.token t, u.length)) (v' : List Char) :
    kindOf c (u ++ v') = (.token t, u.length) := by
  have hescape : c ≠ '\\' := by
    rcases hquote with rfl | rfl
    · decide
    · decide
  rw [kindOf_quote hquote] at h ⊢
  cases htail : stringTail c (u ++ v) with
  | none =>
    rw [htail] at h
    cases (Prod.mk.inj h).1
  | some n =>
    rw [htail] at h
    obtain ⟨htoken, rfl⟩ := Prod.mk.inj h
    have htake : ∀ w : List Char, (u ++ w).take (u.length - 1) = u.take (u.length - 1) :=
      fun w => List.take_append_of_le_length (Nat.sub_le _ _)
    rw [stringTail_append hescape htail]
    dsimp only
    rw [htake v] at htoken
    rw [htake v', htoken]

/-! ## All lexemes -/

theorem Clear.ne (h : Clear (c :: v)) : c ≠ '*' ∧ c ≠ '/' := by
  constructor
  · rintro rfl
    rcases h '*' rfl with hgap | hfeed | hcomma
    · exact absurd hgap (by decide)
    · cases hfeed
    · cases hcomma
  · rintro rfl
    rcases h '/' rfl with hgap | hfeed | hcomma
    · exact absurd hgap (by decide)
    · cases hfeed
    · cases hcomma

/-- No sign is the first character of something longer at an edge. -/
theorem pair_of_ahead {d : Char} (hpair : (c, d) ∈ pairs) (h : Ahead r r') :
    kindOf c r' = kindOf c r ∨ ∃ w w', r = d :: w ∧ r' = d :: w' := by
  have hinner : Inner (· == d) := by
    simp only [pairs, List.mem_cons, List.not_mem_nil, or_false, Prod.mk.injEq] at hpair
    rcases hpair with ⟨-, rfl⟩ | ⟨-, rfl⟩ | ⟨-, rfl⟩ <;> exact .of_all (by decide)
  have hsame := h.any_head? hinner
  have hhead : ∀ {cs : List Char}, cs.head?.any (· == d) = true → ∃ w, cs = d :: w := by
    intro cs hcs
    obtain ⟨e, he, heq⟩ := (Option.any_eq_true _ _).1 hcs
    obtain ⟨w, rfl⟩ := List.head?_eq_some_iff.1 he
    exact ⟨w, by rw [eq_of_beq heq]⟩
  by_cases hnext : r.head?.any (· == d) = true
  · obtain ⟨w, hw⟩ := hhead hnext
    obtain ⟨w', hw'⟩ := hhead (hsame.trans hnext)
    exact Or.inr ⟨w, w', hw, hw'⟩
  · left
    rw [kindOf_of_next hpair hnext, kindOf_of_next hpair (by rwa [hsame])]

/-- What starts with a sign is the same in front of blank space or a comma, if it has an end. -/
theorem kindOf_sign_of_ahead {t : Token} {n : Nat} (h : Ahead r r')
    (hident : ¬ isIdentStart c = true) (hdigit : ¬ c.isDigit = true)
    (hquote : ¬ (c = '"' ∨ c = '\'')) (hkind : kindOf c r = (.token t, n)) :
    kindOf c r' = (.token t, n) := by
  rw [← hkind]
  by_cases hsign : c ∈ ['"', '\'', '@', '-', '/', '?', ':']
  · simp only [List.mem_cons, List.not_mem_nil, or_false] at hsign
    rcases hsign with hc | hc | rfl | rfl | rfl | rfl | rfl
    · exact absurd (Or.inl hc) hquote
    · exact absurd (Or.inr hc) hquote
    · rw [kindOf_at, kindOf_at, h.takeWhile inner_isNameChar, h.any_head? (.of_all (by decide))]
    · rw [kindOf_dash, kindOf_dash, h.takeWhile inner_isIdentChar,
        h.any_head? (.of_all (by decide))]
    · rcases pair_of_ahead (show ('/', '*') ∈ pairs by decide) h with hsame | ⟨w, w', rfl, rfl⟩
      · exact hsame
      · cases (Prod.mk.inj hkind).1
    · rcases pair_of_ahead (show ('?', '=') ∈ pairs by decide) h with hsame | ⟨w, w', rfl, rfl⟩
      · exact hsame
      · rfl
    · rcases pair_of_ahead (show (':', '=') ∈ pairs by decide) h with hsame | ⟨w, w', rfl, rfl⟩
      · exact hsame
      · rfl
  · rw [kindOf_of_sign hident hdigit hsign r, kindOf_of_sign hident hdigit hsign r']

/-- A lexeme in front of an edge is the same in front of blank space or a comma. -/
theorem kindOf_of_ahead {u : List Char} {t : Token} (h : Ahead v v')
    (hends : isIdentStart c = true → IsPunct t → EndsLine v → EndsLine v')
    (hkind : kindOf c (u ++ v) = (.token t, u.length)) :
    kindOf c (u ++ v') = (.token t, u.length) := by
  have hwhole := h.append u
  by_cases hident : isIdentStart c = true
  · rw [kindOf_ident hident] at hkind ⊢
    have htoken : (identOf c (u ++ v)).1 = t := Kind.token.inj (Prod.mk.inj hkind).1
    have hlength : (identOf c (u ++ v)).2 = u.length := (Prod.mk.inj hkind).2
    rw [identOf_of_ahead h (htoken ▸ hends hident) hlength]
    exact hkind
  · by_cases hdigit : c.isDigit = true
    · rw [kindOf_digit hident hdigit] at hkind ⊢
      have hlength : numberTail (u ++ v) = u.length := (Prod.mk.inj hkind).2
      rw [hlength, List.take_left' rfl] at hkind
      rw [numberTail_of_ahead hwhole, hlength, List.take_left' rfl]
      exact hkind
    · by_cases hquote : c = '"' ∨ c = '\''
      · exact kindOf_quote_of_ahead hquote hkind v'
      · exact kindOf_sign_of_ahead hwhole hident hdigit hquote hkind

/-- No comment starts in front of blank space or a comma where none did. -/
theorem commentRest_of_ahead (h : Ahead r r')
    (hcomment : commentRest (c :: r) = none) {t : Token} {n : Nat}
    (hkind : kindOf c r = (.token t, n)) : commentRest (c :: r') = none := by
  refine commentRest_eq_none.2 fun n hstarts => ?_
  cases hstarts with
  | line =>
    rcases h.head_source with ⟨w, rfl, -⟩ | ⟨-, hclear⟩
    · cases hcomment
    · exact absurd rfl hclear.ne.2
  | block =>
    rcases h.head_source with ⟨w, rfl, -⟩ | ⟨-, hclear⟩
    · cases (Prod.mk.inj hkind).1
    · exact absurd rfl hclear.ne.1

end StyleWeave.Lexeme
