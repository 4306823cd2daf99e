import StyleWeave.Proofs.Text.LineEnds
import StyleWeave.Proofs.Token.Breaking
import StyleWeave.Proofs.Token.Comments
import StyleWeave.Proofs.Token.Extent

/-!
# Lexemes of a text with carriage returns

The carriage return in front of a line feed is a blank, so a text with carriage returns has the same
lexemes as without them, and longer gaps (`relined_ofText`). Two lexemes go on to the end of their
line and take the carriage return with them: a line comment, which is part of a gap, and a `url(`
without its closing parenthesis.
-/

namespace StyleWeave

open Text (crlf crlf_append crlf_cons crlf_feed crlf_nil crlf_of_no_feed)

namespace Lexeme

variable {c : Char} {cs rest : List Char}

/-! ## Comments -/

theorem head?_crlf {d : Char} (hd : d ≠ '\r') (h : (crlf cs).head? = some d) :
    cs.head? = some d := by
  cases cs with
  | nil => exact h
  | cons c cs =>
    by_cases hc : c = '\n'
    · subst hc
      rw [crlf_feed] at h
      exact absurd (Option.some.inj h).symm hd
    · rw [crlf_cons hc] at h
      exact h

/-- Behind the start of a block comment, the end of it is where it was. -/
theorem commentTail_crlf (cs : List Char) :
    commentTail (crlf cs) = (commentTail cs).map fun n => (crlf (cs.take n)).length := by
  induction cs with
  | nil => rfl
  | cons c cs ih =>
    by_cases hfeed : c = '\n'
    · subst hfeed
      have hnot : ∀ ds : List Char, '\n' = '*' → ds.head? ≠ some '/' := by
        intro ds heq
        cases heq
      have hnot' : '\r' = '*' → ('\n' :: crlf cs).head? ≠ some '/' := by
        intro heq
        cases heq
      rw [crlf_feed, commentTail_cons hnot', commentTail_cons (hnot _), ih,
        commentTail_cons (hnot cs)]
      cases commentTail cs with
      | none => rfl
      | some n => rfl
    · by_cases hends : c = '*' ∧ cs.head? = some '/'
      · obtain ⟨rfl, hslash⟩ := hends
        obtain ⟨cs, rfl⟩ := List.head?_eq_some_iff.1 hslash
        rfl
      · have hopen : c = '*' → cs.head? ≠ some '/' := fun hc hslash => hends ⟨hc, hslash⟩
        have hopen' : c = '*' → (crlf cs).head? ≠ some '/' :=
          fun hc hslash => hopen hc (head?_crlf (by decide) hslash)
        rw [crlf_cons hfeed, commentTail_cons hopen', commentTail_cons hopen, ih]
        cases commentTail cs with
        | none => rfl
        | some n =>
          show some ((crlf (cs.take n)).length + 1) = some (crlf (c :: cs.take n)).length
          rw [crlf_cons hfeed, List.length_cons]

theorem drop_crlf (cs : List Char) (n : Nat) :
    (crlf cs).drop (crlf (cs.take n)).length = crlf (cs.drop n) := by
  have hsplit : crlf cs = crlf (cs.take n) ++ crlf (cs.drop n) := by
    rw [← crlf_append, List.take_append_drop]
  rw [hsplit, List.drop_left' rfl]

theorem take_crlf (cs : List Char) (n : Nat) :
    (crlf cs).take (crlf (cs.take n)).length = crlf (cs.take n) := by
  have hsplit : crlf cs = crlf (cs.take n) ++ crlf (cs.drop n) := by
    rw [← crlf_append, List.take_append_drop]
  rw [hsplit, List.take_left' rfl]

/-- A text up to the end of its first line, with what is behind it. -/
theorem line_cases (cs : List Char) :
    '\n' ∉ cs ∨ ∃ line behind, cs = line ++ '\n' :: behind ∧ '\n' ∉ line := by
  by_cases h : '\n' ∈ cs
  · obtain ⟨line, behind, hcs, hline⟩ := List.eq_append_cons_of_mem h
    exact Or.inr ⟨line, behind, hcs, hline⟩
  · exact Or.inl h

/-- A comment is the same with carriage returns, or it is a line comment and takes the carriage
return at the end of its line with it. -/
theorem commentRest_crlf {n : Nat} (h : commentRest (c :: rest) = some n) :
    commentRest (c :: crlf rest) = some (crlf (rest.take n)).length ∨
      ∃ behind, rest.drop n = '\n' :: behind ∧ '\n' ∉ rest.take n ∧
        commentRest (c :: crlf rest) = some ((rest.take n).length + 1) := by
  cases commentRest_eq_some.1 h with
  | line cs =>
    have hcomment : ∀ ds : List Char, commentRest ('/' :: '/' :: ds) =
        some ((ds.takeWhile (· != '\n')).length + 1) := fun _ => rfl
    rw [crlf_cons (by decide), hcomment]
    rcases line_cases cs with hfeed | ⟨line, behind, rfl, hfeed⟩
    · left
      have hall := takeWhile_line hfeed endsLine_nil
      rw [List.append_nil] at hall
      rw [crlf_of_no_feed hfeed, hall, List.take_succ_cons, List.take_length,
        crlf_cons (by decide), crlf_of_no_feed hfeed]
      rfl
    · right
      have hline := takeWhile_line hfeed (endsLine_feed behind)
      have hreturn : '\n' ∉ line ++ ['\r'] := by
        rw [List.mem_append, not_or]
        exact ⟨hfeed, by decide⟩
      have hline' := takeWhile_line hreturn (endsLine_feed (crlf behind))
      rw [List.append_assoc] at hline'
      rw [hline, crlf_append, crlf_of_no_feed hfeed, crlf_feed]
      refine ⟨behind, ?_, ?_, ?_⟩
      · rw [List.drop_succ_cons, List.drop_left' rfl]
      · rw [List.take_succ_cons, List.take_left' rfl, List.mem_cons, not_or]
        exact ⟨by decide, hfeed⟩
      · rw [List.take_succ_cons, List.take_left' rfl]
        refine (congrArg (fun line : List Char => some (line.length + 1)) hline').trans ?_
        rw [List.length_append, List.length_cons]
        rfl
  | @block cs _ tail =>
    left
    have hcomment : ∀ ds : List Char, commentRest ('/' :: '*' :: ds) =
        (commentTail ds).map (· + 1) := fun _ => rfl
    rw [crlf_cons (by decide), hcomment, commentTail_crlf, tail, List.take_succ_cons,
      crlf_cons (by decide)]
    rfl

/-- No comment starts where none did. -/
theorem commentRest_crlf_none (h : commentRest (c :: rest) = none) :
    commentRest (c :: crlf rest) = none := by
  refine commentRest_eq_none.2 fun n hstarts => ?_
  have hhead : ∀ {d : Char} {ds : List Char}, d ≠ '\r' → crlf rest = d :: ds →
      ∃ rest', rest = d :: rest' ∧ ds = crlf rest' := by
    intro d ds hd heq
    obtain ⟨rest', rfl⟩ := List.head?_eq_some_iff.1 (head?_crlf hd (by rw [heq]; rfl))
    by_cases hfeed : d = '\n'
    · subst hfeed
      exact absurd (List.cons.inj heq).1.symm hd
    · rw [crlf_cons hfeed] at heq
      exact ⟨rest', rfl, (List.cons.inj heq).2.symm⟩
  generalize hmore : crlf rest = more at hstarts
  cases hstarts with
  | line =>
    obtain ⟨rest', rfl, -⟩ := hhead (by decide) hmore
    cases h
  | block tail =>
    obtain ⟨rest', rfl, rfl⟩ := hhead (by decide) hmore
    rw [commentTail_crlf] at tail
    obtain ⟨m, hm, -⟩ := Option.map_eq_some_iff.1 tail
    exact commentRest_eq_none.1 h _ (.block hm)

/-! ## Lexemes without end -/

theorem stringTail_crlf {quote : Char} (hfeed : quote ≠ '\n') (hreturn : quote ≠ '\r')
    (h : stringTail quote cs = none) : stringTail quote (crlf cs) = none := by
  have hend : ∀ ds, stringTail quote ('\n' :: ds) = none := by
    intro ds
    rw [stringTail_plain (by decide), if_neg hfeed.symm, if_pos rfl]
  have hreturned : ∀ ds, stringTail quote ('\r' :: '\n' :: ds) = none := by
    intro ds
    rw [stringTail_plain (by decide), if_neg hreturn.symm, if_neg (by decide), hend]
    rfl
  induction hlength : cs.length using Nat.strongRecOn generalizing cs with
  | ind length ih =>
    cases cs with
    | nil => exact h
    | cons d cs =>
      subst hlength
      by_cases hd : d = '\n'
      · subst hd
        exact hreturned _
      · rw [crlf_cons hd]
        by_cases hescape : d = '\\'
        · subst hescape
          cases cs with
          | nil => exact h
          | cons e cs =>
            by_cases he : e = '\n'
            · subst he
              rw [crlf_feed, stringTail_escape, if_neg (by decide), hend]
              rfl
            · rw [stringTail_escape, if_neg he, Option.map_eq_none_iff] at h
              rw [crlf_cons he, stringTail_escape, if_neg he, ih cs.length ?_ h rfl]
              · rfl
              · simp only [List.length_cons]
                omega
        · rw [stringTail_plain hescape, if_neg hd] at h ⊢
          by_cases hquote : d = quote
          · rw [if_pos hquote] at h
            cases h
          · rw [if_neg hquote, Option.map_eq_none_iff] at h
            rw [if_neg hquote, ih cs.length (Nat.lt_succ_self _) h rfl]
            rfl

/-- A string or comment without end has none with carriage returns. -/
theorem kindOf_crlf_open (h : ∀ t, (kindOf c rest).1 ≠ .token t) :
    (kindOf c (crlf rest)).1 = (kindOf c rest).1 := by
  cases hkind : (kindOf c rest).1 with
  | token t => exact absurd hkind (h t)
  | openString =>
    obtain ⟨hquote, htail⟩ := kindOf_openString hkind
    have hplain : c ≠ '\n' ∧ c ≠ '\r' := by
      rcases hquote with rfl | rfl
      · decide
      · decide
    rw [kindOf_quote hquote, stringTail_crlf hplain.1 hplain.2 htail]
  | openComment =>
    obtain ⟨rfl, inside, rfl⟩ := kindOf_openComment hkind
    rw [crlf_cons (by decide)]
    rfl

/-! ## Whole texts -/

/-- Lexemes of a text and of the text with carriage returns. Behind a string or a comment without
end, nothing is said. -/
inductive Relined : List Lexeme → List Lexeme → Prop where
  | nil : Relined [] []
  | broken {gap text text' : List Char} {kind : Kind} {ls ls' : List Lexeme}
      (kind_ne : ∀ t, kind ≠ .token t) :
      Relined (⟨gap, kind, text⟩ :: ls) (⟨crlf gap, kind, text'⟩ :: ls')
  | token {gap text : List Char} {t : Token} {ls ls' : List Lexeme} (ne : t ≠ .newline)
      (others : Relined ls ls') :
      Relined (⟨gap, .token t, text⟩ :: ls) (⟨crlf gap, .token t, text⟩ :: ls')
  | openUrl {gap text : List Char} {s s' : String} {ls ls' : List Lexeme}
      (others : Relined ls ls') :
      Relined (⟨gap, .token (.punct s), text⟩ :: ⟨[], .token .newline, ['\n']⟩ :: ls)
        (⟨crlf gap, .token (.punct s'), text ++ ['\r']⟩ :: ⟨[], .token .newline, ['\n']⟩ :: ls')
  | feed {gap : List Char} {ls ls' : List Lexeme} (others : Relined ls ls') :
      Relined (⟨gap, .token .newline, ['\n']⟩ :: ls)
        (⟨crlf gap ++ ['\r'], .token .newline, ['\n']⟩ :: ls')

theorem ahead_crlf (cs : List Char) : Ahead cs (crlf cs) := by
  induction cs with
  | nil => exact .nil
  | cons c cs ih =>
    by_cases hc : c = '\n'
    · subst hc
      exact .edge (endsLine_feed cs).clear.edge (clear_gap (by decide) _)
    · rw [crlf_cons hc]
      exact .cons c ih

theorem ofText_feed (cs : List Char) :
    ofText ('\n' :: cs) = ⟨[], .token .newline, ['\n']⟩ :: ofText cs := by
  rw [ofText_lexeme (by decide) rfl, kindOf_feed]
  rfl

/-- A lexeme other than a `url(` without its parenthesis is the same with carriage returns. -/
theorem ofText_crlf_token {t : Token} (hgap : Text.isGap c = false)
    (hcomment : commentRest (c :: rest) = none) (hkind : (kindOf c rest).1 = .token t)
    (hopen : ¬ OpenUrl c rest) :
    ofText (c :: crlf rest) = ⟨[], .token t, c :: rest.take (kindOf c rest).2⟩ ::
      ofText (crlf (rest.drop (kindOf c rest).2)) := by
  have hwhole : kindOf c rest = (.token t, (kindOf c rest).2) := Prod.ext hkind rfl
  obtain ⟨hle, hfeed⟩ := oneLine_kindOf hwhole
  have hpunct := (whole_kindOf hwhole hopen).2
  generalize (kindOf c rest).2 = n at hwhole hle hfeed ⊢
  have hsplit : kindOf c (rest.take n ++ rest.drop n) = (.token t, (rest.take n).length) := by
    rw [List.take_append_drop, List.length_take_of_le hle, hwhole]
  have hsame := kindOf_of_ahead (ahead_crlf (rest.drop n))
    (fun hstart hp => absurd hp (hpunct hstart)) hsplit
  have hcrlf : crlf rest = rest.take n ++ crlf (rest.drop n) := by
    conv => lhs; rw [← List.take_append_drop n rest]
    rw [crlf_append, crlf_of_no_feed hfeed]
  rw [ofText_lexeme hgap (commentRest_crlf_none hcomment), hcrlf, hsame]
  dsimp only
  rw [List.take_left' rfl, List.drop_left' rfl]

/-- A `url(` without its parenthesis is the rest of its line. -/
theorem ofText_openUrl {line behind : List Char} (hopen : OpenUrl c (line ++ behind))
    (hline : '\n' ∉ line) (hbehind : EndsLine behind) :
    ofText (c :: (line ++ behind)) =
      ⟨[], .token (.punct (String.ofList (c :: line))), c :: line⟩ :: ofText behind := by
  have hkind := kindOf_openUrl hopen
  rw [takeWhile_line hline hbehind] at hkind
  obtain ⟨-, -, -, hstart, -⟩ := hopen
  obtain ⟨hgap, hslash⟩ := not_isGap_of_isIdentStart hstart
  rw [ofText_lexeme hgap (commentRest_of_ne hslash _), hkind]
  dsimp only
  rw [List.take_left' rfl, List.drop_left' rfl]

/-- Texts of at most this length have the same lexemes with carriage returns. -/
def RelinesUpTo (n : Nat) : Prop :=
  ∀ cs : List Char, cs.length ≤ n → ∀ gap,
    Relined (behind gap (ofText cs)) (behind (crlf gap) (ofText (crlf cs)))

theorem RelinesUpTo.relined {n : Nat} {cs : List Char} (h : RelinesUpTo n) (hle : cs.length ≤ n) :
    Relined (ofText cs) (ofText (crlf cs)) := by
  have hnone := h cs hle []
  rwa [behind_nil, crlf_nil, behind_nil] at hnone

section

variable (hmore : RelinesUpTo rest.length) (hgap : Text.isGap c = false)

include hmore hgap

/-- A line comment takes the carriage return at its end. -/
theorem relined_comment (hfeed : c ≠ '\n') {n : Nat} (hcomment : commentRest (c :: rest) = some n)
    (gap : List Char) :
    Relined (behind gap (ofText (c :: rest))) (behind (crlf gap) (ofText (c :: crlf rest))) := by
  have hdrop : (rest.drop n).length ≤ rest.length := by
    rw [List.length_drop]
    omega
  rw [ofText_comment hgap hcomment, behind_behind]
  rcases commentRest_crlf hcomment with hsame | ⟨after, hafter, hline, hlonger⟩
  · have hnext := hmore (rest.drop n) hdrop (gap ++ c :: rest.take n)
    rw [crlf_append, crlf_cons hfeed] at hnext
    rw [ofText_comment hgap hsame, behind_behind, take_crlf, drop_crlf]
    exact hnext
  · have hcrlf : crlf rest = (rest.take n ++ ['\r']) ++ '\n' :: crlf after := by
      conv => lhs; rw [← List.take_append_drop n rest, hafter]
      rw [crlf_append, crlf_of_no_feed hline, crlf_feed, List.append_assoc]
      rfl
    have hlength : (rest.take n).length + 1 = (rest.take n ++ ['\r']).length := by
      rw [List.length_append, List.length_singleton]
    have hshorter : after.length ≤ rest.length := by
      rw [hafter, List.length_cons] at hdrop
      omega
    have hlonger' : crlf gap ++ c :: (rest.take n ++ ['\r']) =
        crlf (gap ++ c :: rest.take n) ++ ['\r'] := by
      rw [crlf_append, crlf_cons hfeed, crlf_of_no_feed hline, List.append_assoc]
      rfl
    rw [ofText_comment hgap hlonger, behind_behind, hcrlf, hlength, List.take_left' rfl,
      List.drop_left' rfl, hafter, ofText_feed, ofText_feed, behind, behind, List.append_nil,
      List.append_nil, hlonger']
    exact .feed (hmore.relined hshorter)

omit hgap in
/-- A `url(` without its parenthesis takes the carriage return at the end of its line. -/
theorem relined_openUrl (hopen : OpenUrl c rest) (gap : List Char) :
    Relined (behind gap (ofText (c :: rest))) (behind (crlf gap) (ofText (c :: crlf rest))) := by
  rcases line_cases rest with hnone | ⟨line, after, rfl, hline⟩
  · have hopen' : OpenUrl c (rest ++ []) := by rwa [List.append_nil]
    have hlast := ofText_openUrl hopen' hnone endsLine_nil
    rw [List.append_nil, ofText_nil] at hlast
    rw [crlf_of_no_feed hnone, hlast, behind, behind, List.append_nil, List.append_nil]
    exact .token (by simp) .nil
  · have hreturn : '\n' ∉ line ++ ['\r'] := by
      rw [List.mem_append, not_or]
      exact ⟨hline, by decide⟩
    have hopen' : OpenUrl c ((line ++ ['\r']) ++ '\n' :: crlf after) := by
      rw [List.append_assoc]
      refine OpenUrl.reline (b := []) hopen hline (by simp) ?_ (endsLine_feed after)
        (endsLine_feed _)
      intro d hd
      rw [List.mem_singleton.1 hd]
      decide
    have hcrlf : crlf (line ++ '\n' :: after) = (line ++ ['\r']) ++ '\n' :: crlf after := by
      rw [crlf_append, crlf_of_no_feed hline, crlf_feed, List.append_assoc]
      rfl
    have hshorter : after.length ≤ (line ++ '\n' :: after).length := by
      rw [List.length_append, List.length_cons]
      omega
    rw [hcrlf, ofText_openUrl hopen hline (endsLine_feed after),
      ofText_openUrl hopen' hreturn (endsLine_feed _), ofText_feed, ofText_feed, behind, behind,
      List.append_nil, List.append_nil]
    have hline' : c :: (line ++ ['\r']) = (c :: line) ++ ['\r'] := rfl
    rw [hline']
    exact .openUrl (hmore.relined hshorter)

theorem relined_lexeme (hfeed : c ≠ '\n') (hcomment : commentRest (c :: rest) = none)
    (hopen : ¬ OpenUrl c rest) (gap : List Char) :
    Relined (behind gap (ofText (c :: rest))) (behind (crlf gap) (ofText (c :: crlf rest))) := by
  by_cases htoken : ∃ t, (kindOf c rest).1 = .token t
  · obtain ⟨t, hkind⟩ := htoken
    rw [ofText_lexeme hgap hcomment, ofText_crlf_token hgap hcomment hkind hopen, hkind, behind,
      behind, List.append_nil, List.append_nil]
    refine .token ?_ (hmore.relined (by rw [List.length_drop]; omega))
    rintro rfl
    exact hfeed (kindOf_newline hkind)
  · have hbroken : ∀ t, (kindOf c rest).1 ≠ .token t := fun t hkind => htoken ⟨t, hkind⟩
    rw [ofText_lexeme hgap hcomment, ofText_lexeme hgap (commentRest_crlf_none hcomment),
      kindOf_crlf_open hbroken, behind, behind, List.append_nil, List.append_nil]
    exact .broken hbroken

end

theorem relinesUpTo (n : Nat) : RelinesUpTo n := by
  induction n with
  | zero =>
    intro cs hle gap
    obtain rfl := List.length_eq_zero_iff.1 (Nat.le_zero.1 hle)
    rw [crlf_nil, ofText_nil]
    exact .nil
  | succ n ih =>
    intro cs hle gap
    cases cs with
    | nil =>
      rw [crlf_nil, ofText_nil]
      exact .nil
    | cons c rest =>
      have hrest : rest.length ≤ n := Nat.le_of_succ_le_succ hle
      have hmore : RelinesUpTo rest.length := fun ds hds => ih ds (Nat.le_trans hds hrest)
      by_cases hfeed : c = '\n'
      · subst hfeed
        have hreturn : Text.isGap '\r' = true := rfl
        rw [crlf_feed, ofText_gap hreturn, ofText_feed, ofText_feed, behind_behind]
        rw [behind, behind, List.append_nil, List.append_nil]
        exact .feed (ih.relined hrest)
      · rw [crlf_cons hfeed]
        cases hgap : Text.isGap c with
        | true =>
          have hnext := ih rest hrest (gap ++ [c])
          rw [crlf_append, crlf_cons hfeed, crlf_nil] at hnext
          rw [ofText_gap hgap, ofText_gap hgap, behind_behind, behind_behind]
          exact hnext
        | false =>
          cases hcomment : commentRest (c :: rest) with
          | some n => exact relined_comment hmore hgap hfeed hcomment gap
          | none =>
            by_cases hopen : OpenUrl c rest
            · exact relined_openUrl hmore hopen gap
            · exact relined_lexeme hmore hgap hfeed hcomment hopen gap

/-- With carriage returns in front of its line feeds, a text has the same lexemes. -/
theorem relined_ofText (cs : List Char) : Relined (ofText cs) (ofText (crlf cs)) :=
  (relinesUpTo cs.length).relined (Nat.le_refl _)

end Lexeme

end StyleWeave
