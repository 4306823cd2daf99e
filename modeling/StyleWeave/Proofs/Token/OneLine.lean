import StyleWeave.Proofs.Token.Places

/-!
# Tokens on one line

No string, number or `url(...)` goes over a line break, so no text of a token holds a line feed
(`oneLine_of_tokenize`).
-/

namespace StyleWeave

/-- The text has no line feed. -/
def OneLine (s : String) : Prop :=
  '\n' ∉ s.toList

instance : DecidablePred OneLine :=
  fun s => inferInstanceAs (Decidable ('\n' ∉ s.toList))

theorem oneLine_ofList {cs : List Char} : OneLine (String.ofList cs) ↔ '\n' ∉ cs := by
  rw [OneLine, String.toList_ofList]

theorem OneLine.append {s t : String} (hs : OneLine s) (ht : OneLine t) : OneLine (s ++ t) := by
  rw [OneLine, String.toList_append, List.mem_append]
  rintro (h | h)
  · exact hs h
  · exact ht h

/-- The text that the token stands for has no line feed. -/
def Token.OneLine : Token → Prop
  | .string s | .number s | .url s => StyleWeave.OneLine s
  | _ => True

namespace Lexeme

theorem no_feed_of_takeWhile {p : Char → Bool} {cs : List Char} (h : p '\n' = false) :
    '\n' ∉ cs.takeWhile p := by
  intro hm
  have hp := List.all_eq_true.1 (List.all_takeWhile (l := cs)) '\n' hm
  rw [h] at hp
  cases hp

theorem no_feed_of_stringTail {quote : Char} {cs : List Char} {n : Nat}
    (h : stringTail quote cs = some n) : 0 < n ∧ '\n' ∉ cs.take (n - 1) := by
  induction cs using stringTail.induct quote generalizing n with
  | case1 => simp [stringTail] at h
  | case2 cs => simp [stringTail] at h
  | case3 c cs hc ih =>
    simp only [stringTail, hc, if_false, Option.map_eq_some_iff] at h
    obtain ⟨m, hm, rfl⟩ := h
    obtain ⟨hpos, hrest⟩ := ih hm
    have hm' : m + 2 - 1 = (m - 1) + 1 + 1 := by omega
    refine ⟨by omega, ?_⟩
    rw [hm', List.take_succ_cons, List.take_succ_cons, List.mem_cons, List.mem_cons]
    rintro (hfeed | hfeed | hfeed)
    · cases hfeed
    · exact hc hfeed.symm
    · exact hrest hfeed
  | case4 cs hcs =>
    have hone : n = 1 := by simpa [stringTail, eq_comm] using h
    subst hone
    exact ⟨Nat.one_pos, by simp⟩
  | case5 c cs hcs hquote hbad => simp [stringTail, hquote, hbad] at h
  | case6 c cs hcs hquote hok ih =>
    simp only [stringTail, hquote, hok, Bool.false_eq_true, if_false,
      Option.map_eq_some_iff] at h
    obtain ⟨m, hm, rfl⟩ := h
    obtain ⟨hpos, hrest⟩ := ih hm
    have hm' : m + 1 - 1 = (m - 1) + 1 := by omega
    refine ⟨by omega, ?_⟩
    rw [hm', List.take_succ_cons, List.mem_cons]
    rintro (hfeed | hfeed)
    · exact hok (by simp [← hfeed])
    · exact hrest hfeed

theorem unescape_subset (cs : List Char) : unescape cs ⊆ cs := by
  induction cs using unescape.induct with
  | case1 c cs ih =>
    intro d hd
    rcases List.mem_cons.1 hd with rfl | hd
    · exact List.mem_cons_of_mem _ List.mem_cons_self
    · exact List.mem_cons_of_mem _ (List.mem_cons_of_mem _ (ih hd))
  | case2 => exact List.nil_subset _
  | case3 c cs hc hcs ih =>
    intro d hd
    simp only [unescape, List.mem_cons] at hd
    rcases hd with rfl | hd
    · exact List.mem_cons_self
    · exact List.mem_cons_of_mem _ (ih hd)
  | case4 => exact List.Subset.refl _

theorem no_feed_of_numberTail (cs : List Char) : '\n' ∉ cs.take (numberTail cs) := by
  -- A number is its digits, a fraction and a unit, in this order.
  have hdigits : ∀ ds : List Char, '\n' ∉ ds.take (ds.takeWhile Char.isDigit).length := by
    intro ds
    rw [← List.prefix_iff_eq_take.1 (List.takeWhile_prefix _)]
    exact no_feed_of_takeWhile (by decide)
  unfold numberTail
  dsimp only
  rw [List.take_add, List.take_add, List.mem_append, List.mem_append]
  rintro ((hfeed | hfeed) | hfeed)
  · exact hdigits cs hfeed
  · split at hfeed
    · next ds hds =>
      split at hfeed
      · simp at hfeed
      · next n hn =>
        rw [hds, List.take_succ_cons, List.mem_cons] at hfeed
        rcases hfeed with hfeed | hfeed
        · cases hfeed
        · exact hdigits ds hfeed
    · simp at hfeed
  · rw [← List.prefix_iff_eq_take.1 (List.takeWhile_prefix _)] at hfeed
    exact no_feed_of_takeWhile (by decide) hfeed

theorem ne_feed_of_isIdentStart {c : Char} (h : isIdentStart c = true) : c ≠ '\n' := by
  rintro rfl
  exact absurd h (by decide)

theorem oneLine_of_identOf {c : Char} {cs : List Char} (hc : isIdentStart c = true) :
    (identOf c cs).1.OneLine := by
  have hmore : '\n' ∉ cs.takeWhile isIdentChar := no_feed_of_takeWhile (by decide)
  unfold identOf
  dsimp only
  split
  · next inside hinside =>
    split
    · split
      · next hclosed =>
        -- The whole of the text is the name, the parentheses and what is between them.
        have hlength : (cs.takeWhile isIdentChar).length + ((urlInside inside).1 + 2) =
            (cs.takeWhile isIdentChar).length + (((urlInside inside).1 + 1) + 1) := rfl
        have hinside' : '\n' ∉ inside.take ((urlInside inside).1 + 1) := by
          have hbody : inside.take (urlInside inside).1 =
              inside.takeWhile (fun d => d != ')' && d != '\n') :=
            (List.prefix_iff_eq_take.1 (List.takeWhile_prefix _)).symm
          have hnext : (inside.drop (urlInside inside).1).head? = some ')' := by
            simpa [urlInside] using hclosed
          obtain ⟨rest, hrest⟩ := List.head?_eq_some_iff.1 hnext
          rw [List.take_add, hbody, hrest, List.mem_append]
          rintro (hfeed | hfeed)
          · exact no_feed_of_takeWhile (by decide) hfeed
          · rw [List.take_succ_cons, List.take_zero, List.mem_singleton] at hfeed
            cases hfeed
        show StyleWeave.OneLine (String.ofList (c :: cs.take _))
        rw [oneLine_ofList, List.mem_cons]
        rintro (hfeed | hfeed)
        · exact ne_feed_of_isIdentStart hc hfeed.symm
        · rw [hlength, List.take_add, List.mem_append, hinside, List.take_succ_cons,
            List.mem_cons, ← List.prefix_iff_eq_take.1 (List.takeWhile_prefix _)] at hfeed
          rcases hfeed with hfeed | hfeed | hfeed
          · exact hmore hfeed
          · cases hfeed
          · exact hinside' hfeed
      · trivial
    · trivial
  · trivial

/-- No token text goes over a line break. -/
theorem oneLine_of_kindOf {c : Char} {cs : List Char} {t : Token}
    (h : (kindOf c cs).1 = .token t) : t.OneLine := by
  have hstarts := starts_kindOf c cs
  generalize kindOf c cs = k at h hstarts
  cases hstarts with
  | openString | openComment => cases h
  | ident start =>
    rw [← Kind.token.inj h]
    exact oneLine_of_identOf start
  | number digit =>
    rw [← Kind.token.inj h]
    show StyleWeave.OneLine (String.ofList (c :: cs.take (numberTail cs)))
    rw [oneLine_ofList, List.mem_cons]
    rintro (hfeed | hfeed)
    · rw [← hfeed] at digit
      exact absurd digit (by decide)
    · exact no_feed_of_numberTail cs hfeed
  | @string n quote tail =>
    rw [← Kind.token.inj h]
    show StyleWeave.OneLine (String.ofList (unescape (cs.take (n - 1))))
    rw [oneLine_ofList]
    exact fun hfeed => (no_feed_of_stringTail tail).2 (unescape_subset _ hfeed)
  | atName =>
    rw [← Kind.token.inj h]
    rcases atToken_cases (cs.takeWhile isNameChar) with hs | hs | ⟨s, hs⟩
    · rw [hs]
      trivial
    · rw [hs]
      trivial
    · rw [hs]
      trivial
  | assignment token =>
    rw [← Kind.token.inj h]
    rcases token with rfl | rfl
    · trivial
    · trivial
  | mark mem =>
    have hmarks : ∀ m ∈ marks, m.2.OneLine := by simp [marks, Token.OneLine]
    rw [← Kind.token.inj h]
    exact hmarks _ mem
  | dashed | other =>
    rw [← Kind.token.inj h]
    trivial

theorem oneLine_of_mem_ofText {cs : List Char} {l : Lexeme} (hl : l ∈ ofText cs) {t : Token}
    (ht : l.kind = .token t) : t.OneLine := by
  induction hlength : cs.length using Nat.strongRecOn generalizing cs with
  | ind length ih =>
    cases hdrop : cs.drop (gapLength cs) with
    | nil =>
      rw [ofText_of_drop_nil hdrop] at hl
      cases hl
    | cons c rest =>
      have hshorter : (rest.drop (kindOf c rest).2).length < length := by
        have hlen := congrArg List.length hdrop
        simp only [List.length_drop, List.length_cons] at hlen ⊢
        omega
      rw [ofText_of_drop_cons hdrop] at hl
      rcases List.mem_cons.1 hl with rfl | hl
      · exact oneLine_of_kindOf ht
      · exact ih _ hshorter hl rfl

end Lexeme

/-! ## Items -/

/-- Each solid item is the token of a lexeme. -/
theorem Layout.exists_lexeme {size : Nat} {s : State} {lexemes : List Lexeme}
    {items : List Located} (h : run size s lexemes = .ok items) :
    ∀ i ∈ items, ∀ t, i.item = .token t → t ≠ .newline → ∃ l ∈ lexemes, l.kind = .token t := by
  induction lexemes generalizing s items with
  | nil => exact fun i hi t ht hne => (finish_spec h i hi ⟨t, ht, hne⟩).elim
  | cons l rest ih =>
    obtain ⟨⟨here, s₁⟩, hplace, hnext⟩ := bind_eq_ok h
    obtain ⟨others, hrun, hitems⟩ := bind_eq_ok hnext
    obtain rfl := Except.ok.inj hitems
    obtain ⟨t', layout, line, hkind, hlayout, -, hhere⟩ := place_spec hplace
    intro i hi t ht hne
    rcases List.mem_append.1 hi with hi | hi
    · refine ⟨l, List.mem_cons_self, ?_⟩
      rcases hhere with rfl | rfl
      · exact (hlayout i hi ⟨t, ht, hne⟩).elim
      · rcases List.mem_append.1 hi with hi | hi
        · exact (hlayout i hi ⟨t, ht, hne⟩).elim
        · rw [List.mem_singleton.1 hi] at ht
          rw [hkind, Item.token.inj ht]
    · obtain ⟨l', hl', hkind'⟩ := ih hrun i hi t ht hne
      exact ⟨l', List.mem_cons_of_mem _ hl', hkind'⟩

/-- The texts of the tokens of a document have no line feeds. -/
theorem oneLine_of_tokenize {cs : List Char} {items : List Located} (h : tokenize cs = .ok items) :
    ∀ i ∈ items, ∀ t, i.item = .token t → t.OneLine := by
  intro i hi t ht
  by_cases hne : t = .newline
  · subst hne
    trivial
  · obtain ⟨l, hl, hkind⟩ := Layout.exists_lexeme h i hi t ht hne
    exact Lexeme.oneLine_of_mem_ofText hl hkind

end StyleWeave
