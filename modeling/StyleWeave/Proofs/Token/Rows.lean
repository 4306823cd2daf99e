import StyleWeave.Proofs.Text.Rows
import StyleWeave.Proofs.Token.Extent
import StyleWeave.Proofs.Token.Lexing

/-!
# Lexing row by row

A text is lexed line by line: what is lexed of a line does not depend on the blanks around it nor,
in front of a line break, on what follows (`Lexes.reline`). So two texts with the same rows, which
are their lines without the blanks around them, have the same tokens.
-/

namespace StyleWeave

/-- The token, whatever sign it is if it is one. -/
def Token.bare : Token → Token
  | .punct _ => .punct ""
  | t => t

namespace Lexeme

/-- The tokens of some places. -/
def bares (spots : List Spot) : List Token :=
  spots.map fun s => s.token.bare

@[simp] theorem bares_nil : bares [] = [] := rfl

@[simp] theorem bares_cons (s : Spot) (spots : List Spot) :
    bares (s :: spots) = s.token.bare :: bares spots := rfl

@[simp] theorem bares_append (spots spots' : List Spot) :
    bares (spots ++ spots') = bares spots ++ bares spots' :=
  List.map_append

/-- All characters are blanks between tokens. -/
def Gaps (cs : List Char) : Prop :=
  ∀ c ∈ cs, Text.isGap c = true

variable {m m' m'' : Bool} {cs rest a b b' v v' : List Char} {spots : List Spot}

theorem gaps_nil : Gaps [] := by
  intro c hc
  cases hc

theorem Gaps.tail {c : Char} (h : Gaps (c :: cs)) : Gaps cs :=
  fun d hd => h d (List.mem_cons_of_mem _ hd)

/-- Blanks in front of a text are passed over. -/
theorem Lexes.gaps (h : Lexes m v spots m' rest) (hb : Gaps b) :
    Lexes m (b ++ v) spots m' rest := by
  induction b with
  | nil => exact h
  | cons c b ih =>
    have hc := hb c List.mem_cons_self
    have hrest := ih hb.tail
    cases m with
    | false => exact .gap hc hrest
    | true =>
      refine .within ?_ ?_ hrest
      · rintro rfl
        exact absurd hc (by decide)
      · rintro rfl
        exact absurd hc (by decide)

/-- A proper end of the text is not the text. -/
theorem not_suffix_of_cons {c : Char} (h : c :: cs <:+ v) (h' : v <:+ cs) : False := by
  have hlength := (h.trans h').length_le
  rw [List.length_cons] at hlength
  omega

theorem Lexes.of_gaps (h : Lexes m (b ++ v) spots m' rest) (hb : Gaps b) (hrest : rest <:+ v) :
    Lexes m v spots m' rest := by
  induction b generalizing m with
  | nil => exact h
  | cons c b ih =>
    have hc := hb c List.mem_cons_self
    have hsuffix : rest <:+ b ++ v := hrest.trans (List.suffix_append b v)
    rw [List.cons_append] at h
    generalize hcs : c :: (b ++ v) = cs at h
    cases h with
    | done =>
      rw [← hcs] at hsuffix
      exact (not_suffix_of_cons (List.suffix_refl _) hsuffix).elim
    | gap _ others =>
      obtain ⟨-, rfl⟩ := List.cons.inj hcs
      exact ih others hb.tail
    | token hgap _ _ _ =>
      obtain ⟨rfl, -⟩ := List.cons.inj hcs
      rw [hc] at hgap
      cases hgap
    | line _ | opens _ | closes _ | feed _ =>
      obtain ⟨rfl, -⟩ := List.cons.inj hcs
      exact absurd hc (by decide)
    | within _ _ others =>
      obtain ⟨-, rfl⟩ := List.cons.inj hcs
      exact ih others hb.tail

/-- In front of a text that is left over stands a character of the line, or one of the blanks at its
end. -/
theorem cons_cases {c : Char} (h : c :: cs = a ++ (b ++ v)) (hv : v <:+ cs) :
    (∃ a', a = c :: a' ∧ cs = a' ++ (b ++ v)) ∨
      a = [] ∧ ∃ b', b = c :: b' ∧ cs = b' ++ v := by
  cases a with
  | cons d a =>
    obtain ⟨rfl, hcs⟩ := List.cons.inj h
    exact Or.inl ⟨a, rfl, hcs⟩
  | nil =>
    cases b with
    | cons d b =>
      obtain ⟨rfl, hcs⟩ := List.cons.inj h
      exact Or.inr ⟨rfl, b, rfl, hcs⟩
    | nil =>
      have hwhole : c :: cs = v := h
      subst hwhole
      exact (not_suffix_of_cons (List.suffix_refl _) hv).elim

theorem cons_of_append {c : Char} (h : c :: cs = a ++ (b ++ v)) (hb : Gaps b)
    (hc : Text.isGap c = false) (hv : v <:+ cs) : ∃ a', a = c :: a' ∧ cs = a' ++ (b ++ v) := by
  refine (cons_cases h hv).resolve_right ?_
  rintro ⟨-, b', rfl, -⟩
  rw [hb c List.mem_cons_self] at hc
  cases hc

theorem cons_cons_of_append {c d : Char} (h : c :: d :: cs = a ++ (b ++ v)) (hb : Gaps b)
    (hc : Text.isGap c = false) (hd : Text.isGap d = false) (hv : v <:+ cs) :
    ∃ a', a = c :: d :: a' ∧ cs = a' ++ (b ++ v) := by
  obtain ⟨a, rfl, hcs⟩ := cons_of_append h hb hc (hv.trans (List.suffix_cons _ _))
  obtain ⟨a, rfl, rfl⟩ := cons_of_append hcs hb hd hv
  exact ⟨a, rfl, rfl⟩

/-- The rest of a lexeme that is not a `url(` ends in front of the blanks. -/
theorem Whole.front {u : List Char} (h : Whole (u ++ cs) u.length)
    (hcs : u ++ cs = a ++ (b ++ v)) (hb : Gaps b) (hv : v <:+ cs) :
    ∃ a', a = u ++ a' ∧ cs = a' ++ (b ++ v) := by
  rcases List.append_eq_append_iff.1 hcs with ⟨x, hx, hrest⟩ | ⟨x, hx, hrest⟩
  · exact ⟨x, hx, hrest⟩
  · cases hlast : x.getLast? with
    | none =>
      obtain rfl := List.getLast?_eq_none_iff.1 hlast
      exact ⟨[], by simpa using hx.symm, hrest.symm⟩
    | some d =>
      -- The lexeme would end with a blank.
      exfalso
      have hu : (a ++ x).getLast? = some d := by
        rw [List.getLast?_append, hlast]
        rfl
      have hsolid := h.last d (by rw [List.take_left' rfl, hx, hu])
      have hlength := congrArg List.length hrest
      have hle := hv.length_le
      rw [List.length_append, List.length_append] at hlength
      have hx' : x <+: b :=
        List.prefix_of_prefix_length_le ⟨cs, hrest.symm⟩ (List.prefix_append b v) (by omega)
      have hgap := hb d (hx'.subset (List.mem_of_getLast? hlast))
      rw [hgap] at hsolid
      cases hsolid

theorem edge_blanks (hb : Gaps b) (hv : Edge v) : Edge (b ++ v) := by
  cases b with
  | nil => exact hv
  | cons c b => exact (clear_gap (hb c List.mem_cons_self) (b ++ v)).edge

/-- What is taken up to the end of a line, with blanks at its end, is all of the line. -/
theorem eq_of_line {u : List Char} (hcs : u ++ cs = a ++ (b ++ v))
    (hu : (u ++ cs).takeWhile (· != '\n') = u) (ha : '\n' ∉ a) (hb : Gaps b) (hv : v <:+ cs) :
    u = a ++ b ∧ cs = v ∧ EndsLine v := by
  have hends : EndsLine cs := by
    intro c hc
    obtain ⟨cs, rfl⟩ := List.head?_eq_some_iff.1 hc
    by_cases hfeed : c = '\n'
    · exact hfeed
    · have hall := List.all_eq_true.1 (List.all_takeWhile (l := u ++ c :: cs) (p := (· != '\n')))
      rw [hu] at hall
      rw [List.takeWhile_append_of_pos hall, List.takeWhile_cons_of_pos (by simp [hfeed])] at hu
      have hlength := congrArg List.length hu
      rw [List.length_append, List.length_cons] at hlength
      omega
  obtain ⟨y, rfl⟩ := hv
  rw [← List.append_assoc, ← List.append_assoc] at hcs
  have hline := List.append_cancel_right hcs
  cases y with
  | nil =>
    rw [List.append_nil] at hline
    exact ⟨hline, rfl, hends⟩
  | cons d y =>
    exfalso
    obtain rfl := hends d rfl
    have hmem : '\n' ∈ a ++ b := by
      rw [← hline]
      simp
    rcases List.mem_append.1 hmem with hmem | hmem
    · exact ha hmem
    · exact no_feed_of_gaps hb hmem

theorem EndsLine.dropWhile {v : List Char} (h : EndsLine v) : v.dropWhile (· != '\n') = v := by
  cases v with
  | nil => rfl
  | cons c v =>
    obtain rfl := h c rfl
    rfl

theorem dropWhile_line (ha : '\n' ∉ a) :
    (a ++ v).dropWhile (· != '\n') = v.dropWhile (· != '\n') := by
  refine List.dropWhile_append_of_pos fun c hc => ?_
  rw [bne_iff_ne]
  rintro rfl
  exact ha hc

/-- A `url(` without its parenthesis goes on over the blanks up to the end of the line, there as
here. -/
theorem Lexes.reline_openUrl {c : Char} {u : List Char} {t : Token}
    (others : Lexes false cs spots m' v) (hgap : Text.isGap c = false)
    (hkind : kindOf c (u ++ cs) = (.token t, u.length)) (hopen : OpenUrl c (u ++ cs))
    (hcs : u ++ cs = a ++ (b ++ v)) (ha : '\n' ∉ a) (hb : Gaps b) (hb' : Gaps b')
    (hv' : EndsLine v') :
    ∃ spots', Lexes false (c :: (a ++ (b' ++ v'))) spots' m' v' ∧
      bares spots' = bares (⟨t, c :: (u ++ cs), cs⟩ :: spots) := by
  obtain ⟨ht, hlength⟩ := Prod.mk.inj (hkind.symm.trans (kindOf_openUrl hopen))
  have hline : (u ++ cs).takeWhile (· != '\n') = u := by
    rw [← take_takeWhile, ← hlength, List.take_left' rfl]
  obtain ⟨rfl, rfl, hends⟩ := eq_of_line hcs hline ha hb others.suffix
  obtain ⟨rfl, rfl⟩ := others.eq_of_same rfl
  have hopen' : OpenUrl c (a ++ (b' ++ v')) := OpenUrl.reline (hcs ▸ hopen) ha hb hb' hends hv'
  have hline' : (a ++ b' ++ v').takeWhile (· != '\n') = a ++ b' := by
    refine takeWhile_line ?_ hv'
    rw [List.mem_append]
    rintro (hmem | hmem)
    · exact ha hmem
    · exact no_feed_of_gaps hb' hmem
  have hkind' := kindOf_openUrl hopen'
  rw [← List.append_assoc, hline'] at hkind'
  have hc : c ≠ '/' := by
    obtain ⟨-, -, -, hstart, -⟩ := hopen
    exact (not_isGap_of_isIdentStart hstart).2
  refine ⟨[⟨.punct (String.ofList (c :: (a ++ b'))), c :: (a ++ b' ++ v'), v'⟩], ?_, ?_⟩
  · rw [← List.append_assoc]
    exact .token hgap (commentRest_of_ne hc _) hkind' .done
  · rw [bares_cons, bares_cons, Kind.token.inj ht]
    rfl

/-- Blanks at the end of a line, and what follows the line, do not matter. -/
theorem Lexes.reline {w : List Char} (h : Lexes m w spots m' v) (hw : w = a ++ (b ++ v))
    (ha : '\n' ∉ a) (hb : Gaps b) (hb' : Gaps b') (hv : Edge v) (hv' : EndsLine v') :
    ∃ spots', Lexes m (a ++ (b' ++ v')) spots' m' v' ∧ bares spots' = bares spots := by
  induction h generalizing a b with
  | @done m v =>
    have hlength := congrArg List.length hw
    rw [List.length_append, List.length_append] at hlength
    obtain rfl := List.eq_nil_of_length_eq_zero (l := a) (by omega)
    have hdone : Lexes m v' [] m v' := .done
    exact ⟨[], hdone.gaps hb', rfl⟩
  | @gap c cs v _ _ hgap others ih =>
    rcases cons_cases hw others.suffix with ⟨a, rfl, hcs⟩ | ⟨rfl, b, rfl, hcs⟩
    · have ha' : '\n' ∉ a := fun hmem => ha (List.mem_cons_of_mem _ hmem)
      obtain ⟨spots', hlexes, hsame⟩ := ih hcs ha' hb hv
      exact ⟨spots', .gap hgap hlexes, hsame⟩
    · exact ih (a := []) hcs ha hb.tail hv
  | @token c u cs v t spots _ hgap hcomment hkind others ih =>
    have hsuffix := others.suffix
    obtain ⟨a, rfl, hcs⟩ := cons_of_append hw hb hgap (hsuffix.trans (List.suffix_append u cs))
    have ha' : '\n' ∉ a := fun hmem => ha (List.mem_cons_of_mem _ hmem)
    have hclear := clear_blanks hb' hv'.clear
    by_cases hopen : OpenUrl c (u ++ cs)
    · exact others.reline_openUrl hgap hkind hopen hcs ha' hb hb' hv'
    · obtain ⟨hwhole, hpunct⟩ := whole_kindOf hkind hopen
      obtain ⟨a', rfl, rfl⟩ := hwhole.front hcs hb hsuffix
      obtain ⟨spots', hlexes, hsame⟩ :=
        ih rfl (fun hmem => ha' (List.mem_append_right _ hmem)) hb hv
      have hahead : Ahead (a' ++ (b ++ v)) (a' ++ (b' ++ v')) :=
        Ahead.append (.edge (edge_blanks hb hv) hclear) a'
      have hkind' := kindOf_of_ahead hahead (fun hstart hp => absurd hp (hpunct hstart)) hkind
      have hcomment' := commentRest_of_ahead (hahead.append u) hcomment hkind
      refine ⟨⟨t, c :: (u ++ (a' ++ (b' ++ v'))), a' ++ (b' ++ v')⟩ :: spots', ?_,
        congrArg (t.bare :: ·) hsame⟩
      rw [List.cons_append, List.append_assoc]
      exact .token hgap hcomment' hkind' hlexes
  | @line cs v spots _ others ih =>
    have hsuffix := others.suffix.trans (List.dropWhile_suffix _)
    obtain ⟨a, rfl, rfl⟩ := cons_cons_of_append hw hb (by decide) (by decide) hsuffix
    have ha' : '\n' ∉ a := fun hmem => ha (by simp [hmem])
    have hline := others.suffix
    rw [dropWhile_line ha', dropWhile_line (no_feed_of_gaps hb)] at others hline
    have hends : v.dropWhile (· != '\n') = v :=
      (List.dropWhile_suffix _).eq_of_length_le hline.length_le
    obtain ⟨rfl, rfl⟩ := others.eq_of_same hends.symm
    refine ⟨[], .line ?_, rfl⟩
    show Lexes false ((a ++ (b' ++ v')).dropWhile (· != '\n')) [] false v'
    rw [dropWhile_line ha', dropWhile_line (no_feed_of_gaps hb'), hv'.dropWhile]
    exact .done
  | @opens cs v spots _ others ih =>
    obtain ⟨a, rfl, rfl⟩ := cons_cons_of_append hw hb (by decide) (by decide) others.suffix
    obtain ⟨spots', hlexes, hsame⟩ := ih rfl (fun hmem => ha (by simp [hmem])) hb hv
    exact ⟨spots', .opens hlexes, hsame⟩
  | @closes cs v spots _ others ih =>
    obtain ⟨a, rfl, rfl⟩ := cons_cons_of_append hw hb (by decide) (by decide) others.suffix
    obtain ⟨spots', hlexes, hsame⟩ := ih rfl (fun hmem => ha (by simp [hmem])) hb hv
    exact ⟨spots', .closes hlexes, hsame⟩
  | feed others ih =>
    obtain ⟨a, rfl, -⟩ := cons_of_append hw hb (by decide) others.suffix
    exact (ha List.mem_cons_self).elim
  | @within c cs v spots _ hfeed hopen others ih =>
    rcases cons_cases hw others.suffix with ⟨a, rfl, rfl⟩ | ⟨rfl, b, rfl, hcs⟩
    · obtain ⟨spots', hlexes, hsame⟩ := ih rfl (fun hmem => ha (by simp [hmem])) hb hv
      refine ⟨spots', .within hfeed (fun hc => ?_) hlexes, hsame⟩
      show (a ++ (b' ++ v')).head? ≠ some '/'
      cases a with
      | cons e a => exact hopen hc
      | nil =>
        intro hhead
        obtain ⟨r, hr⟩ := List.head?_eq_some_iff.1 hhead
        have hclear := clear_blanks hb' hv'.clear
        rw [List.nil_append] at hr
        rw [hr] at hclear
        exact hclear.ne.2 rfl
    · exact ih (a := []) hcs ha hb.tail hv

/-! ## Cutting at a line break -/

theorem cons_of_ne {c : Char} (h : c :: cs = a ++ '\n' :: v) (hc : c ≠ '\n') :
    ∃ a', a = c :: a' ∧ cs = a' ++ '\n' :: v := by
  cases a with
  | nil => exact absurd (List.cons.inj h).1 hc
  | cons d a =>
    obtain ⟨rfl, hcs⟩ := List.cons.inj h
    exact ⟨a, rfl, hcs⟩

/-- What is lexed up to a line break, and on behind it: the line break is one of the lexemes. -/
def LexesBy (v : List Char) (m : Bool) (w : List Char) (spots : List Spot) (m' : Bool)
    (rest : List Char) : Prop :=
  ∃ first m₁ second, spots = first ++ ⟨.newline, '\n' :: v, v⟩ :: second ∧
    Lexes m w first m₁ ('\n' :: v) ∧ Lexes m₁ v second m' rest

/-- What is lexed in front of it is lexed up to the line break as well. -/
theorem LexesBy.before {n : Bool} {w w' : List Char} (h : LexesBy v m w spots m' rest)
    (front : List Spot)
    (hstep : ∀ {first m₁}, Lexes m w first m₁ ('\n' :: v) →
      Lexes n w' (front ++ first) m₁ ('\n' :: v)) :
    LexesBy v n w' (front ++ spots) m' rest := by
  obtain ⟨first, m₁, second, rfl, hfirst, hsecond⟩ := h
  exact ⟨front ++ first, m₁, second, (List.append_assoc _ _ _).symm, hstep hfirst, hsecond⟩

/-- What is lexed is cut by a line break. -/
theorem Lexes.at_feed {w : List Char} (h : Lexes m w spots m' rest) (hw : w = a ++ '\n' :: v)
    (ha : '\n' ∉ a) (hrest : rest <:+ v) : LexesBy v m w spots m' rest := by
  induction h generalizing a with
  | done =>
    have hlength := hrest.length_le
    rw [hw, List.length_append, List.length_cons] at hlength
    omega
  | @gap c cs _ _ _ hgap others ih =>
    obtain ⟨a, rfl, hcs⟩ := cons_of_ne hw (by rintro rfl; exact absurd hgap (by decide))
    exact (ih hcs (fun hmem => ha (List.mem_cons_of_mem _ hmem)) hrest).before [] (.gap hgap)
  | @token c u cs rest t spots _ hgap hcomment hkind others ih =>
    cases a with
    | nil =>
      obtain ⟨rfl, hcs⟩ := List.cons.inj hw
      rw [kindOf_feed] at hkind
      obtain ⟨ht, hlength⟩ := Prod.mk.inj hkind
      obtain rfl := List.eq_nil_of_length_eq_zero hlength.symm
      obtain rfl := Kind.token.inj ht
      obtain rfl : cs = v := hcs
      exact ⟨[], false, spots, rfl, .done, others⟩
    | cons d a =>
      obtain ⟨rfl, hcs⟩ := List.cons.inj hw
      have hu : '\n' ∉ u := by
        have hline := (oneLine_kindOf hkind).2
        rwa [List.take_left' rfl] at hline
      obtain ⟨a', rfl, rfl⟩ : ∃ a', a = u ++ a' ∧ cs = a' ++ '\n' :: v := by
        rcases List.append_eq_append_iff.1 hcs with ⟨x, hx, hcs'⟩ | ⟨x, hx, hcs'⟩
        · exact ⟨x, hx, hcs'⟩
        · cases x with
          | nil => exact ⟨[], by simpa using hx.symm, hcs'.symm⟩
          | cons e x =>
            obtain ⟨rfl, -⟩ := List.cons.inj hcs'
            exact (hu (by rw [hx]; simp)).elim
      exact (ih rfl (fun hmem => ha (by simp [hmem])) hrest).before [_]
        (.token hgap hcomment hkind)
  | @line cs rest spots _ others ih =>
    obtain ⟨a, rfl, hcs⟩ := cons_of_ne hw (by decide)
    obtain ⟨a, rfl, rfl⟩ := cons_of_ne hcs (by decide)
    have hbehind : (a ++ '\n' :: v).dropWhile (· != '\n') = [] ++ '\n' :: v :=
      dropWhile_line fun hmem => ha (by simp [hmem])
    exact (ih hbehind (by simp) hrest).before [] .line
  | @opens cs rest spots _ others ih =>
    obtain ⟨a, rfl, hcs⟩ := cons_of_ne hw (by decide)
    obtain ⟨a, rfl, rfl⟩ := cons_of_ne hcs (by decide)
    exact (ih rfl (fun hmem => ha (by simp [hmem])) hrest).before [] .opens
  | @closes cs rest spots _ others ih =>
    obtain ⟨a, rfl, hcs⟩ := cons_of_ne hw (by decide)
    obtain ⟨a, rfl, rfl⟩ := cons_of_ne hcs (by decide)
    exact (ih rfl (fun hmem => ha (by simp [hmem])) hrest).before [] .closes
  | @feed cs rest spots _ others ih =>
    cases a with
    | nil =>
      obtain ⟨-, rfl⟩ := List.cons.inj hw
      exact ⟨[], true, spots, rfl, .done, others⟩
    | cons d a =>
      obtain ⟨rfl, -⟩ := List.cons.inj hw
      exact (ha List.mem_cons_self).elim
  | @within c cs rest spots _ hfeed hopen others ih =>
    obtain ⟨a, rfl, rfl⟩ := cons_of_ne hw hfeed
    exact (ih rfl (fun hmem => ha (List.mem_cons_of_mem _ hmem)) hrest).before []
      (.within hfeed hopen)

/-! ## Line breaks -/

/-- A line break stands in the text where it is lexed. -/
theorem Lexes.feed_of_newline (h : Lexes m cs spots m' rest) {s : Spot} (hs : s ∈ spots)
    (hnewline : s.token = .newline) :
    s.front = '\n' :: s.back ∧ s.front <:+ cs ∧ rest <:+ s.back := by
  induction h with
  | done => cases hs
  | gap _ _ ih | within _ _ _ ih =>
    obtain ⟨hfront, hsuffix, hrest⟩ := ih hs
    exact ⟨hfront, hsuffix.trans (List.suffix_cons _ _), hrest⟩
  | opens _ ih =>
    obtain ⟨hfront, hsuffix, hrest⟩ := ih hs
    exact ⟨hfront, hsuffix.trans ⟨['/', '*'], rfl⟩, hrest⟩
  | closes _ ih =>
    obtain ⟨hfront, hsuffix, hrest⟩ := ih hs
    exact ⟨hfront, hsuffix.trans ⟨['*', '/'], rfl⟩, hrest⟩
  | line _ ih =>
    obtain ⟨hfront, hsuffix, hrest⟩ := ih hs
    exact ⟨hfront, (hsuffix.trans (List.dropWhile_suffix _)).trans ⟨['/', '/'], rfl⟩, hrest⟩
  | @token c u cs rest t spots _ _ _ hkind others ih =>
    rcases List.mem_cons.1 hs with rfl | hs
    · obtain rfl : t = .newline := hnewline
      have hfeed := kindOf_newline (congrArg Prod.fst hkind)
      subst hfeed
      rw [kindOf_feed] at hkind
      obtain rfl := List.eq_nil_of_length_eq_zero (Prod.mk.inj hkind).2.symm
      exact ⟨rfl, List.suffix_refl _, others.suffix⟩
    · obtain ⟨hfront, hsuffix, hrest⟩ := ih hs
      exact ⟨hfront, hsuffix.trans ⟨c :: u, rfl⟩, hrest⟩
  | feed others ih =>
    rcases List.mem_cons.1 hs with rfl | hs
    · exact ⟨rfl, List.suffix_refl _, others.suffix⟩
    · obtain ⟨hfront, hsuffix, hrest⟩ := ih hs
      exact ⟨hfront, hsuffix.trans ⟨['\n'], rfl⟩, hrest⟩

theorem eq_newline_of_bare {t : Token} (h : t.bare = .newline) : t = .newline := by
  cases t <;> first | rfl | cases h

/-- No line break is lexed of a line. -/
theorem Lexes.no_newline (h : Lexes m (a ++ v) spots m' v) (ha : '\n' ∉ a) :
    .newline ∉ bares spots := by
  intro hmem
  obtain ⟨s, hs, hbare⟩ := List.mem_map.1 hmem
  obtain ⟨hfront, hsuffix, hrest⟩ := h.feed_of_newline hs (eq_newline_of_bare hbare)
  obtain ⟨y, hy⟩ := hrest
  obtain ⟨x, hx⟩ := hsuffix
  rw [hfront, ← hy, ← List.cons_append, ← List.append_assoc] at hx
  have hline := List.append_cancel_right hx
  exact ha (by rw [← hline]; simp)

/-! ## Rows -/

/-- All blanks of the text are such that the lexer takes them for blanks. -/
def Spaced (cs : List Char) : Prop :=
  ∀ c ∈ cs, Text.isBlank c = true → Text.isGap c = true ∨ c = '\n'

/-- A row is lexed to tokens, on whatever line it stands. -/
def LexesRow (m : Bool) (row : List Char) (ts : List Token) (m' : Bool) : Prop :=
  .newline ∉ ts ∧ ∃ spots, Lexes m (row ++ ['\n']) spots m' ['\n'] ∧ bares spots = ts

/-- Rows are lexed to tokens one after the other. -/
inductive LexesRows : Bool → List (List Char) → List (List Token) → Bool → Prop where
  | nil {m : Bool} : LexesRows m [] [] m
  | cons {m m' m'' : Bool} {row : List Char} {rows : List (List Char)} {ts : List Token}
      {tss : List (List Token)} (here : LexesRow m row ts m') (others : LexesRows m' rows tss m'') :
      LexesRows m (row :: rows) (ts :: tss) m''

theorem LexesRows.append {rows rows' : List (List Char)} {tss tss' : List (List Token)}
    (h : LexesRows m rows tss m') (h' : LexesRows m' rows' tss' m'') :
    LexesRows m (rows ++ rows') (tss ++ tss') m'' := by
  induction h with
  | nil => exact h'
  | cons here _ ih => exact .cons here (ih h')

theorem LexesRows.split {rows rows' : List (List Char)} {tss : List (List Token)}
    (h : LexesRows m (rows ++ rows') tss m') :
    ∃ tss₁ m₁ tss₂, tss = tss₁ ++ tss₂ ∧ LexesRows m rows tss₁ m₁ ∧
      LexesRows m₁ rows' tss₂ m' := by
  induction rows generalizing m tss with
  | nil => exact ⟨[], m, tss, rfl, .nil, h⟩
  | cons row rows ih =>
    cases h with
    | cons here others =>
      obtain ⟨tss₁, m₁, tss₂, rfl, hfirst, hsecond⟩ := ih others
      exact ⟨_ :: tss₁, m₁, tss₂, rfl, .cons here hfirst, hsecond⟩

/-- The tokens without the line breaks of empty lines. `fresh` says whether a line starts. -/
def squeezed : Bool → List Token → List Token
  | _, [] => []
  | fresh, t :: ts =>
    if t = .newline then (if fresh then [] else [.newline]) ++ squeezed true ts
    else t :: squeezed false ts

/-- The tokens of rows that stand on lines of their own. -/
def stream (tss : List (List Token)) : List Token :=
  tss.flatMap fun ts => squeezed true (ts ++ [.newline])

theorem squeezed_append {ts : List Token} (h : .newline ∉ ts) (fresh : Bool) (rest : List Token) :
    squeezed fresh (ts ++ rest) = ts ++ squeezed (fresh && ts.isEmpty) rest := by
  induction ts generalizing fresh with
  | nil => simp
  | cons t ts ih =>
    obtain ⟨ht, hts⟩ := not_or.1 fun hmem => h (List.mem_cons.2 hmem)
    have hne : t ≠ .newline := fun heq => ht heq.symm
    rw [List.cons_append, squeezed, if_neg hne, ih hts]
    simp

theorem squeezed_line {ts : List Token} (h : .newline ∉ ts) (fresh : Bool) (rest : List Token) :
    squeezed fresh (ts ++ .newline :: rest) =
      squeezed fresh (ts ++ [.newline]) ++ squeezed true rest := by
  rw [squeezed_append h, squeezed_append h, squeezed, if_pos rfl, squeezed, if_pos rfl, squeezed]
  simp

/-- At the start of a line, a line break is left out. -/
theorem squeezed_true (ts : List Token) :
    squeezed false ts = squeezed true ts ∨ squeezed false ts = .newline :: squeezed true ts := by
  cases ts with
  | nil => exact Or.inl rfl
  | cons t ts =>
    by_cases h : t = .newline
    · right
      rw [squeezed, squeezed, if_pos h, if_pos h]
      rfl
    · left
      rw [squeezed, squeezed, if_neg h, if_neg h]

/-- A line break at the end is left out behind another. -/
theorem squeezed_concat (fresh : Bool) (ts : List Token) :
    squeezed fresh (ts ++ [.newline]) = squeezed fresh ts ∨
      squeezed fresh (ts ++ [.newline]) = squeezed fresh ts ++ [.newline] := by
  induction ts generalizing fresh with
  | nil =>
    cases fresh with
    | true => exact Or.inl rfl
    | false => exact Or.inr rfl
  | cons t ts ih =>
    rw [List.cons_append, squeezed, squeezed]
    by_cases h : t = .newline
    · rw [if_pos h, if_pos h]
      refine (ih true).imp (fun hsame => by rw [hsame]) fun hmore => ?_
      rw [hmore, List.append_assoc]
    · rw [if_neg h, if_neg h]
      refine (ih false).imp (fun hsame => by rw [hsame]) fun hmore => ?_
      rw [hmore, List.cons_append]

theorem no_feed_gaps (h : Spaced cs) (hb : b ⊆ cs) (hblank : ∀ c ∈ b, Text.isBlank c = true)
    (hfeed : '\n' ∉ cs) : Gaps b := by
  intro c hc
  rcases h c (hb hc) (hblank c hc) with hgap | rfl
  · exact hgap
  · exact (hfeed (hb hc)).elim

/-- The row of a line has the tokens of the line. -/
theorem Lexes.row (h : Lexes m (a ++ v) spots m' v) (ha : '\n' ∉ a) (hspaced : Spaced a)
    (hv : Edge v) :
    ∃ tss, LexesRows m (Text.row a) tss m' ∧
      stream tss = squeezed true (bares spots ++ [.newline]) := by
  have hnone := h.no_newline ha
  obtain ⟨front, back, hsplit, hfront, hback⟩ := Text.exists_trim a
  have hfront' : Gaps front :=
    no_feed_gaps hspaced (by rw [hsplit]; exact List.subset_append_left _ _) hfront ha
  have hback' : Gaps back := by
    refine no_feed_gaps hspaced ?_ hback ha
    rw [hsplit]
    exact List.Subset.trans (List.subset_append_right _ _) (List.subset_append_right _ _)
  have htrim : '\n' ∉ Text.trim a := fun hmem => ha (by rw [hsplit]; simp [hmem])
  rw [hsplit, List.append_assoc, List.append_assoc] at h
  have hbody := h.of_gaps hfront'
    ((List.suffix_append back v).trans (List.suffix_append (Text.trim a) (back ++ v)))
  by_cases hempty : (Text.trim a).isEmpty = true
  · rw [List.isEmpty_iff.1 hempty, List.nil_append] at hbody
    obtain ⟨rfl, rfl⟩ := (hbody.of_gaps hback' (List.suffix_refl v)).eq_of_same rfl
    rw [Text.row, if_pos hempty]
    exact ⟨[], .nil, rfl⟩
  · obtain ⟨spots', hrow, hsame⟩ := hbody.reline rfl htrim hback' gaps_nil hv
      (endsLine_feed [])
    rw [Text.row, if_neg hempty]
    refine ⟨[bares spots], .cons ⟨hnone, spots', hrow, hsame⟩ .nil, ?_⟩
    exact List.flatMap_singleton _ _

/-- The rows of a text have the tokens of the text. -/
theorem Lexes.rows {text : List Char} (h : Lexes m (text ++ v) spots m' v)
    (hspaced : Spaced text) (hv : Edge v) :
    ∃ tss, LexesRows m (Text.rows text) tss m' ∧
      stream tss = squeezed true (bares spots ++ [.newline]) := by
  induction hlength : text.length using Nat.strongRecOn generalizing m text spots with
  | ind length ih =>
    rcases Text.exists_line text with hno | ⟨first, behind, hfirst, rfl⟩
    · rw [Text.rows_single hno]
      exact h.row hno hspaced hv
    · have hshorter : behind.length < length := by
        rw [← hlength, List.length_append, List.length_cons]
        omega
      rw [List.append_assoc] at h
      obtain ⟨spots₁, m₁, spots₂, rfl, hline, hbehind⟩ :=
        h.at_feed rfl hfirst (List.suffix_append behind v)
      obtain ⟨tss₁, hrow, hstream₁⟩ :=
        hline.row hfirst (fun c hc => hspaced c (by simp [hc])) (endsLine_feed _).clear.edge
      obtain ⟨tss₂, hrows, hstream₂⟩ :=
        ih _ hshorter hbehind (fun c hc => hspaced c (by simp [hc])) rfl
      rw [Text.rows_line hfirst]
      refine ⟨tss₁ ++ tss₂, hrow.append hrows, ?_⟩
      have hsplit : stream (tss₁ ++ tss₂) = stream tss₁ ++ stream tss₂ := List.flatMap_append
      rw [hsplit, hstream₁, hstream₂, bares_append, List.append_assoc]
      exact (squeezed_line (hline.no_newline hfirst) true _).symm

/-- A line break is lexed, in a comment and outside. -/
theorem lexes_feed (m : Bool) (cs : List Char) :
    Lexes m ('\n' :: cs) [⟨.newline, '\n' :: cs, cs⟩] m cs := by
  cases m with
  | false =>
    exact Lexes.token (u := []) (by decide) (commentRest_of_ne (by decide) _) (kindOf_feed cs) .done
  | true => exact .feed .done

/-- A line around a row is lexed as the row. -/
theorem LexesRows.line {line : List Char} {tss : List (List Token)}
    (h : LexesRows m (Text.row line) tss m') (hline : '\n' ∉ line) (hspaced : Spaced line)
    (rest : List Char) :
    ∃ spots, Lexes m (line ++ '\n' :: rest) spots m' rest ∧
      ∀ ts, squeezed true (bares spots ++ ts) = stream tss ++ squeezed true ts := by
  obtain ⟨front, back, hsplit, hfront, hback⟩ := Text.exists_trim line
  have hfront' : Gaps front :=
    no_feed_gaps hspaced (by rw [hsplit]; exact List.subset_append_left _ _) hfront hline
  have hback' : Gaps back := by
    refine no_feed_gaps hspaced ?_ hback hline
    rw [hsplit]
    exact List.Subset.trans (List.subset_append_right _ _) (List.subset_append_right _ _)
  have htrim : '\n' ∉ Text.trim line := fun hmem => hline (by rw [hsplit]; simp [hmem])
  unfold Text.row at h
  by_cases hempty : (Text.trim line).isEmpty = true
  · rw [if_pos hempty] at h
    cases h
    have hfeed := ((lexes_feed m rest).gaps hback').gaps hfront'
    rw [List.isEmpty_iff.1 hempty, List.nil_append] at hsplit
    rw [hsplit, List.append_assoc]
    exact ⟨_, hfeed, fun ts => rfl⟩
  · rw [if_neg hempty] at h
    cases h with
    | @cons _ _ _ _ _ ts _ here others =>
      cases others
      obtain ⟨hnone, spots, hrow, rfl⟩ := here
      obtain ⟨spots', hlexes, hsame⟩ := hrow.reline (b := []) rfl htrim gaps_nil hback'
        (endsLine_feed []).clear.edge (endsLine_feed rest)
      refine ⟨spots' ++ [⟨.newline, '\n' :: rest, rest⟩], ?_, fun ts => ?_⟩
      · have hwhole := (hlexes.gaps hfront').append (lexes_feed m' rest)
        rwa [← List.append_assoc, ← List.append_assoc, List.append_assoc front, ← hsplit] at hwhole
      · have hstream : stream [bares spots] = squeezed true (bares spots ++ [.newline]) :=
          List.flatMap_singleton _ _
        rw [bares_append, hsame, List.append_assoc, hstream]
        exact squeezed_line hnone true ts

/-- Lines around rows are lexed as the rows. -/
theorem LexesRows.lines {lines : List (List Char)} {tss : List (List Token)}
    (h : LexesRows m (lines.flatMap Text.row) tss m')
    (hlines : ∀ line ∈ lines, '\n' ∉ line ∧ Spaced line) (rest : List Char) :
    ∃ spots, Lexes m (lines.flatMap (· ++ ['\n']) ++ rest) spots m' rest ∧
      ∀ ts, squeezed true (bares spots ++ ts) = stream tss ++ squeezed true ts := by
  induction lines generalizing m tss with
  | nil =>
    cases h
    exact ⟨[], .done, fun ts => rfl⟩
  | cons line lines ih =>
    rw [List.flatMap_cons] at h
    obtain ⟨tss₁, m₁, tss₂, rfl, hhere, hothers⟩ := h.split
    obtain ⟨hfeed, hspaced⟩ := hlines line List.mem_cons_self
    obtain ⟨spots₁, hline, hstream₁⟩ :=
      hhere.line hfeed hspaced (lines.flatMap (· ++ ['\n']) ++ rest)
    obtain ⟨spots₂, hrest, hstream₂⟩ :=
      ih hothers fun l hl => hlines l (List.mem_cons_of_mem _ hl)
    refine ⟨spots₁ ++ spots₂, ?_, fun ts => ?_⟩
    · have hwhole := hline.append hrest
      rw [List.flatMap_cons]
      simpa using hwhole
    · have hsplit : stream (tss₁ ++ tss₂) = stream tss₁ ++ stream tss₂ := List.flatMap_append
      rw [bares_append, List.append_assoc, hstream₁, hstream₂, hsplit, List.append_assoc]

end Lexeme

end StyleWeave
