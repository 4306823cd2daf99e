import StyleWeave.Proofs.Token.Lookahead
import StyleWeave.Proofs.Token.OneLine
import StyleWeave.Proofs.Token.Spelling

/-!
# Where lexemes end

No lexeme is longer than its text, holds a line break or ends with a blank. Only a `url(` without
its closing parenthesis goes on over blanks, and that up to the end of its line (`kindOf_openUrl`).
-/

namespace StyleWeave.Lexeme

variable {c : Char} {cs u v a b : List Char} {t : Token}

/-! ## Numbers -/

/-- The characters of a number. -/
def isNumberChar (c : Char) : Bool :=
  c.isDigit || c = '.' || isUnitChar c

theorem all_takeWhile {p q : Char → Bool} (h : ∀ c, p c = true → q c = true) (cs : List Char) :
    ∀ c ∈ cs.takeWhile p, q c = true :=
  fun c hc => h c (List.all_eq_true.1 (List.all_takeWhile (l := cs)) c hc)

theorem isNumberChar_of_digit (c : Char) (h : c.isDigit = true) : isNumberChar c = true := by
  simp [isNumberChar, h]

theorem take_takeWhile (p : Char → Bool) (cs : List Char) :
    cs.take (cs.takeWhile p).length = cs.takeWhile p :=
  (List.prefix_iff_eq_take.1 (List.takeWhile_prefix _)).symm

theorem split_takeWhile {p : Char → Bool} {rest : List Char}
    (h : cs.drop (cs.takeWhile p).length = rest) : cs = cs.takeWhile p ++ rest := by
  have hsplit := List.take_append_drop (cs.takeWhile p).length cs
  rw [take_takeWhile, h] at hsplit
  exact hsplit.symm

theorem fraction_spec (cs : List Char) :
    fraction cs ≤ cs.length ∧ ∀ c ∈ cs.take (fraction cs), isNumberChar c = true := by
  unfold fraction
  split
  · next ds =>
    have hle := (List.takeWhile_prefix Char.isDigit (l := ds)).length_le
    cases hn : (ds.takeWhile Char.isDigit).length with
    | zero => exact ⟨Nat.zero_le _, by simp⟩
    | succ n =>
      refine ⟨?_, fun c hc => ?_⟩
      · show n + 1 + 1 ≤ ds.length + 1
        omega
      have hc : c ∈ ('.' :: ds).take (n + 1 + 1) := hc
      rw [List.take_succ_cons, ← hn, take_takeWhile] at hc
      rcases List.mem_cons.1 hc with rfl | hc
      · decide
      · exact all_takeWhile isNumberChar_of_digit ds c hc
  · exact ⟨Nat.zero_le _, by simp⟩

theorem numberTail_spec (cs : List Char) :
    numberTail cs ≤ cs.length ∧ ∀ c ∈ cs.take (numberTail cs), isNumberChar c = true := by
  have hunit : ∀ c, isUnitChar c = true → isNumberChar c = true := by
    intro c h
    simp [isNumberChar, h]
  have hwhole := (List.takeWhile_prefix Char.isDigit (l := cs)).length_le
  rw [numberTail_eq]
  dsimp only
  generalize hrest : cs.drop (cs.takeWhile Char.isDigit).length = rest
  obtain ⟨hle, hpoint⟩ := fraction_spec rest
  have hlength := congrArg List.length hrest
  have hunits := (List.takeWhile_prefix isUnitChar (l := rest.drop (fraction rest))).length_le
  rw [List.length_drop] at hlength hunits
  refine ⟨by omega, fun c hc => ?_⟩
  rw [Nat.add_assoc, List.take_add, hrest, List.take_add, take_takeWhile, take_takeWhile] at hc
  rcases List.mem_append.1 hc with hc | hc
  · exact all_takeWhile isNumberChar_of_digit cs c hc
  · rcases List.mem_append.1 hc with hc | hc
    · exact hpoint c hc
    · exact all_takeWhile hunit _ c hc

theorem inner_isNumberChar : Inner isNumberChar :=
  .of_all (by decide)

/-! ## Strings -/

theorem stringTail_spec {quote : Char} {n : Nat} (h : stringTail quote cs = some n) :
    n ≤ cs.length ∧ (cs.take n).getLast? = some quote := by
  induction cs using stringTail.induct quote generalizing n with
  | case1 => simp [stringTail] at h
  | case2 cs => simp [stringTail] at h
  | case3 c cs hc ih =>
    simp only [stringTail, hc, if_false, Option.map_eq_some_iff] at h
    obtain ⟨k, hk, rfl⟩ := h
    obtain ⟨hle, hlast⟩ := ih hk
    refine ⟨by simp only [List.length_cons]; omega, ?_⟩
    rw [List.take_succ_cons, List.take_succ_cons, List.getLast?_cons, List.getLast?_cons, hlast]
    rfl
  | case4 cs hcs =>
    have hone : n = 1 := by simpa [stringTail, eq_comm] using h
    subst hone
    exact ⟨by simp, by simp⟩
  | case5 c cs hcs hquote hbad => simp [stringTail, hquote, hbad] at h
  | case6 c cs hcs hquote hok ih =>
    simp only [stringTail, hquote, hok, Bool.false_eq_true, if_false,
      Option.map_eq_some_iff] at h
    obtain ⟨k, hk, rfl⟩ := h
    obtain ⟨hle, hlast⟩ := ih hk
    refine ⟨by simp only [List.length_cons]; omega, ?_⟩
    rw [List.take_succ_cons, List.getLast?_cons, hlast]
    rfl

/-! ## `url(...)` -/

/-- A parenthesis closes the inside of a `url(...)` if there is one on its line. -/
theorem urlInside_closed (cs : List Char) :
    (urlInside cs).2 = true ↔ ')' ∈ cs.takeWhile (· != '\n') := by
  induction cs with
  | nil => simp [urlInside]
  | cons c cs ih =>
    by_cases hfeed : c = '\n'
    · subst hfeed
      simp [urlInside]
    · by_cases hclose : c = ')'
      · subst hclose
        simp [urlInside]
      · have hne : ¬ ')' = c := fun heq => hclose heq.symm
        rw [urlInside_cons hclose hfeed, ih, List.takeWhile_cons_of_pos (by simp [hfeed]),
          List.mem_cons]
        simp [hne]

/-- What is taken of the inside of a `url(...)` whose parenthesis is missing. -/
theorem urlInside_open (h : (urlInside cs).2 = false) :
    (urlInside cs).1 = (cs.takeWhile (· != '\n')).length := by
  have hclose : ')' ∉ cs.takeWhile (· != '\n') := by
    rw [← urlInside_closed, h]
    simp
  show (cs.takeWhile fun c => c != ')' && c != '\n').length = _
  congr 1
  clear h
  induction cs with
  | nil => rfl
  | cons c cs ih =>
    by_cases hfeed : c = '\n'
    · subst hfeed
      simp
    · rw [List.takeWhile_cons_of_pos (by simp [hfeed])] at hclose
      obtain ⟨hc, hcs⟩ := not_or.1 fun h => hclose (List.mem_cons.2 h)
      have hne : c ≠ ')' := fun heq => hc heq.symm
      rw [List.takeWhile_cons_of_pos (by simp [hfeed, hne]),
        List.takeWhile_cons_of_pos (by simp [hfeed]), ih hcs]

/-- A `url(` starts with this character, and its closing parenthesis is not on the line. -/
def OpenUrl (c : Char) (cs : List Char) : Prop :=
  ∃ more inside, cs = more ++ '(' :: inside ∧ isIdentStart c = true ∧
    (∀ d ∈ more, isIdentChar d = true) ∧ String.ofList (c :: more) = "url" ∧
    ')' ∉ inside.takeWhile (· != '\n')

theorem takeWhile_paren {more inside : List Char} (h : ∀ d ∈ more, isIdentChar d = true) :
    (more ++ '(' :: inside).takeWhile isIdentChar = more :=
  takeWhile_append_of_stop h fun d hd => by
    obtain rfl := Option.some.inj hd
    decide

theorem ne_feed_of_ident {d : Char} (h : isIdentChar d = true) : (d != '\n') = true := by
  rw [bne_iff_ne]
  rintro rfl
  exact absurd h (by decide)

/-- A `url(` that is not closed goes on up to the end of its line. -/
theorem kindOf_openUrl (h : OpenUrl c cs) :
    kindOf c cs = (.token (.punct (String.ofList (c :: cs.takeWhile (· != '\n')))),
      (cs.takeWhile (· != '\n')).length) := by
  obtain ⟨more, inside, rfl, hstart, hmore, hname, hclose⟩ := h
  have hopen : (urlInside inside).2 = false := by
    rw [← Bool.not_eq_true, urlInside_closed]
    exact hclose
  have hident : (more ++ '(' :: inside).takeWhile isIdentChar = more := takeWhile_paren hmore
  have hline : (more ++ '(' :: inside).takeWhile (· != '\n') =
      more ++ '(' :: inside.takeWhile (· != '\n') := by
    rw [List.takeWhile_append_of_pos fun d hd => ne_feed_of_ident (hmore d hd),
      List.takeWhile_cons_of_pos (by decide)]
  have hinside : (more ++ '(' :: inside).drop
      ((more ++ '(' :: inside).takeWhile isIdentChar).length = '(' :: inside := by
    rw [hident, List.drop_left' rfl]
  have hlength : more.length + ((urlInside inside).1 + 1 + (urlInside inside).2.toNat) =
      ((more ++ '(' :: inside).takeWhile (· != '\n')).length := by
    rw [hline, hopen, urlInside_open hopen, List.length_append, List.length_cons]
    rfl
  rw [kindOf_ident hstart, identOf_of_paren hinside, hident, if_pos hname]
  dsimp only
  rw [hlength, hopen, take_takeWhile]
  rfl

/-- Where the blanks at the end of a line start, nothing goes on. -/
theorem clear_blanks (hb : ∀ d ∈ b, Text.isGap d = true) (hv : Clear v) : Clear (b ++ v) := by
  cases b with
  | nil => exact hv
  | cons d b => exact clear_gap (hb d List.mem_cons_self) _

theorem takeWhile_line (ha : '\n' ∉ a) (hv : EndsLine v) : (a ++ v).takeWhile (· != '\n') = a := by
  refine takeWhile_append_of_stop (fun d hd => ?_) fun d hd => ?_
  · rw [bne_iff_ne]
    rintro rfl
    exact ha hd
  · rw [hv d hd]
    rfl

theorem no_feed_of_gaps (hb : ∀ d ∈ b, Text.isGap d = true) : '\n' ∉ b :=
  fun h => absurd (hb _ h) (by decide)

/-- Blanks at the end of its line do not close a `url(`. -/
theorem OpenUrl.reline {b' v' : List Char} (h : OpenUrl c (a ++ (b ++ v))) (ha : '\n' ∉ a)
    (hb : ∀ d ∈ b, Text.isGap d = true) (hb' : ∀ d ∈ b', Text.isGap d = true) (hv : EndsLine v)
    (hv' : EndsLine v') : OpenUrl c (a ++ (b' ++ v')) := by
  obtain ⟨more, inside, hcs, hstart, hmore, hname, hclose⟩ := h
  have hedge := (clear_blanks hb hv.clear).edge
  rcases List.append_eq_append_iff.1 hcs with ⟨x, hx, hrest⟩ | ⟨x, rfl, hrest⟩
  · -- The parenthesis would be among the blanks.
    exfalso
    cases x with
    | nil => exact hedge.not_paren inside hrest
    | cons d x =>
      rw [hrest] at hedge
      have hd := hmore d (by rw [hx]; simp)
      rw [inner_isIdentChar d _ hedge] at hd
      cases hd
  · cases x with
    | nil => exact absurd hrest.symm (hedge.not_paren inside)
    | cons d x =>
      obtain ⟨rfl, rfl⟩ := List.cons.inj hrest
      have hx : '\n' ∉ x := fun h => ha (by simp [h])
      refine ⟨more, x ++ (b' ++ v'), by simp, hstart, hmore, hname, ?_⟩
      have hfeed := no_feed_of_gaps hb
      have hfeed' := no_feed_of_gaps hb'
      have hall : x.append (b ++ v) = (x ++ b) ++ v := (List.append_assoc x b v).symm
      rw [hall, takeWhile_line (by simp [hx, hfeed]) hv] at hclose
      rw [← List.append_assoc, takeWhile_line (by simp [hx, hfeed']) hv', List.mem_append]
      rintro (hmem | hmem)
      · exact hclose (List.mem_append_left _ hmem)
      · exact absurd (hb' _ hmem) (by decide)

/-! ## All lexemes -/

/-- The first `n` characters of a text are on one line, and no blank is the last of them. -/
structure Whole (cs : List Char) (n : Nat) : Prop where
  le : n ≤ cs.length
  feed : '\n' ∉ cs.take n
  last : ∀ d, (cs.take n).getLast? = some d → Text.isGap d = false

theorem Whole.zero (cs : List Char) : Whole cs 0 :=
  ⟨Nat.zero_le _, by simp, by simp⟩

theorem not_gap_of_inner {p : Char → Bool} (hp : Inner p) {d : Char} (hd : p d = true) :
    Text.isGap d = false := by
  rw [Bool.eq_false_iff]
  intro hgap
  rw [hp d [] (clear_gap hgap []).edge] at hd
  cases hd

theorem ne_feed_of_inner {p : Char → Bool} (hp : Inner p) {d : Char} (hd : p d = true) :
    d ≠ '\n' := by
  rintro rfl
  rw [hp '\n' [] (endsLine_feed []).clear.edge] at hd
  cases hd

theorem Whole.of_all {p : Char → Bool} {n : Nat} (hp : Inner p) (hle : n ≤ cs.length)
    (hall : ∀ d ∈ cs.take n, p d = true) : Whole cs n :=
  ⟨hle, fun hmem => ne_feed_of_inner hp (hall _ hmem) rfl,
    fun d hd => not_gap_of_inner hp (hall d (List.mem_of_getLast? hd))⟩

theorem Whole.takeWhile {p : Char → Bool} (hp : Inner p) (cs : List Char) :
    Whole cs (cs.takeWhile p).length := by
  refine .of_all hp (List.takeWhile_prefix _).length_le fun d hd => ?_
  rw [take_takeWhile] at hd
  exact List.all_eq_true.1 (List.all_takeWhile (l := cs)) d hd

theorem whole_identOf (h : (identOf c cs).1 = t) (hstart : isIdentStart c = true)
    (hopen : ¬ OpenUrl c cs) : Whole cs (identOf c cs).2 ∧ ¬ IsPunct t := by
  have hident : ∀ name, ¬ IsPunct (.ident name) := by
    rintro name ⟨s, hs⟩
    cases hs
  by_cases hparen : ∃ inside, cs.drop (cs.takeWhile isIdentChar).length = '(' :: inside
  · obtain ⟨inside, hinside⟩ := hparen
    have hsplit := split_takeWhile hinside
    have hmore : ∀ d ∈ cs.takeWhile isIdentChar, isIdentChar d = true :=
      fun d hd => List.all_eq_true.1 (List.all_takeWhile (l := cs)) d hd
    rw [identOf_of_paren hinside] at h ⊢
    by_cases hname : String.ofList (c :: cs.takeWhile isIdentChar) = "url"
    · rw [if_pos hname] at h ⊢
      dsimp only at h ⊢
      have hclosed : (urlInside inside).2 = true := by
        refine Classical.byContradiction fun hnot => ?_
        rw [urlInside_closed] at hnot
        exact hopen ⟨_, inside, hsplit, hstart, hmore, hname, hnot⟩
      rw [hclosed] at h ⊢
      have hnext : (inside.drop (urlInside inside).1).head? = some ')' := by
        simpa [urlInside] using hclosed
      obtain ⟨rest, hrest⟩ := List.head?_eq_some_iff.1 hnext
      have htake : cs.take ((cs.takeWhile isIdentChar).length + ((urlInside inside).1 + 1 + 1)) =
          cs.takeWhile isIdentChar ++ '(' :: (inside.take (urlInside inside).1 ++ [')']) := by
        rw [List.take_add, take_takeWhile, hinside, List.take_succ_cons, List.take_add, hrest]
        rfl
      have hlength := congrArg List.length hrest
      rw [List.length_drop, List.length_cons] at hlength
      have hcs := congrArg List.length hinside
      rw [List.length_drop, List.length_cons] at hcs
      have hbody : inside.take (urlInside inside).1 =
          inside.takeWhile (fun d => d != ')' && d != '\n') := take_takeWhile _ inside
      refine ⟨⟨?_, ?_, fun d hd => ?_⟩, ?_⟩
      · show (cs.takeWhile isIdentChar).length + ((urlInside inside).1 + 1 + 1) ≤ cs.length
        omega
      · show '\n' ∉ cs.take ((cs.takeWhile isIdentChar).length + ((urlInside inside).1 + 1 + 1))
        rw [htake, hbody, List.mem_append, List.mem_cons, List.mem_append, List.mem_singleton]
        rintro (hfeed | hfeed | hfeed | hfeed)
        · exact absurd (hmore _ hfeed) (by decide)
        · cases hfeed
        · exact no_feed_of_takeWhile (by decide) hfeed
        · cases hfeed
      · have hd' : (cs.take ((cs.takeWhile isIdentChar).length +
            ((urlInside inside).1 + 1 + 1))).getLast? = some d := hd
        rw [htake] at hd'
        obtain rfl : ')' = d := by simpa [List.getLast?_append, List.getLast?_cons] using hd'
        decide
      · rw [← h]
        rintro ⟨s, hs⟩
        cases hs
    · rw [if_neg hname] at h ⊢
      exact ⟨.takeWhile inner_isIdentChar cs, h ▸ hident _⟩
  · have hnot : ∀ inside, cs.drop (cs.takeWhile isIdentChar).length ≠ '(' :: inside :=
      fun inside heq => hparen ⟨inside, heq⟩
    rw [identOf_of_not_paren hnot] at h ⊢
    exact ⟨.takeWhile inner_isIdentChar cs, h ▸ hident _⟩

theorem whole_string {quote : Char} {n : Nat} (hquote : Text.isGap quote = false ∧ quote ≠ '\n')
    (htail : stringTail quote cs = some n) : Whole cs n := by
  obtain ⟨hle, hlast⟩ := stringTail_spec htail
  obtain ⟨hpos, hfeed⟩ := no_feed_of_stringTail htail
  refine ⟨hle, fun hmem => ?_, fun d hd => ?_⟩
  · -- The quote is the last character, and in front of it there is no line break.
    obtain ⟨front, hfront⟩ := List.getLast?_eq_some_iff.1 hlast
    have hbefore : cs.take (n - 1) = front := by
      have htaken := congrArg (List.take (n - 1)) hfront
      have hlength := congrArg List.length hfront
      rw [List.length_take, Nat.min_eq_left hle, List.length_append, List.length_singleton]
        at hlength
      rwa [List.take_take, Nat.min_eq_left (Nat.sub_le n 1), List.take_left' (by omega)] at htaken
    rw [hfront, List.mem_append, List.mem_singleton, ← hbefore] at hmem
    rcases hmem with hmem | hmem
    · exact hfeed hmem
    · exact hquote.2 hmem.symm
  · rw [hlast] at hd
    rw [← Option.some.inj hd]
    exact hquote.1

/-- A lexeme is whole if it is not a `url(` without its parenthesis. -/
theorem whole_kindOf {n : Nat} (hkind : kindOf c cs = (.token t, n)) (hopen : ¬ OpenUrl c cs) :
    Whole cs n ∧ (isIdentStart c = true → ¬ IsPunct t) := by
  have hstarts := starts_kindOf c cs
  rw [hkind] at hstarts
  cases hstarts with
  | ident start =>
    obtain ⟨hwhole, hpunct⟩ := whole_identOf rfl start hopen
    exact ⟨hwhole, fun _ => hpunct⟩
  | number digit =>
    obtain ⟨hle, hall⟩ := numberTail_spec cs
    exact ⟨.of_all inner_isNumberChar hle hall, fun _ => by simp [IsPunct]⟩
  | string quote tail =>
    refine ⟨whole_string ?_ tail, fun _ => by simp [IsPunct]⟩
    rcases quote with rfl | rfl
    · decide
    · decide
  | atName =>
    refine ⟨.takeWhile inner_isNameChar _, fun _ => ?_⟩
    rcases atToken_cases (cs.takeWhile isNameChar) with hs | hs | ⟨s, hs⟩
    · simp [IsPunct, hs]
    · simp [IsPunct, hs]
    · simp [IsPunct, hs]
  | @dashed d ds dash split start =>
    subst split
    have hle := (List.takeWhile_prefix isIdentChar (l := ds)).length_le
    refine ⟨.of_all inner_isIdentChar (by rw [List.length_cons]; omega) fun x hx => ?_,
      fun _ => by simp [IsPunct]⟩
    rw [List.take_succ_cons, take_takeWhile] at hx
    rcases List.mem_cons.1 hx with rfl | hx
    · exact isIdentChar_of_start start
    · exact List.all_eq_true.1 (List.all_takeWhile (l := ds)) x hx
  | assignment token split =>
    subst split
    refine ⟨⟨by simp, by simp, fun d hd => ?_⟩, fun _ => ?_⟩
    · obtain rfl : '=' = d := by simpa using hd
      decide
    · rcases token with rfl | rfl
      · simp [IsPunct]
      · simp [IsPunct]
  | mark mem =>
    have hmarks : ∀ m ∈ marks, ¬ IsPunct m.2 := by simp [marks, IsPunct]
    exact ⟨.zero cs, fun _ => hmarks _ mem⟩
  | other start => exact ⟨.zero cs, fun h => absurd h start⟩

/-- A lexeme lies in its text, on one line. -/
theorem oneLine_kindOf {n : Nat} (hkind : kindOf c cs = (.token t, n)) :
    n ≤ cs.length ∧ '\n' ∉ cs.take n := by
  by_cases hopen : OpenUrl c cs
  · rw [kindOf_openUrl hopen] at hkind
    obtain ⟨-, rfl⟩ := Prod.mk.inj hkind
    refine ⟨(List.takeWhile_prefix _).length_le, ?_⟩
    rw [take_takeWhile]
    exact no_feed_of_takeWhile (by decide)
  · obtain ⟨hwhole, -⟩ := whole_kindOf hkind hopen
    exact ⟨hwhole.le, hwhole.feed⟩

end StyleWeave.Lexeme
