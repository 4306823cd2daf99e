import StyleWeave.Proofs.Syntax.Offside

/-!
# Breaking a line behind its commas

Line breaks behind commas, inside brackets or in one line outside of them with the text behind each
at the same deeper column, leave a text with the token stream that it had but for the line breaks
and one block, which ends with the line (`tokenize_breakLines`).
-/

namespace StyleWeave

open Text (bytes bytes_append)
open Lexeme (Lexes Moved)
open Syntax (SameItems Broken)

namespace Layout

variable {t t' s₁ s₂ : State} {d start stop : Nat} {token : Token}
variable {here layout items : List Located} {pending owed : Bool}
variable {breaks : Nat → Option (List Char)} {opens : Prop} {size size' w : Nat}
variable {s : Spot} {spots spots' : List Spot}

/-! ## Breaks in a line -/

/-- The columns of the blocks that are owed. -/
def blocks (owed : Bool) (w : Nat) : List Nat :=
  if owed then [w] else []

/-- The items that come next in the two streams; if `pending`, a comma stands in front of them, with
a line break in the second stream. -/
def Follows (breaks : Nat → Option (List Char)) (opens : Prop) (pending owed : Bool)
    (items items' : List Located) : Prop :=
  if pending then
    ∀ l l' f : Located, l.item = .token .comma → l'.item = .token .comma →
      f.item = .token .newline → (breaks l.stop).isSome →
      Broken (fun n => (breaks n).isSome) opens owed (l :: items) (l' :: f :: items')
  else Broken (fun n => (breaks n).isSome) opens owed items items'

/-- Line breaks are put inside brackets only. -/
def Inside (breaks : Nat → Option (List Char)) (t : State) (items : List Located) : Prop :=
  ∀ front l rest, items = front ++ l :: rest → l.IsSolid → (breaks l.stop).isSome →
    0 < (t.depth : Int) + opened front

/-- Line breaks are put into the first line of these items only, and the text behind each is at
column `w`. Behind the line, where `depth` brackets were open in front of it, none is open, and the
next line is no deeper. -/
structure Ending (breaks : Nat → Option (List Char)) (w : Nat) (depth : Int)
    (items : List Located) : Prop where
  split : ∃ line feed behind, items = line ++ feed :: behind ∧ (∀ l ∈ line, l.IsSolid) ∧
    feed.item = .token .newline ∧ depth + opened line = 0 ∧
    behind.head?.map Located.item ≠ some .indent ∧ Unbroken breaks behind
  width : ∀ front l next rest b, items = front ++ l :: next :: rest → l.IsSolid → next.IsSolid →
    breaks l.stop = some b → bytes b + next.start = l.stop + w

/-- Line breaks are put into the rest of the line only, at column `w`, which is deeper. -/
structure Closing (breaks : Nat → Option (List Char)) (opens : Prop) (w : Nat) (t : State)
    (items : List Located) : Prop where
  opens_ : opens
  fresh : t.fresh = false
  column : column t.columns < w
  ending : Ending breaks w t.depth items

/-- What comes behind a line with line breaks in it. -/
theorem drive_behind (h : Moved breaks size size' d spots spots')
    (ht : t.Tracks false t' d (blocks owed w)) (hfresh : t.fresh = true) (hdepth : t.depth = 0)
    (hcolumn : column t.columns < w) (hdrive : drive size t spots = .ok items)
    (hnone : Unbroken breaks items) (hshallow : items.head?.map Located.item ≠ some .indent) :
    ∃ items', drive size' t' spots' = .ok items' ∧ ∀ feed feed' : Located,
      feed.item = .token .newline → feed'.item = .token .newline →
      Broken (fun n => (breaks n).isSome) opens owed (feed :: items) (feed' :: items') := by
  cases owed with
  | false =>
    obtain ⟨items', hdrive', hsame⟩ := drive_same h ht hdrive hnone
    exact ⟨items', hdrive', fun feed feed' hfeed hfeed' =>
      .same (SameItems.cons_iff.2 ⟨hfeed.trans hfeed'.symm, hsame⟩)⟩
  | true =>
    have hdeeper : ∀ c ∈ blocks true w, column t.columns < c := by
      intro c hc
      rw [List.mem_singleton.1 hc]
      exact hcolumn
    obtain ⟨dedents, items', hdrive', hdedents, hsame⟩ :=
      drive_paid h ht hfresh hdepth hdeeper hdrive hnone hshallow
    obtain ⟨dedent, rfl, hdedent⟩ := List.map_eq_singleton_iff.1 hdedents
    exact ⟨_, hdrive', fun feed feed' hfeed hfeed' => .paid hfeed hfeed' hdedent hshallow hsame⟩

/-- A line ends with the document, as it would with a line break. -/
theorem finish_line (t : State) (size lineStart : Nat) :
    finish t size = (finish { t with fresh := true, lineStart } size).map
      ((if t.fresh then [] else [⟨.token .newline, t.line, size, size⟩]) ++ ·) := by
  unfold finish
  dsimp only
  split
  · rfl
  · cases t.fresh <;> rfl

/-- The layout that both passes have for a token: the pass over the broken text opens a block, or
both have the same. -/
def Entered (opens : Prop) (pending owed owed' : Bool) (layout layout' : List Located) : Prop :=
  owed' = owed ∧ SameItems layout layout' ∧ (pending = true ∨ owed = true → layout = []) ∨
    opens ∧ pending = true ∧ owed = false ∧ owed' = true ∧ layout = [] ∧
      ∃ indent, indent.item = .indent ∧ layout' = [indent]

theorem Entered.follows {owed' : Bool} {layout' others others' : List Located} {l l' : Located}
    (h : Entered opens pending owed owed' layout layout') (hl : l.IsSolid)
    (hbroken : Broken (fun n => (breaks n).isSome) opens owed' (l :: others) (l' :: others')) :
    Follows breaks opens pending owed (layout ++ l :: others) (layout' ++ l' :: others') := by
  unfold Follows
  rcases h with ⟨rfl, hsame, hnone⟩ | ⟨hopens, rfl, rfl, rfl, rfl, indent, hindent, rfl⟩
  · cases pending with
    | true =>
      obtain rfl := hnone (Or.inl rfl)
      obtain rfl := List.map_eq_nil_iff.1 (Eq.symm hsame)
      exact fun c c' f hc hc' hf hbreak => .comma hc hc' hf hbreak hbroken
    | false =>
      cases owed' with
      | false => exact hbroken.prepend hsame
      | true =>
        obtain rfl := hnone (Or.inr rfl)
        obtain rfl := List.map_eq_nil_iff.1 (Eq.symm hsame)
        exact hbroken
  · exact fun c c' f hc hc' hf hbreak =>
      .deeper hopens hc hc' hf hindent hbreak (by simpa using hl) hbroken

/-- The layout of a token in the two passes. -/
theorem LaidOut.broken (h : LaidOut t start layout s₁)
    (ht : t.Tracks pending t' d (blocks owed w)) (hfresh : owed = true → t.fresh = false)
    (hplace : pending = true →
      0 < t.depth ∨ opens ∧ column t.columns < w ∧ start + d = t'.lineStart + w) :
    ∃ owed' layout' s₁', LaidOut t' (start + d) layout' s₁' ∧
      Entered opens pending owed owed' layout layout' ∧ (0 < t.depth → owed' = owed) ∧
      s₁.Tracks false s₁' d (blocks owed' w) := by
  cases pending with
  | false =>
    cases owed with
    | false =>
      obtain ⟨layout', s₁', hlaid', hsame, htracks⟩ := h.tracks ht
      exact ⟨false, layout', s₁', hlaid', Or.inl ⟨rfl, hsame, by simp⟩, fun _ => rfl, htracks⟩
    | true =>
      have hwithin := hfresh rfl
      obtain ⟨rfl, rfl⟩ := h.eq_of_within hwithin
      have hwithin' : t'.fresh = false := by rw [ht.fresh, hwithin]; rfl
      exact ⟨true, [], t', .within hwithin', Or.inl ⟨rfl, rfl, by simp⟩, fun _ => rfl, ht⟩
  | true =>
    have hwithin := ht.within rfl
    obtain ⟨rfl, rfl⟩ := h.eq_of_within hwithin
    have hfresh' : t'.fresh = true := by rw [ht.fresh, Bool.or_true]
    have hdepth : t'.depth = s₁.depth := ht.depth
    obtain ⟨-, -, -, hcolumns, hbraces, hparens⟩ := ht
    rcases Nat.eq_zero_or_pos s₁.depth with hzero | hpos
    · obtain ⟨hbraces', hparens'⟩ := depth_eq_zero.1 (hdepth.trans hzero)
      obtain ⟨hopens, hcolumn, hstart⟩ := (hplace rfl).resolve_left (by omega)
      have hcol : start + d - t'.lineStart = w := by omega
      cases owed with
      | false =>
        have hdeeper : column t'.columns < w := hcolumns ▸ hcolumn
        exact ⟨true, _, _, .deeper hfresh' hbraces' hparens' hcol hdeeper,
          Or.inr ⟨hopens, rfl, rfl, rfl, rfl, _, rfl, rfl⟩, by omega, by rw [hwithin]; rfl, by simp,
          by simp [hwithin], congrArg (w :: ·) hcolumns, hbraces, hparens⟩
      | true =>
        have hinner : column t'.columns = w := by rw [hcolumns]; rfl
        have hleft : outdent w t'.columns = t'.columns := by
          rw [hcolumns]
          exact List.dropWhile_cons_of_neg (by simp)
        have hlaid' : LaidOut t' (start + d) _ _ :=
          .level hfresh' hbraces' hparens' hcol (by omega) (by rw [hleft, hinner])
        rw [hleft, Nat.sub_self] at hlaid'
        exact ⟨true, _, _, hlaid', Or.inl ⟨rfl, rfl, by simp⟩, fun _ => rfl, by rw [hwithin]; rfl,
          by simp, by simp [hwithin], hcolumns, hbraces, hparens⟩
    · have hinside : t'.braces ≠ 0 ∨ t'.parens ≠ 0 :=
        not_and_or.1 fun hnone => by
          have hzero := depth_eq_zero.2 hnone
          omega
      exact ⟨owed, _, _, .inside hfresh' hinside, Or.inl ⟨rfl, rfl, by simp⟩, fun _ => rfl,
        by rw [hwithin]; rfl, by simp, by simp [hwithin], hcolumns, hbraces, hparens⟩

theorem put_broken {t₁ : State} (ht : t.Tracks pending t' d (blocks owed w))
    (hfresh : owed = true → t.fresh = false)
    (hplace : pending = true →
      0 < t.depth ∨ opens ∧ column t.columns < w ∧ start + d = t'.lineStart + w)
    (hne : token ≠ .newline) (hput : put t start stop token = .ok (here, t₁)) :
    ∃ layout l owed' layout' l' t₂, here = layout ++ [l] ∧
      l.item = .token token ∧ l.start = start ∧ l.stop = stop ∧
      put t' (start + d) (stop + d) token = .ok (layout' ++ [l'], t₂) ∧ l'.item = .token token ∧
      Entered opens pending owed owed' layout layout' ∧ (0 < t.depth → owed' = owed) ∧
      t₁.Tracks false t₂ d (blocks owed' w) ∧ t₁.fresh = false ∧ opened layout = 0 ∧
      (t.fresh = false → layout = [] ∧ t₁.columns = t.columns) := by
  rcases put_cases hput with ⟨heq, -⟩ | ⟨-, layout, s₁, s₂, hlaid, hcounted, rfl, rfl⟩
  · exact absurd heq hne
  · obtain ⟨owed', layout', s₁', hlaid', hentered, howed, htracks⟩ := hlaid.broken ht hfresh hplace
    obtain ⟨line, t₂, hput', htracks'⟩ := put_tracks stop (stop + d) hne hlaid' htracks hcounted
    obtain ⟨hfresh₁, -⟩ := hlaid.frame
    obtain ⟨hfresh₂, -, -, -, hcolumns⟩ := hcounted.frame
    refine ⟨layout, _, owed', layout', _, t₂, rfl, rfl, rfl, rfl, hput', rfl, hentered, howed,
      htracks', hfresh₂.trans hfresh₁, hlaid.depth.2, fun hwithin => ?_⟩
    obtain ⟨rfl, rfl⟩ := hlaid.eq_of_within hwithin
    exact ⟨rfl, hcolumns⟩

theorem Inside.behind {t₁ : State} (h : Inside breaks t (here ++ items))
    (hput : put t start stop token = .ok (here, t₁)) : Inside breaks t₁ items := by
  rintro front l rest rfl hl hbreak
  have hdepth := depth_put hput
  have hinside := h (here ++ front) l rest (by simp) hl hbreak
  rw [opened_append] at hinside
  omega

theorem Closing.behind {t₁ : State} {l : Located} (h : Closing breaks opens w t (l :: items))
    (hl : l.IsSolid) (hput : put t start stop token = .ok ([l], t₁)) (hfresh : t₁.fresh = false)
    (hcolumns : t₁.columns = t.columns) : Closing breaks opens w t₁ items := by
  obtain ⟨line, feed, behind, hsplit, hline, hfeed, hdepth, hshallow, hnone⟩ := h.ending.split
  refine ⟨h.opens_, hfresh, by rw [hcolumns]; exact h.column, ?_, ?_⟩
  · cases line with
    | nil =>
      obtain ⟨rfl, -⟩ := List.cons.inj hsplit
      obtain ⟨token', hitem, hne⟩ := hl
      rw [hfeed] at hitem
      exact absurd (Item.token.inj hitem).symm hne
    | cons first line =>
      obtain ⟨rfl, rfl⟩ := List.cons.inj hsplit
      have hput' := depth_put hput
      have hopened := opened_append [l] line
      rw [List.singleton_append] at hopened
      exact ⟨line, feed, behind, rfl, fun e he => hline e (List.mem_cons_of_mem _ he), hfeed,
        by omega, hshallow, hnone⟩
  · rintro front e next rest b rfl
    exact h.ending.width (l :: front) e next rest b rfl

theorem Closing.of_newline {feed : Located} (h : Closing breaks opens w t (feed :: items))
    (hfeed : feed.item = .token .newline) :
    t.depth = 0 ∧ items.head?.map Located.item ≠ some .indent ∧ Unbroken breaks items := by
  obtain ⟨line, feed₁, behind, hsplit, hline, -, hdepth, hshallow, hnone⟩ := h.ending.split
  cases line with
  | nil =>
    obtain ⟨rfl, rfl⟩ := List.cons.inj hsplit
    rw [opened_nil] at hdepth
    exact ⟨by omega, hshallow, hnone⟩
  | cons first line =>
    obtain ⟨rfl, -⟩ := List.cons.inj hsplit
    exact absurd (hline _ List.mem_cons_self) (not_solid_of_newline hfeed)

/-- The broken line ends as the line does, and the block that its line breaks have opened ends
behind it. -/
theorem Follows.of_behind {feed feed' : Located} {behind behind' : List Located}
    (hfeed : feed.item = .token .newline) (hfeed' : feed'.item = .token .newline)
    (h : ∀ feed feed' : Located, feed.item = .token .newline → feed'.item = .token .newline →
      Broken (fun n => (breaks n).isSome) opens owed (feed :: behind) (feed' :: behind')) :
    Follows breaks opens pending owed (feed :: behind)
      ((if pending then [] else [feed']) ++ behind') := by
  unfold Follows
  cases pending with
  | true =>
    intro l l' f hl hl' hf _
    have hsolid : owed = true → l.IsSolid := fun _ => ⟨_, hl, by decide⟩
    exact .item (hl.trans hl'.symm) hsolid (h feed f hfeed hf)
  | false => exact h feed feed' hfeed hfeed'

/-- A line break that the text had stands in the broken text, unless one was put in front of it. -/
theorem Follows.newline {fresh : Bool} {feed feed' : Located} {others others' : List Located}
    (hfeed : feed.item = .token .newline) (hfeed' : feed'.item = .token .newline)
    (hpending : pending = true → fresh = false)
    (h : Follows breaks opens false false others others') :
    Follows breaks opens pending false ((if fresh then [] else [feed]) ++ others)
      ((if fresh || pending then [] else [feed']) ++ others') := by
  have hbroken : Broken (fun n => (breaks n).isSome) opens false others others' := h
  unfold Follows
  cases pending with
  | true =>
    rw [hpending rfl]
    intro l l' f hl hl' hf _
    exact .item (hl.trans hl'.symm) (by simp) (.item (hfeed.trans hf.symm) (by simp) hbroken)
  | false =>
    rw [Bool.or_false]
    cases fresh with
    | true => exact hbroken
    | false => exact .item (hfeed.trans hfeed'.symm) (by simp) hbroken

/-- The line with the line breaks ends here. -/
theorem drive_closing {feed : Located} (h : Moved breaks size size' d spots spots')
    (hclosing : Closing breaks opens w t (feed :: items)) (hfeed : feed.item = .token .newline)
    (ht : s₁.Tracks false s₂ d (blocks owed w)) (hfresh : s₁.fresh = true)
    (hdepth : s₁.depth = t.depth) (hcolumns : s₁.columns = t.columns)
    (hdrive : drive size s₁ spots = .ok items) :
    ∃ items', drive size' s₂ spots' = .ok items' ∧ ∀ feed' : Located,
      feed'.item = .token .newline → Follows breaks opens pending owed (feed :: items)
        ((if pending then [] else [feed']) ++ items') := by
  obtain ⟨hzero, hshallow, hnone⟩ := hclosing.of_newline hfeed
  obtain ⟨items', hdrive', hbroken⟩ := drive_behind h ht hfresh (hdepth.trans hzero)
    (hcolumns ▸ hclosing.column) hdrive hnone hshallow
  exact ⟨items', hdrive', fun feed' hfeed' => Follows.of_behind hfeed hfeed' hbroken⟩

/-- Where a line break may be put behind a token. -/
def Fits (breaks : Nat → Option (List Char)) (opens : Prop) (w : Nat) (owed : Bool) (t : State)
    (items : List Located) : Prop :=
  owed = false ∧ Inside breaks t items ∨ Closing breaks opens w t items

/-- A line break stands in front of these items, which start at byte `lineStart` or, in brackets,
wherever they may. -/
def Placed (breaks : Nat → Option (List Char)) (opens : Prop) (w lineStart d : Nat) (t : State)
    (items : List Located) : Prop :=
  0 < t.depth ∨ Closing breaks opens w t items ∧
    ∀ next rest, items = next :: rest → next.IsSolid → next.start + d = lineStart + w

/-- The pass over the broken text follows the pass over the text at a token. -/
theorem put_fits {t₁ : State} {others : List Located}
    (ht : t.Tracks pending t' d (blocks owed w))
    (hfits : Fits breaks opens w owed t (here ++ others))
    (hplace : pending = true → Placed breaks opens w t'.lineStart d t (here ++ others))
    (hne : token ≠ .newline) (hput : put t start stop token = .ok (here, t₁)) :
    ∃ layout l owed' layout' l' t₂, here = layout ++ [l] ∧ l.item = .token token ∧ l.stop = stop ∧
      put t' (start + d) (stop + d) token = .ok (layout' ++ [l'], t₂) ∧ l'.item = .token token ∧
      Entered opens pending owed owed' layout layout' ∧ t₁.Tracks false t₂ d (blocks owed' w) ∧
      t₁.fresh = false ∧ Fits breaks opens w owed' t₁ others ∧
      (∀ lineStart d', token = .comma → (breaks stop).isSome →
        (∀ b next, breaks stop = some b → bytes b + next = stop + w →
          next + d' = lineStart + w) →
        Placed breaks opens w lineStart d' t₁ others) := by
  have hwithin : t.fresh = false → ∃ l, here = [l] ∧ l.start = start ∧ l.IsSolid := by
    intro hfresh
    rcases put_cases hput with ⟨heq, -⟩ | ⟨-, layout, s₁, s₂, hlaid, -, rfl, -⟩
    · exact absurd heq hne
    · obtain ⟨rfl, -⟩ := hlaid.eq_of_within hfresh
      exact ⟨_, rfl, rfl, _, rfl, hne⟩
  have hfresh : owed = true → t.fresh = false := by
    intro howed
    rcases hfits with ⟨hnot, -⟩ | hclosing
    · rw [howed] at hnot
      cases hnot
    · exact hclosing.fresh
  have hstarts : pending = true →
      0 < t.depth ∨ opens ∧ column t.columns < w ∧ start + d = t'.lineStart + w := by
    intro hpending
    refine (hplace hpending).imp_right fun ⟨hclosing, hnext⟩ =>
      ⟨hclosing.opens_, hclosing.column, ?_⟩
    obtain ⟨l, rfl, rfl, hl⟩ := hwithin hclosing.fresh
    exact hnext l others rfl hl
  obtain ⟨layout, l, owed', layout', l', t₂, rfl, hitem, hstart, hstop, hput', hitem', hentered,
    howed, htracks, hfresh₁, hopened, hlayout⟩ := put_broken ht hfresh hstarts hne hput
  have hsolid : l.IsSolid := ⟨_, hitem, hne⟩
  refine ⟨layout, l, owed', layout', l', t₂, rfl, hitem, hstop, hput', hitem', hentered, htracks,
    hfresh₁, ?_⟩
  by_cases hclosing : Closing breaks opens w t (layout ++ [l] ++ others)
  · obtain ⟨rfl, hcolumns⟩ := hlayout hclosing.fresh
    have hbehind : Closing breaks opens w t₁ others :=
      Closing.behind hclosing hsolid hput hfresh₁ hcolumns
    refine ⟨Or.inr hbehind, fun lineStart d' _ hbreak hwidth => Or.inr ⟨hbehind, ?_⟩⟩
    rintro next rest rfl hnext
    obtain ⟨b, hb⟩ := Option.isSome_iff_exists.1 hbreak
    have hcolumn := hclosing.ending.width [] l next rest b rfl hsolid hnext (hstop ▸ hb)
    rw [hstop] at hcolumn
    exact hwidth b next.start hb hcolumn
  · obtain ⟨hnot, hinside⟩ := hfits.resolve_right hclosing
    have hbehind := hinside.behind hput
    have howed' : owed' = false := by
      rcases hentered with ⟨heq, -⟩ | ⟨-, hpending, -⟩
      · exact heq.trans hnot
      · rcases hplace hpending with hdepth | ⟨hclosing', -⟩
        · exact (howed hdepth).trans hnot
        · exact absurd hclosing' hclosing
    refine ⟨Or.inl ⟨howed', hbehind⟩, fun lineStart d' hcomma hbreak _ => Or.inl ?_⟩
    have hdepth := hinside layout l others (by simp) hsolid (hstop ▸ hbreak)
    have hput₁ := depth_put hput
    have hnone : opened [l] = 0 := opened_of_none (by rw [hitem, hcomma]; rfl)
    rw [opened_append, hnone, hopened] at hput₁
    rw [hopened] at hdepth
    omega

theorem finish_broken (ht : t.Tracks pending t' d (blocks owed w))
    (hfinish : finish t size = .ok items) (hfits : Fits breaks opens w owed t items)
    (hplace : pending = true → Placed breaks opens w t'.lineStart d t items) :
    ∃ items', finish t' size' = .ok items' ∧ Follows breaks opens pending owed items items' := by
  by_cases hclosing : Closing breaks opens w t items
  · have hwithin := hclosing.fresh
    rw [finish_line t size 0, hwithin] at hfinish
    cases hend : finish { t with fresh := true, lineStart := 0 } size with
    | error e =>
      rw [hend] at hfinish
      cases hfinish
    | ok behind =>
      rw [hend] at hfinish
      obtain rfl := Except.ok.inj hfinish
      have htracks : State.Tracks false { t with fresh := true, lineStart := 0 }
          { t' with fresh := true, lineStart := 0 + d } d (blocks owed w) :=
        ⟨rfl, by simp, fun _ => rfl, ht.columns, ht.braces, ht.parens⟩
      obtain ⟨behind', hend', hfollows⟩ := drive_closing
        (.nil : Moved breaks size size' d [] []) hclosing rfl htracks rfl rfl rfl hend
      refine ⟨_, ?_, hfollows ⟨.token .newline, t'.line, size', size'⟩ rfl⟩
      rw [drive] at hend'
      rw [finish_line t' size' (0 + d), hend', ht.fresh, hwithin]
      rfl
  · obtain ⟨rfl, hinside⟩ := hfits.resolve_right hclosing
    cases pending with
    | true =>
      have hdepth := (hplace rfl).resolve_right fun h => hclosing h.1
      obtain ⟨hbraces, hparens, -⟩ := finish_eq_ok.1 hfinish
      exact absurd (depth_eq_zero.2 ⟨hbraces, hparens⟩) (Nat.ne_of_gt hdepth)
    | false =>
      obtain ⟨items', hfinish', hsame⟩ := finish_same ht hfinish size'
      exact ⟨items', hfinish', .same hsame⟩

/-- A text that is broken behind commas has the items of the text, but for the line breaks and the
block that they may open. -/
theorem drive_broken (h : Moved breaks size size' d spots spots')
    (ht : t.Tracks pending t' d (blocks owed w)) (hdrive : drive size t spots = .ok items)
    (hfits : Fits breaks opens w owed t items)
    (hplace : pending = true → Placed breaks opens w t'.lineStart d t items) :
    ∃ items', drive size' t' spots' = .ok items' ∧
      Follows breaks opens pending owed items items' := by
  induction h generalizing t t' pending owed items with
  | nil => exact finish_broken ht hdrive hfits hplace
  | @same d s s' spots spots' token none start stop moved ih =>
    obtain ⟨here, t₁, others, hput, hothers, rfl⟩ := drive_cons hdrive
    by_cases hnewline : s.token = .newline
    · rw [hnewline, put_newline] at hput
      obtain ⟨rfl, rfl⟩ := Prod.mk.inj (Except.ok.inj hput)
      have hput' := put_newline t' (size' - bytes s'.front) (size' - bytes s'.back)
      rw [← hnewline, ← token, ht.fresh] at hput'
      rw [drive_of_put hput', stop]
      have htracks := ht.newLine (size - bytes s.back)
      by_cases hclosing : Closing breaks opens w t ((if t.fresh = true then []
          else [⟨.token .newline, t.line, size - bytes s.front, size - bytes s.back⟩]) ++ others)
      · rw [hclosing.fresh] at hclosing ⊢
        obtain ⟨others', hdrive', hfollows⟩ :=
          drive_closing moved hclosing rfl htracks rfl rfl rfl hothers
        rw [hdrive']
        exact ⟨_, rfl, hfollows _ (by rw [token, hnewline])⟩
      · obtain ⟨rfl, hinside⟩ := hfits.resolve_right hclosing
        have hbehind := hinside.behind (put_newline t _ _)
        obtain ⟨others', hdrive', hfollows⟩ := ih htracks hothers (Or.inl ⟨rfl, hbehind⟩) (by simp)
        rw [hdrive']
        exact ⟨_, rfl, hfollows.newline rfl (by rw [token, hnewline]) ht.within⟩
    · obtain ⟨layout, l, owed', layout', l', t₂, rfl, hitem, -, hput', hitem', hentered, htracks, -,
        hfits', -⟩ := put_fits ht hfits hplace hnewline hput
      rw [← start, ← stop, ← token] at hput'
      obtain ⟨others', hdrive', hbroken⟩ := ih htracks hothers hfits' (by simp)
      rw [drive_of_put hput', hdrive']
      refine ⟨_, rfl, ?_⟩
      have hmore := hentered.follows ⟨_, hitem, hnewline⟩
        (.item (hitem.trans hitem'.symm) (fun _ => ⟨_, hitem, hnewline⟩) hbroken)
      simpa using hmore
  | @break_ d s s' feed spots spots' b token token' some start stop feed_token feed_start feed_stop
      moved ih =>
    obtain ⟨here, t₁, others, hput, hothers, rfl⟩ := drive_cons hdrive
    have hnewline : s.token ≠ .newline := by rw [token]; decide
    obtain ⟨layout, l, owed', layout', l', t₂, rfl, hitem, hstop, hput', hitem', hentered, htracks,
      hfresh, hfits', hplaced⟩ := put_fits ht hfits hplace hnewline hput
    have hbreak : (breaks (size - bytes s.back)).isSome := by rw [some]; rfl
    have hwithin' : t₂.fresh = false := by rw [htracks.fresh, hfresh]; rfl
    rw [← start, ← stop] at hput'
    have hfeed := put_newline t₂ (size' - bytes feed.front) (size' - bytes feed.back)
    rw [← feed_token, hwithin', feed_stop] at hfeed
    rw [token, ← token'] at hput'
    have htracks' : t₁.Tracks true (t₂.newLine (size - bytes s.back + d + 1)) (d + 1 + bytes b)
        (blocks owed' w) :=
      ⟨by rw [hfresh]; rfl, fun _ => hfresh, by simp [hfresh], htracks.columns, htracks.braces,
        htracks.parens⟩
    obtain ⟨others', hdrive', hfollows⟩ := ih htracks' hothers hfits' fun _ =>
      hplaced _ _ token hbreak fun b' next hb' hwidth => by
        obtain rfl := Option.some.inj (some.symm.trans hb')
        show next + (d + 1 + bytes b) = size - bytes s.back + d + 1 + w
        omega
    rw [← feed_stop] at hfeed hdrive'
    rw [drive_of_put hput', drive_of_put hfeed, hdrive']
    refine ⟨_, rfl, ?_⟩
    have hbroken := hfollows l l' ⟨.token feed.token, t₂.line, size' - bytes feed.front,
      size' - bytes feed.back⟩ (by rw [hitem, token]) (by rw [hitem', token]) (by rw [feed_token])
      (hstop ▸ hbreak)
    have hmore := hentered.follows ⟨_, hitem, hnewline⟩ hbroken
    simpa using hmore

/-! ## The line that is broken -/

/-- A line can be laid out before its first token is put. -/
theorem drive_indented (hne : s.token ≠ .newline)
    (hlaid : LaidOut t (size - bytes s.front) layout s₁) :
    drive size t (s :: spots) = (drive size s₁ (s :: spots)).map (layout ++ ·) := by
  rw [drive, drive]
  unfold put
  rw [if_neg hne, if_neg hne, indentation_eq_ok.2 hlaid,
    indentation_eq_ok.2 (.within hlaid.frame.1)]
  simp only [bind, Except.bind, pure, Except.pure]
  cases bracket s₁ s.token with
  | error e => rfl
  | ok s₂ =>
    dsimp only
    cases drive size _ spots with
    | error e => rfl
    | ok others =>
      show Except.ok _ = Except.ok _
      simp

theorem LaidOut.column (h : LaidOut t start layout s₁) (hfresh : t.fresh = true)
    (hdepth : t.depth = 0) : column s₁.columns = start - t.lineStart := by
  cases h with
  | within fresh =>
    rw [hfresh] at fresh
    cases fresh
  | inside _ opened => exact absurd (depth_eq_zero.1 hdepth) (not_and_or.2 opened)
  | deeper _ _ _ column_eq => exact column_eq.symm
  | level _ _ _ column_eq _ level => exact (column_eq.trans level).symm

/-- The rest of a line is broken behind its layout. -/
theorem drive_entered (h : Moved breaks size size' d (s :: spots) spots')
    (ht : t.Tracks false t' d []) (hne : s.token ≠ .newline)
    (hlaid : LaidOut t (size - bytes s.front) layout s₁)
    (hdrive : drive size t (s :: spots) = .ok (layout ++ items))
    (hclosing : Closing breaks opens w s₁ items) :
    ∃ items', drive size' t' spots' = .ok items' ∧
      Broken (fun n => (breaks n).isSome) opens false (layout ++ items) items' := by
  obtain ⟨layout', s₁', hlaid', hsame, htracks⟩ := hlaid.tracks ht
  have hrest : drive size s₁ (s :: spots) = .ok items := by
    rw [drive_indented hne hlaid] at hdrive
    cases hinner : drive size s₁ (s :: spots) with
    | error e =>
      rw [hinner] at hdrive
      cases hdrive
    | ok others =>
      rw [hinner] at hdrive
      rw [List.append_cancel_left (Except.ok.inj hdrive)]
  obtain ⟨items', hrest', hfollows⟩ := drive_broken h htracks hrest
    (show Fits breaks opens w false s₁ items from Or.inr hclosing) (by simp)
  have hspots : drive size' t' spots' = (drive size' s₁' spots').map (layout' ++ ·) := by
    cases h with
    | same token none start stop _ =>
      rw [← start] at hlaid'
      exact drive_indented (token ▸ hne) hlaid'
    | break_ token token' some start stop _ _ _ _ =>
      rw [← start] at hlaid'
      exact drive_indented (by rw [token']; decide) hlaid'
  rw [hspots, hrest']
  exact ⟨_, rfl, Broken.prepend hsame hfollows⟩

/-- Where the line starts that is reached behind some tokens. -/
def lineStartOf (size : Nat) (lineStart : Nat) (spots : List Spot) : Nat :=
  spots.foldl (fun n s => if s.token = .newline then size - bytes s.back else n) lineStart

theorem lineStartOf_cons (lineStart : Nat) :
    lineStartOf size lineStart (s :: spots) =
      lineStartOf size (if s.token = .newline then size - bytes s.back else lineStart) spots :=
  rfl

/-- A token among the items is behind those that are put first, or the last of them. -/
theorem front_cases {front rest others : List Located} {l first : Located}
    (h : layout ++ [l] ++ others = front ++ first :: rest) (hlayout : ∀ e ∈ layout, ¬ e.IsSolid)
    (hfirst : first.IsSolid) :
    (∃ front', front = layout ++ [l] ++ front' ∧ others = front' ++ first :: rest) ∨
      front = layout ∧ first = l ∧ rest = others := by
  rcases List.append_eq_append_iff.1 h with ⟨front', hfront, hothers⟩ | ⟨more, hhere, hrest⟩
  · exact Or.inl ⟨front', hfront, hothers⟩
  · cases more with
    | nil => exact Or.inl ⟨[], by simpa using hhere.symm, by simpa using hrest.symm⟩
    | cons e more =>
      obtain ⟨rfl, rfl⟩ := List.cons.inj hrest
      rcases List.eq_nil_or_concat more with rfl | ⟨others', e', rfl⟩
      · obtain ⟨hfront, hl⟩ := List.append_inj' hhere rfl
        exact Or.inr ⟨hfront.symm, (List.cons.inj hl).1.symm, rfl⟩
      · have hhere' : layout ++ [l] = (front ++ first :: others') ++ [e'] := by simpa using hhere
        obtain ⟨rfl, -⟩ := List.append_inj' hhere' rfl
        exact absurd hfirst (hlayout first (by simp))

/-- The line that is broken starts with the token that is put now, or behind it. -/
theorem put_continued {front rest others : List Located} {first : Located} {t₁ : State}
    (hopens : opens) (h : Moved breaks size size' d (s :: spots) spots')
    (ht : t.Tracks false t' d []) (hne : s.token ≠ .newline)
    (hdrive : drive size t (s :: spots) = .ok (here ++ others))
    (hput : put t (size - bytes s.front) (size - bytes s.back) s.token = .ok (here, t₁))
    (hsplit : here ++ others = front ++ first :: rest) (hfresh : front = [] → t.fresh = true)
    (hdepth : (t.depth : Int) + opened front = 0) (hfirst : first.IsSolid)
    (hending : Ending breaks w 0 (first :: rest))
    (hcolumn : size - bytes s.front = first.start → first.start - t.lineStart < w) :
    (∃ front', front = here ++ front' ∧ others = front' ++ first :: rest) ∨
      ∃ items', drive size' t' spots' = .ok items' ∧
        Broken (fun n => (breaks n).isSome) opens false (front ++ first :: rest) items' := by
  rcases put_cases hput with ⟨heq, -⟩ | ⟨-, layout, s₁, s₂, hlaid, -, rfl, -⟩
  · exact absurd heq hne
  · obtain ⟨hdepth₁, hopened⟩ := hlaid.depth
    refine (front_cases hsplit hlaid.not_solid hfirst).imp_right ?_
    rintro ⟨rfl, rfl, rfl⟩
    have houtside : t.depth = 0 := by omega
    have hstart : t.fresh = true := by
      by_contra hnot
      obtain ⟨rfl, -⟩ := hlaid.eq_of_within (Bool.not_eq_true _ ▸ hnot)
      exact hnot (hfresh rfl)
    have hclosing : Closing breaks opens w s₁ (_ :: rest) :=
      ⟨hopens, hlaid.frame.1, by rw [hlaid.column hstart houtside]; exact hcolumn rfl,
        by rw [hdepth₁, houtside]; exact hending⟩
    rw [List.append_assoc] at hdrive
    exact drive_entered h ht hne hlaid hdrive hclosing

theorem lineStart_put {t₁ : State} (h : put t start stop token = .ok (here, t₁)) :
    t₁.lineStart = if token = .newline then stop else t.lineStart := by
  rcases put_cases h with ⟨rfl, -, rfl⟩ | ⟨hne, layout, s₁, s₂, hlaid, hcounted, -, rfl⟩
  · rfl
  · rw [if_neg hne]
    exact hcounted.frame.2.2.2.1.trans hlaid.frame.2.2.2.1

/-- A text that is broken within one line outside brackets. -/
theorem drive_continued {front rest : List Located} {first : Located} (hopens : opens)
    (h : Moved breaks size size' d spots spots') (ht : t.Tracks false t' d [])
    (hdrive : drive size t spots = .ok (front ++ first :: rest)) (hnone : Unbroken breaks front)
    (hlast : ∀ l, front.getLast? = some l → ¬ l.IsSolid) (hfresh : front = [] → t.fresh = true)
    (hdepth : (t.depth : Int) + opened front = 0) (hfirst : first.IsSolid)
    (hending : Ending breaks w 0 (first :: rest))
    (hcolumn : ∀ before s after, spots = before ++ s :: after → s.token ≠ .newline →
      size - bytes s.front = first.start →
      first.start - lineStartOf size t.lineStart before < w) :
    ∃ items', drive size' t' spots' = .ok items' ∧
      Broken (fun n => (breaks n).isSome) opens false (front ++ first :: rest) items' := by
  induction h generalizing t t' front with
  | nil => exact absurd hfirst (finish_spec hdrive first (by simp))
  | @same d s s' spots spots' token none start stop moved ih =>
    obtain ⟨here, t₁, others, hput, hothers, hsplit⟩ := drive_cons hdrive
    have hmoved : Moved breaks size size' d (s :: spots) (s' :: spots') :=
      .same token none start stop moved
    have hmore : (∃ front', front = here ++ front' ∧ others = front' ++ first :: rest ∧
        (front' = [] → t₁.fresh = true)) ∨
        ∃ items', drive size' t' (s' :: spots') = .ok items' ∧
          Broken (fun n => (breaks n).isSome) opens false (front ++ first :: rest) items' := by
      by_cases hnewline : s.token = .newline
      · rw [hnewline, put_newline] at hput
        obtain ⟨rfl, rfl⟩ := Prod.mk.inj (Except.ok.inj hput)
        left
        cases hstart : t.fresh with
        | true =>
          rw [hstart] at hsplit
          exact ⟨front, rfl, hsplit.symm, fun _ => rfl⟩
        | false =>
          rw [hstart] at hsplit
          cases front with
          | nil =>
            obtain ⟨rfl, -⟩ := List.cons.inj hsplit
            exact absurd hfirst (not_solid_of_newline rfl)
          | cons l front =>
            obtain ⟨rfl, hrest⟩ := List.cons.inj hsplit
            exact ⟨front, rfl, hrest.symm, fun _ => rfl⟩
      · rw [hsplit] at hdrive
        refine (put_continued hopens hmoved ht hnewline hdrive hput hsplit.symm hfresh hdepth
          hfirst hending fun hs => hcolumn [] s spots rfl hnewline hs).imp_left ?_
        rintro ⟨front', rfl, rfl⟩
        refine ⟨front', rfl, rfl, ?_⟩
        rintro rfl
        obtain ⟨layout, l, rfl, hitem, -⟩ := put_token hnewline hput
        exact absurd ⟨_, hitem, hnewline⟩ (hlast l (by simp))
    rcases hmore with ⟨front', rfl, rfl, hfresh₁⟩ | hdone
    · obtain ⟨here', t₂, hput', hsame, htracks⟩ := put_same ht hput
      rw [← start, ← stop, ← token] at hput'
      have hdepth₁ := depth_put hput
      rw [opened_append] at hdepth
      obtain ⟨others', hdrive', hbroken⟩ := ih htracks hothers hnone.append_right
        (fun l hl => hlast l (by rw [List.getLast?_append, hl]; rfl)) hfresh₁ (by omega)
        fun before e after hspots hne hplace => by
          have hbefore := hcolumn (s :: before) e after (by rw [hspots]; rfl) hne hplace
          rwa [lineStartOf_cons, ← lineStart_put hput] at hbefore
      rw [drive_of_put hput', hdrive', List.append_assoc]
      exact ⟨_, rfl, hbroken.prepend hsame⟩
    · exact hdone
  | @break_ d s s' feed spots spots' b token token' some start stop feed_token feed_start feed_stop
      moved ih =>
    obtain ⟨here, t₁, others, hput, hothers, hsplit⟩ := drive_cons hdrive
    have hne : s.token ≠ .newline := by rw [token]; decide
    rw [hsplit] at hdrive
    refine Or.resolve_left (put_continued hopens
      (.break_ token token' some start stop feed_token feed_start feed_stop moved)
      ht hne hdrive hput hsplit.symm hfresh hdepth hfirst hending
      fun hs => hcolumn [] s spots rfl hne hs) ?_
    rintro ⟨front', rfl, -⟩
    obtain ⟨layout, l, rfl, hitem, -, hstop, -⟩ := put_token hne hput
    have hbreak := hnone l (by simp) ⟨_, hitem, hne⟩
    rw [hstop, some] at hbreak
    cases hbreak

/-- The line that is reached behind a stretch of text starts behind its last line break. -/
theorem lineStartOf_lexes {m m' : Bool} {cs above within v : List Char} {n : Nat}
    (h : Lexes m cs spots m' v) (hcs : cs = above ++ (within ++ v)) (hwithin : '\n' ∉ within)
    (habove : above = [] ∨ above.getLast? = some '\n') (hplace : n + bytes cs = size) :
    lineStartOf size n spots = n + bytes above := by
  induction hlength : above.length using Nat.strongRecOn generalizing m cs above n spots with
  | ind length ih =>
    by_cases hfeed : '\n' ∈ above
    · obtain ⟨a, above', rfl, ha⟩ := List.eq_append_cons_of_mem hfeed
      obtain ⟨first, m₁, second, rfl, -, hsecond⟩ := h.at_feed
        (show cs = a ++ '\n' :: (above' ++ (within ++ v)) by rw [hcs]; simp) ha
        ((List.suffix_append _ _).trans (List.suffix_append _ _))
      have hwidth : bytes (a ++ '\n' :: above') = bytes a + 1 + bytes above' := by
        rw [bytes_append, Text.bytes_cons, ← Nat.add_assoc]
        rfl
      rw [hcs, bytes_append, hwidth] at hplace
      have hstart : size - bytes (above' ++ (within ++ v)) = n + bytes a + 1 := by
        rw [bytes_append]
        omega
      have hlast : above' = [] ∨ above'.getLast? = some '\n' := by
        refine or_iff_not_imp_left.2 fun hne => ?_
        have hall := habove.resolve_left (by simp)
        rwa [← List.singleton_append, ← List.append_assoc, List.getLast?_append_of_ne_nil _ hne]
          at hall
      have hshorter : above'.length < length := by
        rw [← hlength, List.length_append, List.length_cons]
        omega
      have hrest := ih _ hshorter hsecond rfl hlast (n := n + bytes a + 1)
        (by rw [bytes_append above']; omega) rfl
      unfold lineStartOf at hrest ⊢
      rw [List.foldl_append, List.foldl_cons, if_pos rfl, hstart, hrest, hwidth]
      omega
    · have hnil : above = [] :=
        habove.resolve_right fun hlast => hfeed (List.mem_of_getLast? hlast)
      subst hnil
      rw [List.nil_append] at hcs
      subst hcs
      have hnone := h.no_newline hwithin
      clear h hlength ih
      unfold lineStartOf
      induction spots with
      | nil => rfl
      | cons s spots ih =>
        rw [Lexeme.bares_cons, List.mem_cons, not_or] at hnone
        have hs : s.token ≠ .newline := by
          intro heq
          rw [heq] at hnone
          exact hnone.1 rfl
        rw [List.foldl_cons, if_neg hs]
        exact ih hnone.2

end Layout

open Layout (Unbroken)

variable {breaks : Nat → Option (List Char)} {w : Nat} {source : List Char}
variable {items items' xs ys front line : List Located}

/-- Line breaks are put inside brackets only. -/
def Bracketed (breaks : Nat → Option (List Char)) (items : List Located) : Prop :=
  ∀ front l rest, items = front ++ l :: rest → l.IsSolid → (breaks l.stop).isSome → 0 < opened front

/-- Line breaks are put into a line outside brackets only. The text behind each is at column `w`,
which is deeper than the line, and the next line is no deeper than the line. -/
structure OnOneLine (breaks : Nat → Option (List Char)) (w : Nat) (source : List Char)
    (items front line : List Located) : Prop where
  split : ∃ feed behind, items = front ++ (line ++ feed :: behind) ∧
    feed.item = .token .newline ∧ behind.head?.map Located.item ≠ some .indent ∧
    Unbroken breaks behind
  unbroken : Unbroken breaks front
  starts : ∀ before l, front = before ++ [l] → ¬ l.IsSolid
  solid : ∀ l ∈ line, l.IsSolid
  outside : opened front = 0
  closed : opened line = 0
  deeper : ∃ above within text first rest, source = above ++ (within ++ text) ∧
    (above = [] ∨ above.getLast? = some '\n') ∧ '\n' ∉ within ∧ line = first :: rest ∧
    first.start = bytes (above ++ within) ∧ bytes within < w
  width : ∀ before l next after b, line = before ++ l :: next :: after → breaks l.stop = some b →
    bytes b + next.start = l.stop + w

/-! ## Alike token streams -/

theorem AllAlike.of_append (h : AllAlike items (xs ++ ys)) :
    ∃ xs' ys', items = xs' ++ ys' ∧ AllAlike xs' xs ∧ AllAlike ys' ys :=
  ⟨items.take xs.length, items.drop xs.length, (List.take_append_drop _ _).symm,
    List.forall₂_take_append _ _ _ h, List.forall₂_drop_append _ _ _ h⟩

theorem AllAlike.eq_of_solid (h : AllAlike xs ys) (hsolid : ∀ l ∈ xs, l.IsSolid) : xs = ys := by
  induction h with
  | nil => rfl
  | cons hl _ ih =>
    rw [hl.2 (hsolid _ List.mem_cons_self),
      ih fun l hl => hsolid l (List.mem_cons_of_mem _ hl)]

theorem AllAlike.exists_of_mem (h : AllAlike xs ys) {l : Located} (hl : l ∈ ys) :
    ∃ l' ∈ xs, l'.Alike l := by
  induction h with
  | nil => cases hl
  | cons hab _ ih =>
    rcases List.mem_cons.1 hl with rfl | hl
    · exact ⟨_, List.mem_cons_self, hab⟩
    · obtain ⟨l', hl', halike⟩ := ih hl
      exact ⟨l', List.mem_cons_of_mem _ hl', halike⟩

theorem Syntax.SameItems.opened (h : SameItems xs ys) : opened xs = opened ys := by
  have hbrackets : ∀ items : List Located,
      brackets items = (items.map Located.item).filterMap Item.bracket? := by
    intro items
    rw [List.filterMap_map]
    rfl
  unfold StyleWeave.opened
  rw [hbrackets, hbrackets, h]

theorem Layout.Unbroken.of_alike (h : Unbroken breaks xs) (halike : AllAlike xs ys) :
    Unbroken breaks ys := by
  intro l hl hsolid
  obtain ⟨l', hl', hsame⟩ := halike.exists_of_mem hl
  rw [← hsame.symm.2 hsolid] at hl'
  exact h l hl' hsolid

theorem Bracketed.of_alike (h : Bracketed breaks items) (halike : AllAlike items items') :
    Bracketed breaks items' := by
  rintro front l rest rfl hl hbreak
  obtain ⟨front', behind, rfl, hfront, hbehind⟩ := halike.of_append
  cases hbehind with
  | cons hsame _ =>
    obtain rfl := hsame.symm.2 hl
    rw [← (Syntax.sameItems_of_alike hfront).opened]
    exact h front' _ _ rfl hl hbreak

theorem OnOneLine.of_alike (h : OnOneLine breaks w source items front line)
    (halike : AllAlike items items') : ∃ front', OnOneLine breaks w source items' front' line := by
  obtain ⟨⟨feed, behind, rfl, hfeed, hshallow, hbehind⟩, hunbroken, hstarts, hsolid, houtside,
    hclosed, hdeeper, hwidth⟩ := h
  obtain ⟨front', rest, rfl, hfront, hrest⟩ := (AllAlike.symm halike).of_append
  obtain ⟨line', behind', rfl, hline, hbehind'⟩ := hrest.of_append
  obtain rfl := (AllAlike.symm hline).eq_of_solid hsolid
  cases hbehind' with
  | @cons feed' _ behind' _ hsame hbehind' =>
    refine ⟨front', ⟨feed', behind', rfl, hsame.1.trans hfeed, ?_,
      hbehind.of_alike (AllAlike.symm hbehind')⟩, hunbroken.of_alike (AllAlike.symm hfront), ?_,
      hsolid, ?_, hclosed, hdeeper, hwidth⟩
    · rwa [(Syntax.sameItems_of_alike hbehind').head]
    · rintro before l rfl
      obtain ⟨before', last, rfl, -, hlast⟩ := (AllAlike.symm hfront).of_append
      cases hlast with
      | cons hl hnone =>
        cases hnone
        intro hsolid'
        have heq := hl.symm.2 hsolid'
        exact hstarts before' _ rfl (heq ▸ hsolid')
    · rwa [(Syntax.sameItems_of_alike hfront).opened]

theorem Syntax.Broken.of_alike {chosen : Nat → Prop} {opens : Prop} {owed : Bool}
    (h : Broken chosen opens owed xs ys) {xs' ys' : List Located} (hx : AllAlike xs xs')
    (hy : AllAlike ys ys') : Broken chosen opens owed xs' ys' := by
  have hcomma : ∀ {l l' : Located}, l.Alike l' → l.item = .token .comma → l = l' :=
    fun halike hitem => halike.2 ⟨_, hitem, by decide⟩
  induction h generalizing xs' ys' with
  | same same =>
    have hsame := (Syntax.sameItems_of_alike hx).symm.trans same
    exact .same (hsame.trans (Syntax.sameItems_of_alike hy))
  | item item solid _ ih =>
    obtain _ | ⟨hl, hx⟩ := hx
    obtain _ | ⟨hl', hy⟩ := hy
    refine .item (hl.1.symm.trans (item.trans hl'.1)) (fun howed => ?_) (ih hx hy)
    obtain rfl := hl.2 (solid howed)
    exact solid howed
  | comma item item' feed chosen_ _ ih =>
    obtain _ | ⟨hl, hx⟩ := hx
    obtain _ | ⟨hl', _ | ⟨hf, hy⟩⟩ := hy
    obtain rfl := hcomma hl item
    exact .comma item (hl'.1 ▸ item') (hf.1 ▸ feed) chosen_ (ih hx hy)
  | deeper opens_ item item' feed indent chosen_ solid _ ih =>
    obtain _ | ⟨hl, hx⟩ := hx
    obtain _ | ⟨hl', _ | ⟨hf, _ | ⟨hi, hy⟩⟩⟩ := hy
    obtain rfl := hcomma hl item
    refine .deeper opens_ item (hl'.1 ▸ item') (hf.1 ▸ feed) (hi.1 ▸ indent) chosen_ ?_ (ih hx hy)
    intro next hnext
    cases hx with
    | nil => cases hnext
    | cons hsame _ =>
      obtain rfl := Option.mem_some.1 hnext
      obtain rfl := hsame.2 (solid _ rfl)
      exact solid _ rfl
  | paid item item' dedent shallow same =>
    obtain _ | ⟨hl, hx⟩ := hx
    obtain _ | ⟨hl', _ | ⟨hd, hy⟩⟩ := hy
    have hsame := (Syntax.sameItems_of_alike hx).symm.trans same
    refine .paid (hl.1 ▸ item) (hl'.1 ▸ item') (hd.1 ▸ dedent) ?_
      (hsame.trans (Syntax.sameItems_of_alike hy))
    rwa [← (Syntax.sameItems_of_alike hx).head]

/-! ## The token stream -/

theorem Lexeme.mem_of_kept {fresh : Bool} {spots : List Spot} {s : Spot}
    (h : s ∈ Lexeme.kept fresh spots) : s ∈ spots := by
  induction spots generalizing fresh with
  | nil => cases h
  | cons first spots ih =>
    rw [Lexeme.kept] at h
    split at h
    · rcases List.mem_append.1 h with h | h
      · split at h
        · cases h
        · rw [List.mem_singleton.1 h]
          exact List.mem_cons_self
      · exact List.mem_cons_of_mem _ (ih h)
    · rcases List.mem_cons.1 h with rfl | h
      · exact List.mem_cons_self
      · exact List.mem_cons_of_mem _ (ih h)

/-- Breaks behind comma items are breaks behind comma tokens. -/
theorem behindCommas_of_items {spots : List Spot} (hlexes : Lexes false source spots false [])
    (htokens : tokenize source = .ok items)
    (hcommas : ∀ k b, breaks k = some b → ∃ l ∈ items, l.item = .token .comma ∧ l.stop = k) :
    Lexeme.BehindCommas breaks (bytes source) 0 spots := by
  intro k b hb _
  obtain ⟨l, hl, hcomma, rfl⟩ := hcommas k b hb
  have hmem : l ∈ tokens items := List.mem_filter.2 ⟨hl, by rw [hcomma]; rfl⟩
  obtain ⟨s, hs, hitem⟩ :
      ∃ s ∈ Lexeme.kept true (spots ++ [.ending]), s.IsItem (bytes source) l := by
    have hall := (tokens_of_lexes hlexes htokens).2
    generalize Lexeme.kept true (spots ++ [.ending]) = kept at hall ⊢
    generalize tokens items = placed at hall hmem
    induction hall with
    | nil => cases hmem
    | cons hfirst _ ih =>
      rcases List.mem_cons.1 hmem with rfl | hmem
      · exact ⟨_, List.mem_cons_self, hfirst⟩
      · obtain ⟨s, hs, hitem⟩ := ih hmem
        exact ⟨s, List.mem_cons_of_mem _ hs, hitem⟩
  have htoken : s.token = .comma := by
    have heq := hitem.item.symm.trans hcomma
    exact Item.token.inj heq
  have hmem' : s ∈ spots := by
    rcases List.mem_append.1 (Lexeme.mem_of_kept hs) with hs | hs
    · exact hs
    · rw [List.mem_singleton.1 hs] at htoken
      cases htoken
  have hlt := hlexes.back_lt hmem'
  have hstop := (hitem.place (by rw [htoken]; decide)).2
  exact ⟨s, hmem', htoken, by omega⟩

/-- The column of a line is that of its first token. -/
theorem OnOneLine.column {spots before after : List Spot} {s : Spot} {first : Located}
    {rest : List Located} (h : OnOneLine breaks w source items front (first :: rest))
    (hlexes : Lexes false source spots false []) (hspots : spots = before ++ s :: after)
    (hs : s.token ≠ .newline) (hstart : bytes source - bytes s.front = first.start) :
    first.start - Layout.lineStartOf (bytes source) 0 before < w := by
  obtain ⟨above, within, text, e, others, hsource, habove, hwithin, hline, hfirst, hw⟩ := h.deeper
  obtain ⟨rfl, rfl⟩ := List.cons.inj hline
  subst hspots
  obtain ⟨⟨pre, hpre⟩, -⟩ := hlexes.exists_text (s := s) (by simp)
  have hplace : pre = above ++ within := by
    have hbytes : bytes pre = bytes (above ++ within) := by
      rw [← hfirst, ← hstart, ← hpre, bytes_append]
      omega
    have hcut := Text.takeBytes_bytes_append pre s.front
    rw [hpre, hbytes, hsource, ← List.append_assoc, Text.takeBytes_bytes_append] at hcut
    exact hcut.symm
  have hline := Layout.lineStartOf_lexes (hlexes.at_front hs).1
    (show source = above ++ (within ++ s.front) by rw [← hpre, hplace, List.append_assoc])
    hwithin habove (Nat.zero_add _)
  rw [hline, hfirst, bytes_append]
  omega

/-- Wherever a line break is put, the text behind it is at the column. -/
theorem OnOneLine.width_all {feed l next : Located} {behind before after : List Located}
    {b : List Char} (h : OnOneLine breaks w source items front line)
    (hfeed : feed.item = .token .newline) (hbehind : Unbroken breaks behind)
    (hitems : line ++ feed :: behind = before ++ l :: next :: after) (hl : l.IsSolid)
    (hnext : next.IsSolid) (hb : breaks l.stop = some b) : bytes b + next.start = l.stop + w := by
  have hnot : ¬ feed.IsSolid := not_solid_of_newline hfeed
  rcases List.append_eq_append_iff.1 hitems with ⟨more, -, hmore⟩ | ⟨more, hline, hmore⟩
  · cases more with
    | nil =>
      obtain ⟨rfl, -⟩ := List.cons.inj hmore
      exact absurd hl hnot
    | cons e more =>
      obtain ⟨-, rfl⟩ := List.cons.inj hmore
      have hnone := hbehind l (by simp) hl
      rw [hb] at hnone
      cases hnone
  · rcases more with _ | ⟨e, _ | ⟨e', more⟩⟩
    · obtain ⟨rfl, -⟩ := List.cons.inj hmore
      exact absurd hl hnot
    · obtain ⟨rfl, hrest⟩ := List.cons.inj hmore
      obtain ⟨rfl, -⟩ := List.cons.inj hrest
      exact absurd hnext hnot
    · obtain ⟨rfl, hrest⟩ := List.cons.inj hmore
      obtain ⟨rfl, -⟩ := List.cons.inj hrest
      exact h.width before l next more b hline hb

theorem OnOneLine.drive {opens : Prop} (hopens : opens) {spots spots' : List Spot} {size' : Nat}
    (h : OnOneLine breaks w source items front line) (hlexes : Lexes false source spots false [])
    (hmoved : Moved breaks (bytes source) size' 0 spots spots')
    (hdrive : Layout.drive (bytes source) {} spots = .ok items) :
    ∃ items', Layout.drive size' {} spots' = .ok items' ∧
      Broken (fun n => (breaks n).isSome) opens false items items' := by
  obtain ⟨above, within, text, first, rest, -, -, -, rfl, -⟩ := h.deeper
  obtain ⟨feed, behind, hsplit, hfeed, hshallow, hbehind⟩ := h.split
  have hending : Layout.Ending breaks w 0 (first :: (rest ++ feed :: behind)) :=
    ⟨⟨first :: rest, feed, behind, rfl, h.solid, hfeed, by rw [h.closed]; rfl, hshallow, hbehind⟩,
      fun _ _ _ _ _ hitems hl hnext hb => h.width_all hfeed hbehind hitems hl hnext hb⟩
  have hstart : Layout.State.Tracks false {} {} 0 [] := ⟨rfl, by simp, by simp, rfl, rfl, rfl⟩
  have hlast : ∀ l, front.getLast? = some l → ¬ l.IsSolid := by
    intro l hl
    obtain ⟨before, rfl⟩ := List.getLast?_eq_some_iff.1 hl
    exact h.starts before l rfl
  have hdepth : (({} : Layout.State).depth : Int) + opened front = 0 := by
    rw [h.outside]
    rfl
  rw [hsplit] at hdrive ⊢
  exact Layout.drive_continued hopens hmoved hstart hdrive h.unbroken hlast (fun _ => rfl) hdepth
    (h.solid first List.mem_cons_self) hending fun before s after hspots hs hplace =>
      h.column hlexes hspots hs hplace

/-- A document that is broken behind commas has the token stream that it had, but for the line
breaks and the block that they may open. -/
theorem tokenize_breakLines {opens : Prop} (htokens : tokenize source = .ok items)
    (hgaps : ∀ k b, breaks k = some b → Lexeme.Gaps b)
    (hcommas : ∀ k b, breaks k = some b → ∃ l ∈ items, l.item = .token .comma ∧ l.stop = k)
    (hplace : Bracketed breaks items ∨
      opens ∧ ∃ w front line, OnOneLine breaks w source items front line) :
    ∃ items', tokenize (breakLines breaks 0 source) = .ok items' ∧
      Broken (fun n => (breaks n).isSome) opens false items items' := by
  obtain ⟨spots, hlexes⟩ := lexes_of_tokenize htokens
  have hbehind := behindCommas_of_items hlexes htokens hcommas
  obtain ⟨spots', hlexes', hmoved⟩ := hlexes.breakLines (d := 0) rfl hgaps hbehind
    (Nat.zero_add _) (Nat.zero_add _)
  obtain ⟨placed, hdrive, halike⟩ := drive_of_tokenize hlexes htokens
  have hstart : Layout.State.Tracks false {} {} 0 [] := ⟨rfl, by simp, by simp, rfl, rfl, rfl⟩
  obtain ⟨placed', hdrive', hbroken⟩ : ∃ placed',
      Layout.drive (bytes (breakLines breaks 0 source)) {} spots' = .ok placed' ∧
        Broken (fun n => (breaks n).isSome) opens false placed placed' := by
    rcases hplace with hbracketed | ⟨hopens, w, front, line, hline⟩
    · have hinside : Layout.Inside breaks {} placed := by
        intro front l rest hsplit hl hbreak
        have hpos := hbracketed.of_alike halike front l rest hsplit hl hbreak
        show 0 < (0 : Int) + opened front
        omega
      have hfits : Layout.Fits breaks opens 0 false {} placed := Or.inl ⟨rfl, hinside⟩
      exact Layout.drive_broken hmoved hstart hdrive hfits (by simp)
    · obtain ⟨front', hline'⟩ := hline.of_alike halike
      exact hline'.drive hopens hlexes hmoved hdrive
  obtain ⟨items', htokens', halike'⟩ := tokenize_of_drive hlexes' hdrive'
  exact ⟨items', htokens', hbroken.of_alike (AllAlike.symm halike) halike'⟩

end StyleWeave
