import StyleWeave.Proofs.Syntax.Comments
import StyleWeave.Proofs.Token.Breaking
import StyleWeave.Proofs.Token.Standing

/-!
# The layout of a broken text

Inside brackets a line break behind a comma is an item of the token stream and no more. Outside, the
first one opens a block if the text goes on deeper on the next line, and the end of that block is
paid where the line of the text ends (`Broken`).
-/

namespace StyleWeave

open Text (bytes)
open Lexeme (Moved)

/-! ## Token streams with breaks -/

namespace Syntax

/-- Behind commas that stop at a chosen byte, the second stream may have a line break more. If
`opens`, one of the breaks may open a block, whose end is owed until the first line ends. -/
inductive Broken (chosen : Nat → Prop) (opens : Prop) :
    Bool → List Located → List Located → Prop where
  | same {xs ys : List Located} (same : SameItems xs ys) : Broken chosen opens false xs ys
  | item {owed : Bool} {l l' : Located} {ls ls' : List Located} (item : l.item = l'.item)
      (solid : owed = true → l.IsSolid) (others : Broken chosen opens owed ls ls') :
      Broken chosen opens owed (l :: ls) (l' :: ls')
  | comma {owed : Bool} {l l' f : Located} {ls ls' : List Located} (item : l.item = .token .comma)
      (item' : l'.item = .token .comma) (feed : f.item = .token .newline) (chosen_ : chosen l.stop)
      (others : Broken chosen opens owed ls ls') :
      Broken chosen opens owed (l :: ls) (l' :: f :: ls')
  | deeper {l l' f i : Located} {ls ls' : List Located} (opens_ : opens)
      (item : l.item = .token .comma) (item' : l'.item = .token .comma)
      (feed : f.item = .token .newline) (indent : i.item = .indent) (chosen_ : chosen l.stop)
      (solid : ∀ next ∈ ls.head?, next.IsSolid) (others : Broken chosen opens true ls ls') :
      Broken chosen opens false (l :: ls) (l' :: f :: i :: ls')
  | paid {l l' d : Located} {ls ls' : List Located} (item : l.item = .token .newline)
      (item' : l'.item = .token .newline) (dedent : d.item = .dedent)
      (shallow : ls.head?.map Located.item ≠ some .indent) (same : SameItems ls ls') :
      Broken chosen opens true (l :: ls) (l' :: d :: ls')

variable {chosen : Nat → Prop} {opens : Prop} {xs xs' ys ys' : List Located}

theorem Broken.prepend (h : SameItems xs xs') (hbroken : Broken chosen opens false ys ys') :
    Broken chosen opens false (xs ++ ys) (xs' ++ ys') := by
  induction xs generalizing xs' with
  | nil =>
    rw [List.map_eq_nil_iff.1 (Eq.symm h)]
    exact hbroken
  | cons l xs ih =>
    cases xs' with
    | nil => cases h
    | cons l' xs' =>
      obtain ⟨hitem, hrest⟩ := SameItems.cons_iff.1 h
      exact .item hitem (by simp) (ih hrest)

end Syntax

open Syntax (SameItems Broken)

/-- How many more parentheses and braces some items open than they close. -/
def opened (items : List Located) : Int :=
  surplus .parens (brackets items) + surplus .braces (brackets items)

@[simp] theorem opened_nil : opened [] = 0 := rfl

@[simp] theorem opened_append (items items' : List Located) :
    opened (items ++ items') = opened items + opened items' := by
  unfold opened
  rw [brackets_append, surplus_append, surplus_append]
  omega

theorem opened_of_none {l : Located} (h : l.item.bracket? = none) : opened [l] = 0 := by
  unfold opened brackets
  simp [h]

namespace Layout

variable {t t' s₁ s₂ : State} {d start stop : Nat} {extra : List Nat} {token : Token}
variable {here layout items : List Located} {pending : Bool}

/-! ## Two passes -/

/-- The pass over a broken text stands where the pass over the text does, `d` bytes further on, with
the blocks of `extra` open inside the others. If `pending`, it stands behind a line break. -/
structure State.Tracks (pending : Bool) (t t' : State) (d : Nat) (extra : List Nat) : Prop where
  fresh : t'.fresh = (t.fresh || pending)
  within : pending = true → t.fresh = false
  lineStart : t.fresh = true → t'.lineStart = t.lineStart + d
  columns : t'.columns = extra ++ t.columns
  braces : t'.braces = t.braces
  parens : t'.parens = t.parens

/-- How many brackets are open. -/
def State.depth (t : State) : Nat :=
  t.parens + t.braces

theorem State.Tracks.depth (h : t.Tracks pending t' d extra) : t'.depth = t.depth := by
  unfold State.depth
  rw [h.braces, h.parens]

theorem depth_eq_zero {t : State} : t.depth = 0 ↔ t.braces = 0 ∧ t.parens = 0 := by
  unfold State.depth
  omega

/-- Both passes lay out a line alike. -/
theorem LaidOut.tracks (h : LaidOut t start layout s₁) (ht : t.Tracks false t' d []) :
    ∃ layout' s₁', LaidOut t' (start + d) layout' s₁' ∧ SameItems layout layout' ∧
      s₁.Tracks false s₁' d [] := by
  obtain ⟨hfresh, -, hstart, hcolumns, hbraces, hparens⟩ := ht
  rw [Bool.or_false] at hfresh
  rw [List.nil_append] at hcolumns
  have hcolumn : t.fresh = true → start + d - t'.lineStart = start - t.lineStart := by
    intro hstarts
    rw [hstart hstarts, Nat.add_sub_add_right]
  cases h with
  | within fresh =>
    exact ⟨_, _, .within (hfresh.trans fresh), rfl, by rw [Bool.or_false, hfresh], by simp, hstart,
      hcolumns, hbraces, hparens⟩
  | inside fresh opened =>
    rw [← hbraces, ← hparens] at opened
    exact ⟨_, _, .inside (hfresh.trans fresh) opened, rfl, rfl, by simp, by simp, hcolumns, hbraces,
      hparens⟩
  | deeper fresh braces parens column_eq lt =>
    rw [← hcolumns] at lt
    exact ⟨_, _, .deeper (hfresh.trans fresh) (hbraces.trans braces) (hparens.trans parens)
      ((hcolumn fresh).trans column_eq) lt, rfl, rfl, by simp, by simp, congrArg _ hcolumns,
      hbraces, hparens⟩
  | @level col fresh braces parens column_eq le level =>
    rw [← hcolumns] at le level
    refine ⟨_, _, .level (hfresh.trans fresh) (hbraces.trans braces) (hparens.trans parens)
      ((hcolumn fresh).trans column_eq) le level, ?_, rfl, by simp, by simp,
      congrArg (outdent col) hcolumns, hbraces, hparens⟩
    unfold SameItems
    rw [List.map_replicate, List.map_replicate, hcolumns]

theorem Counted.tracks (h : Counted s₁ token s₂) (ht : s₁.Tracks false t' d extra) :
    ∃ t₂, Counted t' token t₂ ∧ s₂.Tracks false t₂ d extra := by
  obtain ⟨hfresh, hwithin, hstart, hcolumns, hbraces, hparens⟩ := ht
  cases h with
  | openBrace =>
    exact ⟨_, .openBrace, hfresh, hwithin, hstart, hcolumns, congrArg (· + 1) hbraces, hparens⟩
  | closeBrace opened =>
    exact ⟨_, .closeBrace (hbraces.trans opened), hfresh, hwithin, hstart, hcolumns, rfl, hparens⟩
  | openParen =>
    exact ⟨_, .openParen, hfresh, hwithin, hstart, hcolumns, hbraces, congrArg (· + 1) hparens⟩
  | closeParen opened =>
    exact ⟨_, .closeParen (hparens.trans opened), hfresh, hwithin, hstart, hcolumns, hbraces, rfl⟩
  | other none =>
    exact ⟨_, .other none, hfresh, hwithin, hstart, hcolumns, hbraces, hparens⟩

/-- Both passes put a token behind the layout that each has for it. -/
theorem put_tracks {start' : Nat} (stop stop' : Nat) {layout' : List Located} {s' : State}
    (hne : token ≠ .newline) (hlaid' : LaidOut t' start' layout' s')
    (h : s₁.Tracks false s' d extra) (hcounted : Counted s₁ token s₂) :
    ∃ line t₂, put t' start' stop' token =
        .ok (layout' ++ [⟨.token token, line, start', stop'⟩], t₂) ∧
      State.Tracks false { s₂ with offset := stop } t₂ d extra := by
  obtain ⟨t₂, hcounted', htracks⟩ := hcounted.tracks h
  obtain ⟨hfresh, hwithin, hstart, hcolumns, hbraces, hparens⟩ := htracks
  exact ⟨_, _, put_of hne hlaid' hcounted', hfresh, hwithin, hstart, hcolumns, hbraces, hparens⟩

theorem LaidOut.depth (h : LaidOut t start layout s₁) :
    s₁.depth = t.depth ∧ opened layout = 0 := by
  obtain ⟨-, -, -, -, hbraces, hparens⟩ := h.frame
  refine ⟨by unfold State.depth; rw [hbraces, hparens], ?_⟩
  cases h with
  | within | inside | deeper => rfl
  | @level col =>
    generalize t.columns.length - (outdent col t.columns).length = n
    induction n with
    | zero => rfl
    | succ n ih =>
      rw [List.replicate_succ, ← List.singleton_append, opened_append, ih]
      rfl

theorem Counted.depth (h : Counted t token s₁) (line start stop : Nat) :
    (s₁.depth : Int) = t.depth + opened [⟨.token token, line, start, stop⟩] := by
  unfold State.depth
  cases h with
  | openBrace =>
    have hopened : opened [⟨.token .openBrace, line, start, stop⟩] = 1 := rfl
    dsimp only
    omega
  | closeBrace =>
    have hopened : opened [⟨.token .closeBrace, line, start, stop⟩] = -1 := rfl
    dsimp only
    omega
  | openParen =>
    have hopened : opened [⟨.token .openParen, line, start, stop⟩] = 1 := rfl
    dsimp only
    omega
  | closeParen =>
    have hopened : opened [⟨.token .closeParen, line, start, stop⟩] = -1 := rfl
    dsimp only
    omega
  | other none =>
    rw [opened_of_none none]
    omega

/-- How many brackets are open behind a token. -/
theorem depth_put {t₁ : State} (h : put t start stop token = .ok (here, t₁)) :
    (t₁.depth : Int) = t.depth + opened here := by
  rcases put_cases h with ⟨-, rfl, rfl⟩ | ⟨-, layout, s₁, s₂, hlaid, hcounted, rfl, rfl⟩
  · have hnone : opened (if t.fresh then [] else [⟨.token .newline, t.line, start, stop⟩]) = 0 := by
      cases t.fresh <;> rfl
    rw [hnone, Int.add_zero]
    rfl
  · obtain ⟨hdepth, hlayout⟩ := hlaid.depth
    rw [opened_append, hlayout, Int.zero_add, ← hdepth]
    exact hcounted.depth t.line start stop

/-- Where the pass stands at the start of the next line. -/
def State.newLine (t : State) (start : Nat) : State :=
  { t with offset := start, line := t.line + 1, lineStart := start, fresh := true }

theorem put_newline (t : State) (start stop : Nat) :
    put t start stop .newline = .ok
      (if t.fresh then [] else [⟨.token .newline, t.line, start, stop⟩], t.newLine stop) :=
  rfl

theorem State.Tracks.newLine (h : t.Tracks pending t' d extra) (stop : Nat) :
    (t.newLine stop).Tracks false (t'.newLine (stop + d)) d extra :=
  ⟨rfl, by simp, fun _ => rfl, h.columns, h.braces, h.parens⟩

/-! ## The same lines -/

theorem put_same {t₁ : State} (h : t.Tracks false t' d [])
    (hput : put t start stop token = .ok (here, t₁)) :
    ∃ here' t₂, put t' (start + d) (stop + d) token = .ok (here', t₂) ∧ SameItems here here' ∧
      t₁.Tracks false t₂ d [] := by
  rcases put_cases hput with ⟨rfl, rfl, rfl⟩ | ⟨hne, layout, s₁, s₂, hlaid, hcounted, rfl, rfl⟩
  · refine ⟨_, _, put_newline t' _ _, ?_, h.newLine stop⟩
    rw [h.fresh, Bool.or_false]
    cases t.fresh <;> rfl
  · obtain ⟨layout', s', hlaid', hsame, htracks⟩ := hlaid.tracks h
    obtain ⟨line, t₂, hput', htracks'⟩ := put_tracks stop (stop + d) hne hlaid' htracks hcounted
    exact ⟨_, t₂, hput', hsame.append (by rfl), htracks'⟩

theorem finish_same {size : Nat} (h : t.Tracks false t' d []) (hfinish : finish t size = .ok items)
    (size' : Nat) : ∃ items', finish t' size' = .ok items' ∧ SameItems items items' := by
  obtain ⟨hfresh, -, -, hcolumns, hbraces, hparens⟩ := h
  rw [Bool.or_false] at hfresh
  rw [List.nil_append] at hcolumns
  obtain ⟨hbraces₀, hparens₀, rfl⟩ := finish_eq_ok.1 hfinish
  refine ⟨_, finish_eq_ok.2 ⟨hbraces.trans hbraces₀, hparens.trans hparens₀, rfl⟩, ?_⟩
  unfold SameItems
  rw [List.map_append, List.map_append, List.map_append, List.map_append, List.map_replicate,
    List.map_replicate, hfresh, hcolumns]
  cases t.fresh <;> rfl

variable {breaks : Nat → Option (List Char)} {size size' : Nat} {s : Spot}
variable {spots spots' : List Spot}

/-- None of these items is a token with a line break behind it. -/
def Unbroken (breaks : Nat → Option (List Char)) (items : List Located) : Prop :=
  ∀ l ∈ items, l.IsSolid → breaks l.stop = none

theorem Unbroken.append_right {others : List Located} (h : Unbroken breaks (items ++ others)) :
    Unbroken breaks others :=
  fun l hl => h l (List.mem_append_right _ hl)

theorem drive_of_put {t₁ : State}
    (h : put t (size - bytes s.front) (size - bytes s.back) s.token = .ok (here, t₁)) :
    drive size t (s :: spots) = (drive size t₁ spots).map (here ++ ·) := by
  rw [drive, h]

theorem drive_cons (h : drive size t (s :: spots) = .ok items) :
    ∃ here t₁ others, put t (size - bytes s.front) (size - bytes s.back) s.token = .ok (here, t₁) ∧
      drive size t₁ spots = .ok others ∧ items = here ++ others := by
  unfold drive at h
  split at h
  · cases h
  · next here t₁ hput =>
    cases hothers : drive size t₁ spots with
    | error e =>
      rw [hothers] at h
      cases h
    | ok others =>
      rw [hothers] at h
      exact ⟨here, t₁, others, hput, hothers, (Except.ok.inj h).symm⟩

/-- A token is among the items that it is put with, and ends them. -/
theorem put_token {t₁ : State} (hne : token ≠ .newline)
    (h : put t start stop token = .ok (here, t₁)) :
    ∃ layout l, here = layout ++ [l] ∧ l.item = .token token ∧ l.start = start ∧ l.stop = stop ∧
      ∀ e ∈ layout, ¬ e.IsSolid := by
  rcases put_cases h with ⟨heq, -⟩ | ⟨-, layout, s₁, s₂, hlaid, -, rfl, -⟩
  · exact absurd heq hne
  · exact ⟨layout, _, rfl, rfl, rfl, rfl, hlaid.not_solid⟩

theorem Unbroken.of_drive (h : Unbroken breaks items) (hne : s.token ≠ .newline)
    (hdrive : drive size t (s :: spots) = .ok items) : breaks (size - bytes s.back) = none := by
  obtain ⟨here, t₁, others, hput, -, rfl⟩ := drive_cons hdrive
  obtain ⟨layout, l, rfl, hitem, -, hstop, -⟩ := put_token hne hput
  have hbreak := h l (by simp) ⟨_, hitem, hne⟩
  rwa [hstop] at hbreak

/-- Where no line break is put, both passes come to the same items. -/
theorem drive_same (h : Moved breaks size size' d spots spots') (ht : t.Tracks false t' d [])
    (hdrive : drive size t spots = .ok items) (hnone : Unbroken breaks items) :
    ∃ items', drive size' t' spots' = .ok items' ∧ SameItems items items' := by
  induction h generalizing t t' items with
  | nil => exact finish_same ht hdrive size'
  | same token none start stop _ ih =>
    obtain ⟨here, t₁, others, hput, hothers, rfl⟩ := drive_cons hdrive
    obtain ⟨here', t₂, hput', hsame, htracks⟩ := put_same ht hput
    rw [← start, ← stop, ← token] at hput'
    obtain ⟨others', hothers', hsame'⟩ := ih htracks hothers hnone.append_right
    rw [drive_of_put hput', hothers']
    exact ⟨_, rfl, hsame.append hsame'⟩
  | break_ token _ some _ _ _ _ _ _ _ =>
    have hbreak := hnone.of_drive (by rw [token]; decide) hdrive
    rw [some] at hbreak
    cases hbreak

/-! ## The end of the blocks that are open further in -/

/-- A line that is no deeper than the other blocks ends those of `extra`. -/
theorem LaidOut.paid (h : LaidOut t start layout s₁) (ht : t.Tracks false t' d extra)
    (hfresh : t.fresh = true) (hdepth : t.depth = 0) (hcolumn : ∀ w ∈ extra, column t.columns < w)
    (hshallow : layout.head?.map Located.item ≠ some .indent) :
    ∃ dedents layout' s₁', LaidOut t' (start + d) (dedents ++ layout') s₁' ∧
      dedents.map Located.item = List.replicate extra.length .dedent ∧
      SameItems layout layout' ∧ s₁.Tracks false s₁' d [] := by
  obtain ⟨hbraces₀, hparens₀⟩ := depth_eq_zero.1 hdepth
  obtain ⟨hfresh', -, hstart, hcolumns, hbraces, hparens⟩ := ht
  cases h with
  | within fresh =>
    rw [hfresh] at fresh
    cases fresh
  | inside _ opened => exact absurd ⟨hbraces₀, hparens₀⟩ (not_and_or.2 opened)
  | deeper => exact absurd rfl hshallow
  | @level col _ _ _ column_eq le level =>
    have hleft : outdent col t'.columns = outdent col t.columns := by
      rw [hcolumns]
      refine List.dropWhile_append_of_pos fun w hw => ?_
      have hlt := hcolumn w hw
      simp
      omega
    have hmore : t'.columns.length - (outdent col t'.columns).length =
        extra.length + (t.columns.length - (outdent col t.columns).length) := by
      have hlength := length_outdent_le col t.columns
      rw [hleft, hcolumns, List.length_append]
      omega
    have hinner : col ≤ column t'.columns := by
      rw [hcolumns]
      cases extra with
      | nil => exact le
      | cons w extra => exact Nat.le_of_lt (Nat.lt_of_le_of_lt le (hcolumn w List.mem_cons_self))
    have hlaid' : LaidOut t' (start + d) _ _ :=
      .level (by rw [hfresh', hfresh]; rfl) (hbraces.trans hbraces₀) (hparens.trans hparens₀)
        (by rw [hstart hfresh, Nat.add_sub_add_right, column_eq]) hinner
        (by rw [hleft]; exact level)
    rw [hmore, ← List.replicate_append_replicate] at hlaid'
    refine ⟨_, _, _, hlaid', List.map_replicate, ?_, rfl, by simp, by simp, hleft, hbraces,
      hparens⟩
    unfold SameItems
    rw [List.map_replicate, List.map_replicate]

/-- What comes behind a line further in ends the blocks that are open there, unless it is deeper
than the others. -/
theorem drive_paid (h : Moved breaks size size' d spots spots') (ht : t.Tracks false t' d extra)
    (hfresh : t.fresh = true) (hdepth : t.depth = 0) (hcolumn : ∀ w ∈ extra, column t.columns < w)
    (hdrive : drive size t spots = .ok items) (hnone : Unbroken breaks items)
    (hshallow : items.head?.map Located.item ≠ some .indent) :
    ∃ dedents items', drive size' t' spots' = .ok (dedents ++ items') ∧
      dedents.map Located.item = List.replicate extra.length .dedent ∧ SameItems items items' := by
  induction h generalizing t t' items with
  | nil =>
    obtain ⟨hfresh', -, -, hcolumns, hbraces, hparens⟩ := ht
    obtain ⟨hbraces₀, hparens₀, rfl⟩ := finish_eq_ok.1 hdrive
    have hfinish : finish t' size' = .ok _ :=
      finish_eq_ok.2 ⟨hbraces.trans hbraces₀, hparens.trans hparens₀, rfl⟩
    rw [hfresh', hfresh, Bool.true_or, if_pos rfl, List.nil_append, hcolumns, List.length_append,
      ← List.replicate_append_replicate, List.append_assoc] at hfinish
    refine ⟨_, _, hfinish, List.map_replicate, ?_⟩
    unfold SameItems
    simp [hfresh]
  | @same d s s' spots spots' token none start stop moved ih =>
    obtain ⟨here, t₁, others, hput, hothers, rfl⟩ := drive_cons hdrive
    rcases put_cases hput with ⟨hnewline, rfl, rfl⟩ |
      ⟨hne, layout, s₁, s₂, hlaid, hcounted, rfl, rfl⟩
    · rw [hfresh, if_pos rfl, List.nil_append] at hnone hshallow ⊢
      obtain ⟨dedents, items', hdrive', hdedents, hsame⟩ :=
        ih (ht.newLine _) rfl hdepth hcolumn hothers hnone hshallow
      have hput' := put_newline t' (size' - bytes s'.front) (size' - bytes s'.back)
      rw [ht.fresh, hfresh, ← hnewline, ← token] at hput'
      rw [drive_of_put hput', stop, hdrive']
      exact ⟨dedents, items', rfl, hdedents, hsame⟩
    · have hfirst : layout.head?.map Located.item ≠ some .indent := by
        cases layout with
        | nil => simp
        | cons l layout => exact hshallow
      obtain ⟨dedents, layout', s₁', hlaid', hdedents, hsame, htracks⟩ :=
        hlaid.paid ht hfresh hdepth hcolumn hfirst
      rw [← start] at hlaid'
      obtain ⟨line, t₂, hput', htracks'⟩ := put_tracks (size - bytes s.back)
        (size' - bytes s'.back) hne hlaid' htracks hcounted
      rw [← token, List.append_assoc] at hput'
      obtain ⟨others', hothers', hsame'⟩ := drive_same moved htracks' hothers hnone.append_right
      rw [drive_of_put hput', hothers']
      refine ⟨dedents, _, congrArg _ (List.append_assoc _ _ _), hdedents,
        (hsame.append ?_).append hsame'⟩
      unfold SameItems
      simp [token]
  | break_ token _ some _ _ _ _ _ _ _ =>
    have hbreak := hnone.of_drive (by rw [token]; decide) hdrive
    rw [some] at hbreak
    cases hbreak

end Layout

end StyleWeave
