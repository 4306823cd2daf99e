import StyleWeave.Proofs.Token.Blanking
import StyleWeave.Proofs.Token.Rows

/-!
# The token stream of what is lexed

The layout pass places the tokens that are lexed one behind the other (`driven_of_lexes`): a line
break in a comment counts as any other, and the blanks between tokens do not matter.
-/

namespace StyleWeave

open Text (bytes bytes_append)

namespace Lexeme

variable {m m' : Bool} {cs rest : List Char} {spots : List Spot}

/-! ## Texts that can be lexed -/

theorem drop_takeWhile {α : Type} (p : α → Bool) (cs : List α) :
    cs.drop (cs.takeWhile p).length = cs.dropWhile p :=
  calc cs.drop (cs.takeWhile p).length
      = (cs.takeWhile p ++ cs.dropWhile p).drop (cs.takeWhile p).length := by
        rw [List.takeWhile_append_dropWhile]
    _ = cs.dropWhile p := List.drop_left' rfl

theorem lexes_of_commentTail {n : Nat} (htail : commentTail cs = some n)
    (h : Lexes false (cs.drop n) spots m' rest) :
    ∃ spots', Lexes true cs spots' m' rest := by
  induction cs using commentTail.induct generalizing n with
  | case1 cs =>
    obtain rfl := Option.some.inj htail
    exact ⟨_, .closes h⟩
  | case2 c cs hnot ih =>
    rw [commentTail] at htail
    · obtain ⟨k, hk, rfl⟩ := Option.map_eq_some_iff.1 htail
      obtain ⟨spots', hlexes⟩ := ih hk h
      by_cases hfeed : c = '\n'
      · subst hfeed
        exact ⟨_, .feed hlexes⟩
      · refine ⟨spots', .within hfeed (fun hc hhead => ?_) hlexes⟩
        obtain ⟨cs', rfl⟩ := List.head?_eq_some_iff.1 hhead
        exact hnot cs' hc rfl
    · exact hnot
  | case3 => cases htail

/-- A text is lexed if all of its lexemes are tokens. -/
theorem exists_lexes (h : ∀ l ∈ ofText cs, ∃ t, l.kind = .token t) :
    ∃ spots, Lexes false cs spots false [] := by
  induction hlength : cs.length using Nat.strongRecOn generalizing cs with
  | ind length ih =>
    cases cs with
    | nil => exact ⟨[], .done⟩
    | cons c rest =>
      have hshorter : ∀ n, (rest.drop n).length < length := by
        intro n
        rw [← hlength, List.length_cons, List.length_drop]
        omega
      have hbehind : ∀ gap lexemes, (∀ l ∈ behind gap lexemes, ∃ t, l.kind = .token t) →
          ∀ l ∈ lexemes, ∃ t, l.kind = .token t := by
        intro gap lexemes hall l hl
        cases lexemes with
        | nil => cases hl
        | cons first others =>
          rcases List.mem_cons.1 hl with rfl | hl
          · exact hall { l with gap := gap ++ l.gap } List.mem_cons_self
          · exact hall l (List.mem_cons_of_mem _ hl)
      cases hgap : Text.isGap c with
      | true =>
        rw [ofText_gap hgap] at h
        obtain ⟨spots, hlexes⟩ := ih _ (hshorter 0) (hbehind _ _ h) rfl
        exact ⟨spots, .gap hgap hlexes⟩
      | false =>
        cases hcomment : commentRest (c :: rest) with
        | some n =>
          rw [ofText_comment hgap hcomment] at h
          obtain ⟨spots, hlexes⟩ := ih _ (hshorter n) (hbehind _ _ h) rfl
          cases commentRest_eq_some.1 hcomment with
          | line =>
            refine ⟨spots, .line ?_⟩
            rwa [List.drop_succ_cons, drop_takeWhile] at hlexes
          | block tail =>
            rw [List.drop_succ_cons] at hlexes
            obtain ⟨spots', hinside⟩ := lexes_of_commentTail tail hlexes
            exact ⟨spots', .opens hinside⟩
        | none =>
          rw [ofText_lexeme hgap hcomment] at h
          obtain ⟨t, ht⟩ := h _ List.mem_cons_self
          obtain ⟨spots, hlexes⟩ := ih _ (hshorter (kindOf c rest).2)
            (fun l hl => h l (List.mem_cons_of_mem _ hl)) rfl
          have hkind : kindOf c rest = (.token t, (kindOf c rest).2) := Prod.ext ht rfl
          obtain ⟨hle, -⟩ := oneLine_kindOf hkind
          have hlen := List.length_take_of_le hle
          have hsplit := List.take_append_drop (kindOf c rest).2 rest
          generalize rest.take (kindOf c rest).2 = u at hlen hsplit
          generalize rest.drop (kindOf c rest).2 = behind at hlexes hsplit
          rw [← hlen] at hkind
          subst hsplit
          exact ⟨_, .token hgap hcomment hkind hlexes⟩

theorem commentTail_of_lexes (h : Lexes m cs spots m' rest) (hm : m = true) (hm' : m' = false) :
    ∃ n, commentTail cs = some n := by
  induction h with
  | done =>
    subst hm
    cases hm'
  | gap _ _ _ | token _ _ _ _ _ | line _ _ | opens _ _ => cases hm
  | closes _ _ => exact ⟨2, rfl⟩
  | @feed cs _ _ _ _ ih =>
    obtain ⟨n, hn⟩ := ih rfl hm'
    refine ⟨n + 1, ?_⟩
    rw [commentTail, hn]
    · rfl
    · intro tail hc
      cases hc
  | @within c cs _ _ _ _ hopen _ ih =>
    obtain ⟨n, hn⟩ := ih rfl hm'
    refine ⟨n + 1, ?_⟩
    rw [commentTail, hn]
    · rfl
    · rintro tail rfl rfl
      exact hopen rfl rfl

/-- What is left of a text to be cut, with a gap in front of it. -/
def onward (inComment : Bool) (gap cs : List Char) : List Lexeme :=
  if inComment then
    match commentTail cs with
    | some n => behind (gap ++ cs.take n) (ofText (cs.drop n))
    | none => []
  else behind gap (ofText cs)

theorem onward_within {c : Char} (hopen : c = '*' → cs.head? ≠ some '/') (gap : List Char) :
    onward true gap (c :: cs) = onward true (gap ++ [c]) cs := by
  unfold onward
  rw [commentTail_cons hopen]
  cases commentTail cs with
  | none => rfl
  | some n => simp

end Lexeme

open Lexeme (Lexes onward behind behind_behind behind_nil ofText)

namespace Layout

variable {s t : State} {g : List Char} {items : List Located} {size : Nat}
variable {m m' : Bool} {cs rest : List Char} {spots : List Spot}

/-- Place tokens in a document of `size` bytes one behind the other. -/
def drive (size : Nat) (s : State) : List Spot → Except ParseError (List Located)
  | [] => finish s size
  | spot :: spots =>
    match put s (size - bytes spot.front) (size - bytes spot.back) spot.token with
    | .error e => .error e
    | .ok (items, s) => (drive size s spots).map (items ++ ·)

/-- From any gap that stands in front of the text, the pass over its lexemes comes to what the pass
over the tokens does. -/
def Driven (size : Nat) (inComment : Bool) (cs : List Char) (spots : List Spot) : Prop :=
  ∀ s t g, (passGap s g).2 = { t with offset := s.offset } →
    s.offset + bytes g + bytes cs = size →
    Agrees (passGap s g).1 (run size s (onward inComment g cs)) (drive size t spots)

/-- A text without line breaks in front of the next token joins the gap. -/
theorem Driven.join {whole : List Char} (h : Driven size m' cs spots) (text : List Char)
    (hfeed : '\n' ∉ text) (hbytes : bytes whole = bytes text + bytes cs)
    (honward : ∀ g, onward m g whole = onward m' (g ++ text) cs) : Driven size m whole spots := by
  intro s t g hstate hsize
  have hpass := passGap_append s g hfeed
  have hmore := h s t (g ++ text) (by rw [hpass]; exact hstate) (by rw [bytes_append]; omega)
  rwa [hpass, ← honward] at hmore

theorem driven_nil : Driven size false [] [] := by
  intro s t g hstate _
  have hfinish := agrees_finish (t := { t with offset := s.offset + bytes g }) (b := [])
    ⟨hstate, by simp, by simp⟩ size
  show Agrees _ (run size s (behind g (ofText []))) _
  rw [Lexeme.ofText_nil]
  exact hfinish

theorem Driven.token {c : Char} {u : List Char} {token : Token} (h : Driven size false cs spots)
    (hgap : Text.isGap c = false) (hcomment : Lexeme.commentRest (c :: (u ++ cs)) = none)
    (hkind : Lexeme.kindOf c (u ++ cs) = (.token token, u.length)) :
    Driven size false (c :: (u ++ cs)) (⟨token, c :: (u ++ cs), cs⟩ :: spots) := by
  intro s t g hstate hsize
  have hfirst := Lexeme.ofText_lexeme hgap hcomment
  rw [hkind, List.take_left' rfl, List.drop_left' rfl] at hfirst
  have hwidth : bytes (c :: (u ++ cs)) = bytes (c :: u) + bytes cs := by
    rw [← bytes_append]
    rfl
  have hstart : s.offset + bytes g = size - bytes (c :: (u ++ cs)) := by omega
  have hstop : s.offset + bytes g + bytes (c :: u) = size - bytes cs := by omega
  show Agrees _ (run size s (behind g (ofText (c :: (u ++ cs))))) _
  rw [hfirst, behind, List.append_nil, run_token, hstate, put_offset, hstop, hstart, drive]
  dsimp only
  cases hput : put t (size - bytes (c :: (u ++ cs))) (size - bytes cs) token with
  | error e => trivial
  | ok placed =>
    obtain ⟨here, s'⟩ := placed
    have hoffset := offset_of_put hput
    have hmore := h s' s' [] rfl (by rw [hoffset, Text.bytes_nil]; omega)
    have hgapless : onward false [] cs = ofText cs := behind_nil _
    rw [hgapless] at hmore
    refine hmore.map fun items items' hitems => ?_
    rw [List.append_assoc]
    exact (AllAlike.refl _).append ((AllAlike.refl here).append hitems)

/-- A line break in a comment is found in the gap. -/
theorem Driven.feed (h : Driven size true cs spots) :
    Driven size true ('\n' :: cs) (⟨.newline, '\n' :: cs, cs⟩ :: spots) := by
  intro s t g hstate hsize
  obtain ⟨hline, hfresh, hcolumns, hbraces, hparens⟩ := passGap_state s g
  rw [hstate] at hline hfresh hcolumns hbraces hparens
  dsimp only at hline hfresh hcolumns hbraces hparens
  have hwidth : bytes ('\n' :: cs) = 1 + bytes cs := rfl
  have hplace : s.offset + bytes g + 1 = size - bytes cs := by omega
  have hstop : size - bytes cs + bytes cs = size := by omega
  rw [Lexeme.onward_within fun heq => absurd heq (by decide)]
  show Agrees _ _ ((drive size { t with
    offset := size - bytes cs
    line := t.line + 1
    lineStart := size - bytes cs
    fresh := true } spots).map ((if t.fresh then []
      else [⟨.token .newline, t.line, size - bytes ('\n' :: cs), size - bytes cs⟩]) ++ ·))
  have hmore := h s { t with
    offset := size - bytes cs
    line := t.line + 1
    lineStart := size - bytes cs
    fresh := true } (g ++ ['\n'])
    (by rw [passGap_feed, hline, hcolumns, hbraces, hparens, hplace]; rfl)
    (by rw [bytes_append]; simp only [Text.bytes_cons, Text.bytes_nil] at hsize ⊢; omega)
  generalize hended : (if t.fresh then [] else _ : List Located) = ended
  have halike : AllAlike (passGap s (g ++ ['\n'])).1 ((passGap s g).1 ++ ended) := by
    refine allAlike_of_layout ?_ fun l hl => (passGap_spec s _).2 l hl
    rw [List.map_append, passGap_items, passGap_items, ← hended, hfresh]
    cases s.fresh <;> cases g.contains '\n' <;> simp
  have hpassed : Agrees (passGap s g).1 _ _ :=
    hmore.map (f := id) (g := (ended ++ ·)) fun items items' hitems => by
      rw [← List.append_assoc]
      exact AllAlike.trans hitems (halike.append (.refl items'))
  rwa [Except.map_id] at hpassed

/-- The pass over the lexemes comes to what the pass over the tokens does, gaps and all. -/
theorem driven_of_lexes (h : Lexes m cs spots m' rest) (hm' : m' = false) (hrest : rest = []) :
    Driven size m cs spots := by
  induction h with
  | done =>
    subst hm' hrest
    exact driven_nil
  | @gap c cs _ _ _ hgap others ih =>
    refine (ih hm' hrest).join [c] ?_ (bytes_append [c] cs) fun g => ?_
    · rw [List.mem_singleton]
      rintro rfl
      cases hgap
    · show behind g (ofText (c :: cs)) = _
      rw [Lexeme.ofText_gap hgap, behind_behind]
      rfl
  | token hgap hcomment hkind others ih => exact (ih hm' hrest).token hgap hcomment hkind
  | @line cs rest spots _ others ih =>
    have hcomment : Lexeme.commentRest ('/' :: '/' :: cs) =
        some ((cs.takeWhile (· != '\n')).length + 1) := rfl
    refine (ih hm' hrest).join ('/' :: '/' :: cs.takeWhile (· != '\n')) ?_ ?_ fun g => ?_
    · simp only [List.mem_cons, not_or]
      exact ⟨by decide, by decide, Lexeme.no_feed_of_takeWhile (by decide)⟩
    · rw [← bytes_append, List.cons_append, List.cons_append, List.takeWhile_append_dropWhile]
    · have hcut := Lexeme.ofText_comment (by decide) hcomment
      rw [List.take_succ_cons, Lexeme.take_takeWhile, List.drop_succ_cons, Lexeme.drop_takeWhile]
        at hcut
      show behind g (ofText ('/' :: '/' :: cs)) = _
      rw [hcut, behind_behind]
      rfl
  | @opens cs rest spots _ others ih =>
    obtain ⟨n, htail⟩ := Lexeme.commentTail_of_lexes others rfl hm'
    have hcomment : Lexeme.commentRest ('/' :: '*' :: cs) = some (n + 1) := by
      rw [Lexeme.commentRest, htail]
      rfl
    refine (ih hm' hrest).join ['/', '*'] (by decide) (bytes_append ['/', '*'] cs)
      fun g => ?_
    show behind g (ofText ('/' :: '*' :: cs)) = _
    rw [Lexeme.ofText_comment (by decide) hcomment, behind_behind, onward, if_pos rfl, htail]
    simp
  | @closes cs rest spots _ others ih =>
    exact (ih hm' hrest).join ['*', '/'] (by decide) (bytes_append ['*', '/'] cs)
      fun g => rfl
  | feed others ih => exact (ih hm' hrest).feed
  | @within c cs rest spots _ hfeed hopen others ih =>
    refine (ih hm' hrest).join [c] ?_ (bytes_append [c] cs) fun g =>
      Lexeme.onward_within hopen g
    rw [List.mem_singleton]
    exact fun heq => hfeed heq.symm

end Layout

/-! ## Items and tokens -/

/-- How many parentheses are open behind a token, if it does not close one too many. -/
def Token.parens (open_ : Nat) : Token → Option Nat
  | .openParen => some (open_ + 1)
  | .closeParen => if open_ = 0 then none else some (open_ - 1)
  | _ => some open_

/-- Where `parens` parentheses are open, and at the start of a line if `fresh`, the items are laid
out: indentation starts a line outside parentheses, and no line is empty. -/
inductive Laid : Nat → Bool → List Located → Prop where
  | eof {l : Located} (item : l.item = .eof) : Laid 0 true [l]
  | layout {l : Located} {ls : List Located} (item : l.item = .indent ∨ l.item = .dedent)
      (others : Laid 0 true ls) : Laid 0 true (l :: ls)
  | newline {parens : Nat} {l : Located} {ls : List Located} (item : l.item = .token .newline)
      (others : Laid parens true ls) : Laid parens false (l :: ls)
  | token {parens parens' : Nat} {fresh : Bool} {l : Located} {ls : List Located} {t : Token}
      (item : l.item = .token t) (newline : t ≠ .newline) (count : t.parens parens = some parens')
      (others : Laid parens' false ls) : Laid parens fresh (l :: ls)

def Item.isToken : Item → Bool
  | .token _ => true
  | _ => false

/-- The tokens among some items. -/
def tokens (items : List Located) : List Located :=
  items.filter fun l => l.item.isToken

@[simp] theorem tokens_append (items items' : List Located) :
    tokens (items ++ items') = tokens items ++ tokens items' :=
  List.filter_append _ _

/-- The item is the token that is lexed at this place of a text of `size` bytes. -/
structure Spot.IsItem (size : Nat) (s : Spot) (l : Located) : Prop where
  item : l.item = .token s.token
  place : s.token ≠ .newline → l.start = size - bytes s.front ∧ l.stop = size - bytes s.back

/-- The line break that ends a text without one. -/
def Spot.ending : Spot :=
  ⟨.newline, [], []⟩

/-- The tokens in a text without the line breaks of empty lines. -/
def Lexeme.kept : Bool → List Spot → List Spot
  | _, [] => []
  | fresh, s :: spots =>
    if s.token = .newline then (if fresh then [] else [s]) ++ kept true spots
    else s :: kept false spots

namespace Layout

theorem laid_dedents {d : Located} (hd : d.item = .dedent) (n : Nat) (h : Laid 0 true items) :
    Laid 0 true (List.replicate n d ++ items) := by
  induction n with
  | zero => exact h
  | succ n ih => exact .layout (Or.inr hd) ih

theorem LaidOut.laid {start : Nat} (h : LaidOut s start items t) {ls : List Located}
    (hls : ∀ fresh, Laid s.parens fresh ls) : Laid s.parens s.fresh (items ++ ls) := by
  cases h with
  | within fresh => exact hls s.fresh
  | inside fresh opened => exact hls s.fresh
  | deeper fresh braces parens column_eq lt =>
    rw [parens] at hls ⊢
    rw [fresh]
    exact .layout (Or.inl rfl) (hls true)
  | level fresh braces parens column_eq le level =>
    rw [parens] at hls ⊢
    rw [fresh]
    exact laid_dedents (by rfl) _ (hls true)

theorem Counted.parens {token : Token} (h : Counted s token t) :
    token.parens s.parens = some t.parens := by
  cases h with
  | openBrace | closeBrace | openParen => rfl
  | closeParen opened =>
    rw [opened]
    rfl
  | other none => cases token <;> first | rfl | cases none

/-- What a token becomes when it is put between two places. -/
theorem put_spec {start stop : Nat} {token : Token}
    (h : put s start stop token = .ok (items, t)) :
    (∀ ls, Laid t.parens t.fresh ls → Laid s.parens s.fresh (items ++ ls)) ∧
      t.fresh = decide (token = .newline) ∧
      ∃ line, tokens items = if token = .newline ∧ s.fresh = true then []
        else [⟨.token token, line, start, stop⟩] := by
  rcases put_cases h with ⟨rfl, rfl, rfl⟩ | ⟨hnewline, layout, s₁, s₂, hlaid, hcounted, rfl, rfl⟩
  · cases hfresh : s.fresh with
    | true => exact ⟨fun ls hls => hls, rfl, 0, rfl⟩
    | false => exact ⟨fun ls hls => .newline rfl hls, rfl, s.line, rfl⟩
  · obtain ⟨hfresh, -, -, -, -, hparens⟩ := hlaid.frame
    have hfresh' : s₂.fresh = false := hcounted.frame.1.trans hfresh
    have hnone : tokens layout = [] := by
      refine List.filter_eq_nil_iff.2 fun l hl => ?_
      rcases (hlaid.items_spec l hl).1 with hitem | hitem
      · simp [hitem, Item.isToken]
      · simp [hitem, Item.isToken]
    refine ⟨fun ls hls => ?_, ?_, s.line, ?_⟩
    · rw [List.append_assoc]
      refine hlaid.laid fun fresh => .token rfl hnewline (hparens ▸ hcounted.parens) ?_
      rw [← hfresh']
      exact hls
    · show s₂.fresh = _
      rw [hfresh', decide_eq_false hnewline]
    · rw [if_neg fun hboth => hnewline hboth.1, tokens_append, hnone]
      rfl

/-- What a document ends with is laid out, with a line break as its last token. -/
theorem finish_laid (h : finish s size = .ok items) :
    Laid s.parens s.fresh items ∧
      List.Forall₂ (Spot.IsItem size) (Lexeme.kept s.fresh [.ending]) (tokens items) := by
  obtain ⟨-, hparens, rfl⟩ := finish_eq_ok.1 h
  have hend : Laid 0 true (List.replicate s.columns.length ⟨.dedent, s.line, size, size⟩ ++
      [⟨.eof, s.line, size, size⟩]) := laid_dedents (by rfl) _ (.eof (by rfl))
  have hnone : tokens (List.replicate s.columns.length ⟨.dedent, s.line, size, size⟩ ++
      [⟨.eof, s.line, size, size⟩]) = [] := by
    refine List.filter_eq_nil_iff.2 fun e he => ?_
    rcases List.mem_append.1 he with he | he
    · simp [List.eq_of_mem_replicate he, Item.isToken]
    · simp [List.mem_singleton.1 he, Item.isToken]
  rw [hparens, List.append_assoc, tokens_append, hnone, List.append_nil]
  cases s.fresh with
  | true => exact ⟨hend, .nil⟩
  | false => exact ⟨.newline rfl hend, .cons ⟨rfl, fun hne => absurd rfl hne⟩ .nil⟩

/-- The items of a text that is lexed are laid out, and their tokens are those of the text. -/
theorem drive_spec (h : drive size s spots = .ok items) :
    Laid s.parens s.fresh items ∧
      List.Forall₂ (Spot.IsItem size) (Lexeme.kept s.fresh (spots ++ [.ending]))
        (tokens items) := by
  induction spots generalizing s items with
  | nil => exact finish_laid h
  | cons spot spots ih =>
    unfold drive at h
    split at h
    · cases h
    · next here t hput =>
      cases hdrive : drive size t spots with
      | error e => rw [hdrive] at h; cases h
      | ok others =>
        rw [hdrive] at h
        obtain rfl := Except.ok.inj h
        obtain ⟨hlaid, hfresh, line, htokens⟩ := put_spec hput
        obtain ⟨hothers, hkept⟩ := ih hdrive
        refine ⟨hlaid others hothers, ?_⟩
        have hitem : spot.IsItem size ⟨.token spot.token, line, size - bytes spot.front,
            size - bytes spot.back⟩ := ⟨rfl, fun _ => ⟨rfl, rfl⟩⟩
        rw [tokens_append, htokens, List.cons_append]
        unfold Lexeme.kept
        rw [hfresh] at hkept
        by_cases hnewline : spot.token = .newline
        · rw [decide_eq_true hnewline] at hkept
          rw [if_pos hnewline]
          cases hstart : s.fresh with
          | true => simpa [hnewline] using hkept
          | false =>
            rw [if_neg (by simp), if_neg (by simp)]
            exact .cons hitem hkept
        · rw [decide_eq_false hnewline] at hkept
          rw [if_neg hnewline, if_neg fun hboth => hnewline hboth.1]
          exact .cons hitem hkept

end Layout

theorem Laid.of_alike {items items' : List Located} {parens : Nat} {fresh : Bool}
    (h : Laid parens fresh items) (halike : AllAlike items items') : Laid parens fresh items' := by
  induction h generalizing items' with
  | eof item =>
    cases halike with
    | cons hl hls =>
      cases hls
      exact .eof (hl.1 ▸ item)
  | layout item _ ih =>
    cases halike with
    | cons hl hls => exact .layout (hl.1 ▸ item) (ih hls)
  | newline item _ ih =>
    cases halike with
    | cons hl hls => exact .newline (hl.1 ▸ item) (ih hls)
  | token item newline count _ ih =>
    cases halike with
    | cons hl hls => exact .token (hl.1 ▸ item) newline count (ih hls)

theorem tokens_of_alike {items items' : List Located} (h : AllAlike items items') :
    AllAlike (tokens items) (tokens items') := by
  induction h with
  | nil => exact .nil
  | @cons a b as bs hab _ ih =>
    unfold tokens at ih ⊢
    rw [List.filter_cons, List.filter_cons, ← hab.1]
    split
    · exact .cons hab ih
    · exact ih

theorem Spot.IsItem.of_alike {size : Nat} {s : Spot} {l l' : Located} (h : s.IsItem size l)
    (halike : l.Alike l') : s.IsItem size l' := by
  refine ⟨halike.1 ▸ h.item, fun hne => ?_⟩
  have hsame := halike.2 ⟨_, h.item, hne⟩
  exact hsame ▸ h.place hne

theorem isItems_of_alike {size : Nat} {spots : List Spot} {ls ls' : List Located}
    (h : List.Forall₂ (Spot.IsItem size) spots ls) (halike : AllAlike ls ls') :
    List.Forall₂ (Spot.IsItem size) spots ls' := by
  induction h generalizing ls' with
  | nil =>
    cases halike
    exact .nil
  | cons hl _ ih =>
    cases halike with
    | cons hab hls => exact .cons (hl.of_alike hab) (ih hls)

/-- The token stream of a text is that of its tokens, placed one behind the other. -/
theorem agrees_tokenize {cs : List Char} {spots : List Spot}
    (h : Lexes false cs spots false []) :
    Agrees [] (tokenize cs) (Layout.drive (bytes cs) {} spots) := by
  have hagrees := Layout.driven_of_lexes h rfl rfl {} {} [] rfl (Nat.zero_add (bytes cs))
  have hwhole : onward false [] cs = ofText cs := behind_nil _
  rwa [hwhole] at hagrees

theorem drive_of_tokenize {cs : List Char} {spots : List Spot} {items : List Located}
    (h : Lexes false cs spots false []) (htokens : tokenize cs = .ok items) :
    ∃ items', Layout.drive (bytes cs) {} spots = .ok items' ∧ AllAlike items items' := by
  have hagrees := agrees_tokenize h
  rw [htokens] at hagrees
  cases hdrive : Layout.drive (bytes cs) {} spots with
  | error e => rw [hdrive] at hagrees; cases hagrees
  | ok items' =>
    rw [hdrive] at hagrees
    exact ⟨items', rfl, hagrees⟩

theorem tokenize_of_drive {cs : List Char} {spots : List Spot} {items : List Located}
    (h : Lexes false cs spots false []) (hdrive : Layout.drive (bytes cs) {} spots = .ok items) :
    ∃ items', tokenize cs = .ok items' ∧ AllAlike items items' := by
  have hagrees := agrees_tokenize h
  rw [hdrive] at hagrees
  cases htokens : tokenize cs with
  | error e => rw [htokens] at hagrees; cases hagrees
  | ok items' =>
    rw [htokens] at hagrees
    have halike : AllAlike items' items := hagrees
    exact ⟨items', rfl, AllAlike.symm halike⟩

/-- The token stream of a text is laid out, and its tokens are those that are lexed of the text, in
their places, with a line break at the end. -/
theorem tokens_of_lexes {cs : List Char} {spots : List Spot} {items : List Located}
    (h : Lexes false cs spots false []) (htokens : tokenize cs = .ok items) :
    Laid 0 true items ∧
      List.Forall₂ (Spot.IsItem (bytes cs)) (Lexeme.kept true (spots ++ [.ending]))
        (tokens items) := by
  obtain ⟨items', hdrive, halike⟩ := drive_of_tokenize h htokens
  obtain ⟨hlaid, hkept⟩ := Layout.drive_spec hdrive
  have halike' : AllAlike items' items := AllAlike.symm halike
  exact ⟨hlaid.of_alike halike', isItems_of_alike hkept (tokens_of_alike halike')⟩

theorem Lexeme.bares_kept (fresh : Bool) (spots : List Spot) :
    Lexeme.bares (Lexeme.kept fresh spots) = Lexeme.squeezed fresh (Lexeme.bares spots) := by
  induction spots generalizing fresh with
  | nil => rfl
  | cons s spots ih =>
    rw [Lexeme.bares_cons, Lexeme.kept, Lexeme.squeezed]
    by_cases h : s.token = .newline
    · have hbare : s.token.bare = .newline := by rw [h]; rfl
      rw [if_pos h, if_pos hbare, Lexeme.bares_append, ih]
      cases fresh with
      | true => rfl
      | false => rw [if_neg (by simp), if_neg (by simp), Lexeme.bares_cons, hbare]; rfl
    · have hbare : s.token.bare ≠ .newline := fun heq => h (Lexeme.eq_newline_of_bare heq)
      rw [if_neg h, if_neg hbare, Lexeme.bares_cons, ih]

/-- Where a token is among those that are kept, it is among the places of the text. -/
theorem Lexeme.kept_cut {fresh : Bool} {spots before behind : List Spot} {s : Spot}
    (h : Lexeme.kept fresh (spots ++ [.ending]) = before ++ s :: behind) (hs : s.token ≠ .newline) :
    ∃ first second, spots = first ++ s :: second ∧ Lexeme.kept fresh first = before ∧
      Lexeme.kept false (second ++ [.ending]) = behind := by
  induction spots generalizing fresh before with
  | nil =>
    have hmem : s ∈ Lexeme.kept fresh [.ending] := by
      have hall : s ∈ before ++ s :: behind := List.mem_append_right _ List.mem_cons_self
      rwa [← h] at hall
    have hending : s = .ending := by
      cases fresh with
      | true => cases hmem
      | false => exact List.mem_singleton.1 hmem
    rw [hending] at hs
    exact absurd rfl hs
  | cons first spots ih =>
    rw [List.cons_append, Lexeme.kept] at h
    by_cases hnewline : first.token = .newline
    · rw [if_pos hnewline] at h
      have hmore : ∃ before', before = (if fresh = true then [] else [first]) ++ before' ∧
          Lexeme.kept true (spots ++ [.ending]) = before' ++ s :: behind := by
        cases fresh with
        | true => exact ⟨before, rfl, h⟩
        | false =>
          cases before with
          | nil =>
            obtain ⟨rfl, -⟩ := List.cons.inj h
            exact absurd hnewline hs
          | cons b before' =>
            obtain ⟨rfl, hrest⟩ := List.cons.inj h
            exact ⟨before', rfl, hrest⟩
      obtain ⟨before', rfl, hrest⟩ := hmore
      obtain ⟨front, back, rfl, hfront, hback⟩ := ih hrest
      refine ⟨first :: front, back, rfl, ?_, hback⟩
      rw [Lexeme.kept, if_pos hnewline, hfront]
    · rw [if_neg hnewline] at h
      cases before with
      | nil =>
        obtain ⟨rfl, hrest⟩ := List.cons.inj h
        exact ⟨[], spots, rfl, rfl, hrest⟩
      | cons b before =>
        obtain ⟨rfl, hrest⟩ := List.cons.inj h
        obtain ⟨front, back, rfl, hfront, hback⟩ := ih hrest
        refine ⟨first :: front, back, rfl, ?_, hback⟩
        rw [Lexeme.kept, if_neg hnewline, hfront]

/-- A text with a token stream can be lexed. -/
theorem lexes_of_tokenize {cs : List Char} {items : List Located} (h : tokenize cs = .ok items) :
    ∃ spots, Lexes false cs spots false [] := by
  have hall : ∀ {size : Nat} {s : Layout.State} {lexemes : List Lexeme} {items : List Located},
      Layout.run size s lexemes = .ok items → ∀ l ∈ lexemes, ∃ t, l.kind = .token t := by
    intro size s lexemes
    induction lexemes generalizing s with
    | nil =>
      intro items _ l hl
      cases hl
    | cons first rest ih =>
      intro items hrun l hl
      obtain ⟨⟨here, t⟩, hplace, hmore⟩ := bind_eq_ok hrun
      obtain ⟨others, hothers, -⟩ := bind_eq_ok hmore
      rcases List.mem_cons.1 hl with rfl | hl
      · obtain ⟨token, -, -, hkind, -⟩ := Layout.place_spec hplace
        exact ⟨token, hkind⟩
      · exact ih hothers l hl
  exact Lexeme.exists_lexes (hall h)

end StyleWeave
