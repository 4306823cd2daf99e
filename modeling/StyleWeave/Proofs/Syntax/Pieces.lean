import StyleWeave.Proofs.Syntax.Brackets

/-!
# What statements leave over

The reader of statements cuts a token stream in pieces: the stretches of items that statements take,
and the items between them, which open and close the blocks. It reads a document if and only if the
brackets that are left over match (`parseItems_iff_fits`).
-/

namespace StyleWeave.Syntax

/-- A piece of a token stream. -/
inductive Piece where
  /-- What a statement takes, up to its block. -/
  | taken (stretch : List Located)
  /-- An item between statements, or the one that opens the block of a statement. -/
  | between (l : Located)
  deriving DecidableEq, Repr

def Piece.items : Piece → List Located
  | taken stretch => stretch
  | between l => [l]

def Piece.remainder : Piece → List Located
  | taken _ => []
  | between l => [l]

def Piece.stretch? : Piece → Option (List Located)
  | taken stretch => some stretch
  | between _ => none

/-- The pieces of a token stream up to its end. -/
def pieces (items : List Located) : List Piece :=
  match items with
  | [] => []
  | l :: ls =>
    if l.item = .eof then []
    else if startsStatement l.item then
      match opening l ls with
      | (.complete _, n) => .taken (l :: ls.take n) :: pieces (ls.drop n)
      | (.before _ _, n) =>
        .taken ((l :: ls).take n) ::
          ((((l :: ls).drop n).take 1).map .between ++ pieces (ls.drop n))
    else .between l :: pieces ls
termination_by items.length
decreasing_by all_goals (simp only [List.length_cons, List.length_drop]; omega)

/-- The items that no statement takes. -/
def leftOver (items : List Located) : List Located :=
  (pieces items).flatMap Piece.remainder

/-- What the statements take, one after the other. -/
def stretches (items : List Located) : List (List Located) :=
  (pieces items).filterMap Piece.stretch?

variable {l : Located} {items ls : List Located} {stack : List Enclosure}

theorem mem_stretches {stretch : List Located} :
    stretch ∈ stretches items ↔ .taken stretch ∈ pieces items := by
  unfold stretches
  rw [List.mem_filterMap]
  constructor
  · rintro ⟨p, hp, hstretch⟩
    cases p with
    | taken s =>
      obtain rfl := Option.some.inj hstretch
      exact hp
    | between l => cases hstretch
  · exact fun hmem => ⟨_, hmem, rfl⟩

theorem not_eof_of_starts (hl : startsStatement l.item = true) : l.item ≠ .eof := by
  intro heof
  rw [heof] at hl
  cases hl

/-- What opens the block behind a heading. -/
theorem take_opener {selector : String} {close : BlockEnd} {n : Nat}
    (h : opening l ls = (.before selector close, n)) :
    ∃ opener, ((l :: ls).drop n).take 1 = [opener] ∧ Opens close opener.item := by
  obtain ⟨opener, hopener, hopens, -⟩ := keeps_before true h
  obtain ⟨hn, rfl⟩ := List.getElem?_eq_some_iff.1 hopener
  refine ⟨_, ?_, hopens⟩
  rw [List.drop_eq_getElem_cons hn]
  rfl

/-! ## What is left over -/

theorem leftOver_nil : leftOver [] = [] := by
  unfold leftOver
  rw [pieces.eq_def]
  rfl

theorem leftOver_eof (hl : l.item = .eof) : leftOver (l :: ls) = [] := by
  unfold leftOver
  rw [pieces.eq_def]
  dsimp only
  rw [if_pos hl]
  rfl

theorem leftOver_between (heof : l.item ≠ .eof) (hl : startsStatement l.item = false) :
    leftOver (l :: ls) = l :: leftOver ls := by
  unfold leftOver
  rw [pieces.eq_def]
  dsimp only
  rw [if_neg heof, hl]
  rfl

theorem leftOver_complete {node : Node} {n : Nat} (hl : startsStatement l.item = true)
    (h : opening l ls = (.complete node, n)) : leftOver (l :: ls) = leftOver (ls.drop n) := by
  unfold leftOver
  rw [pieces.eq_def]
  dsimp only
  rw [if_neg (not_eof_of_starts hl), if_pos hl, h]
  rfl

theorem leftOver_before {selector : String} {close : BlockEnd} {n : Nat}
    (hl : startsStatement l.item = true) (h : opening l ls = (.before selector close, n)) :
    ∃ opener, Opens close opener.item ∧
      leftOver (l :: ls) = opener :: leftOver (ls.drop n) := by
  obtain ⟨opener, hopener, hopens⟩ := take_opener h
  refine ⟨opener, hopens, ?_⟩
  unfold leftOver
  rw [pieces.eq_def]
  dsimp only
  rw [if_neg (not_eof_of_starts hl), if_pos hl, h]
  dsimp only
  rw [hopener]
  rfl

/-! ## What the pieces are -/

/-- The pieces make up the token stream, up to its end. -/
theorem exists_tail (items : List Located) :
    ∃ tail, items = (pieces items).flatMap Piece.items ++ tail ∧
      ∀ l ls, tail = l :: ls → l.item = .eof := by
  -- Nothing, the end of the document, a statement without a block, one with a block, and an item
  -- between statements.
  fun_induction pieces items with
  | case1 => exact ⟨[], rfl, by simp⟩
  | case2 l ls heof =>
    refine ⟨l :: ls, rfl, fun l' ls' heq => ?_⟩
    rw [← (List.cons.inj heq).1]
    exact heof
  | case3 l ls heof hl node n hopening ih =>
    obtain ⟨tail, htail, hends⟩ := ih
    refine ⟨tail, ?_, hends⟩
    rw [List.flatMap_cons, List.append_assoc, ← htail]
    show l :: ls = l :: (ls.take n ++ ls.drop n)
    rw [List.take_append_drop]
  | case4 l ls heof hl selector close n hopening ih =>
    obtain ⟨tail, htail, hends⟩ := ih
    obtain ⟨opener, hopener, -⟩ := take_opener hopening
    refine ⟨tail, ?_, hends⟩
    rw [hopener, List.flatMap_cons, List.flatMap_append, List.append_assoc, List.append_assoc,
      ← htail]
    show l :: ls = (l :: ls).take n ++ ([opener] ++ ls.drop n)
    rw [← hopener, ← List.append_assoc, ← List.take_add, List.take_succ_cons, List.cons_append,
      List.take_append_drop]
  | case5 l ls heof hl ih =>
    obtain ⟨tail, htail, hends⟩ := ih
    refine ⟨tail, ?_, hends⟩
    rw [List.flatMap_cons, List.append_assoc, ← htail]
    rfl

/-- Each statement keeps its brackets to itself. -/
theorem keeps_pieces (deeper : Bool) (items : List Located)
    (h : deeper = true ∨ commasLevel items = true) {stretch : List Located}
    (hmem : .taken stretch ∈ pieces items) :
    ∃ g' k', Keeps deeper 0 0 (brackets stretch) g' k' := by
  have hbehind : ∀ {l : Located} {ls : List Located} (n : Nat),
      deeper = true ∨ commasLevel (l :: ls) = true →
        deeper = true ∨ commasLevel (ls.drop n) = true :=
    fun n h => h.imp id fun hall => commasLevel_drop (Bool.and_eq_true_iff.1 hall).2 n
  fun_induction pieces items with
  | case1 => cases hmem
  | case2 => cases hmem
  | case3 l ls heof hl node n hopening ih =>
    rcases List.mem_cons.1 hmem with heq | hmem
    · obtain rfl := Piece.taken.inj heq
      exact keeps_complete hl (hbehind 0 h) hopening
    · exact ih (hbehind n h) hmem
  | case4 l ls heof hl selector close n hopening ih =>
    rcases List.mem_cons.1 hmem with heq | hmem
    · obtain rfl := Piece.taken.inj heq
      obtain ⟨-, -, -, hkeeps⟩ := keeps_before deeper hopening
      exact hkeeps
    · rcases List.mem_append.1 hmem with hmem | hmem
      · obtain ⟨opener, -, heq⟩ := List.mem_map.1 hmem
        cases heq
      · exact ih (hbehind n h) hmem
  | case5 l ls heof hl ih =>
    rcases List.mem_cons.1 hmem with heq | hmem
    · cases heq
    · exact ih (hbehind 0 h) hmem

theorem enclosure_of_not_starts {b : Bracket} (hb : l.item.bracket? = some b)
    (hl : startsStatement l.item = false) : b.enclosure ∈ [.braces, .block] := by
  rw [Item.bracket?_eq_some.1 hb] at hl
  match b with
  | .opening .parens | .closing .parens => cases hl
  | .opening .braces | .closing .braces | .opening .block | .closing .block =>
    simp [Bracket.enclosure]

/-- All parentheses are in what the statements take. -/
theorem enclosure_leftOver (items : List Located) :
    ∀ b ∈ brackets (leftOver items), b.enclosure ∈ [.braces, .block] := by
  have hcons : ∀ {l : Located} {ls : List Located},
      (∀ b, l.item.bracket? = some b → b.enclosure ∈ [.braces, .block]) →
      (∀ b ∈ brackets ls, b.enclosure ∈ [.braces, .block]) →
      ∀ b ∈ brackets (l :: ls), b.enclosure ∈ [.braces, .block] := by
    intro l ls hl hls b hb
    rw [brackets_cons] at hb
    rcases List.mem_append.1 hb with hb | hb
    · exact hl b (Option.mem_toList.1 hb)
    · exact hls b hb
  fun_induction pieces items with
  | case1 =>
    rw [leftOver_nil]
    simp
  | case2 l ls heof =>
    rw [leftOver_eof heof]
    simp
  | case3 l ls heof hl node n hopening ih =>
    rw [leftOver_complete hl hopening]
    exact ih
  | case4 l ls heof hl selector close n hopening ih =>
    obtain ⟨opener, hopens, hleft⟩ := leftOver_before hl hopening
    rw [hleft]
    refine hcons (fun b hb => ?_) ih
    rcases hopens with ⟨-, hopener⟩ | ⟨-, hopener⟩
    · rw [hopener] at hb
      obtain rfl := Option.some.inj hb
      simp [Bracket.enclosure]
    · rw [hopener] at hb
      obtain rfl := Option.some.inj hb
      simp [Bracket.enclosure]
  | case5 l ls heof hl ih =>
    have hstarts : startsStatement l.item = false := by simpa using hl
    rw [leftOver_between heof hstarts]
    exact hcons (fun b hb => enclosure_of_not_starts hb hstarts) ih

/-! ## Reading the statements -/

/-- What a block that ends like this has open. -/
def BlockEnd.opened : BlockEnd → List Enclosure
  | .eof => []
  | .brace => [.braces]
  | .dedent => [.block]

/-- With these blocks open, all that is left over matches, and no brace stays open. -/
def Fits (stack : List Enclosure) (items : List Located) : Prop :=
  ∃ stack', walk stack (brackets (leftOver items)) = some stack' ∧ .braces ∉ stack'

theorem fits_of_nil (h : leftOver items = []) : Fits stack items ↔ .braces ∉ stack := by
  unfold Fits
  rw [h]
  constructor
  · rintro ⟨stack', hwalk, hclosed⟩
    obtain rfl := Option.some.inj hwalk
    exact hclosed
  · exact fun hclosed => ⟨stack, rfl, hclosed⟩

theorem fits_blank (hl : l.item = .token .newline ∨ l.item = .token .semicolon) :
    Fits stack (l :: ls) ↔ Fits stack ls := by
  unfold Fits
  rcases hl with hl | hl
  · rw [leftOver_between (by simp [hl]) (by rw [hl]; rfl),
      brackets_cons_of_none (by rw [hl]; rfl)]
  · rw [leftOver_between (by simp [hl]) (by rw [hl]; rfl),
      brackets_cons_of_none (by rw [hl]; rfl)]

theorem fits_indent (hl : l.item = .indent) :
    Fits stack (l :: ls) ↔ Fits (.block :: stack) ls := by
  unfold Fits
  rw [leftOver_between (by simp [hl]) (by rw [hl]; rfl), brackets_cons, hl]
  rfl

theorem fits_closing (e : Enclosure) (hl : l.item = (Bracket.closing e).item)
    (hstarts : startsStatement l.item = false) :
    Fits stack (l :: ls) ↔ ∃ below, stack = e :: below ∧ Fits below ls := by
  have heof : l.item ≠ .eof := by
    rw [hl]
    cases e <;> simp [Bracket.item]
  unfold Fits
  rw [leftOver_between heof hstarts, brackets_cons_of_some (Item.bracket?_eq_some.2 hl)]
  constructor
  · rintro ⟨stack', hwalk, hend⟩
    obtain ⟨below, hstack, hrest⟩ := walk_closing.1 hwalk
    exact ⟨below, hstack, stack', hrest, hend⟩
  · rintro ⟨below, hstack, stack', hrest, hend⟩
    exact ⟨stack', walk_closing.2 ⟨below, hstack, hrest⟩, hend⟩

theorem fits_complete {node : Node} {n : Nat} (hl : startsStatement l.item = true)
    (h : opening l ls = (.complete node, n)) :
    Fits stack (l :: ls) ↔ Fits stack (ls.drop n) := by
  unfold Fits
  rw [leftOver_complete hl h]

theorem fits_before {selector : String} {close : BlockEnd} {n : Nat}
    (hl : startsStatement l.item = true) (h : opening l ls = (.before selector close, n)) :
    close ≠ .eof ∧ (Fits stack (l :: ls) ↔ Fits (close.opened ++ stack) (ls.drop n)) := by
  obtain ⟨opener, hopens, hleft⟩ := leftOver_before hl h
  unfold Fits
  rw [hleft, brackets_cons]
  rcases hopens with ⟨rfl, hopener⟩ | ⟨rfl, hopener⟩
  · rw [hopener]
    exact ⟨by simp, Iff.rfl⟩
  · rw [hopener]
    exact ⟨by simp, Iff.rfl⟩

theorem braces_mem_opened {close : BlockEnd} (h : .braces ∈ close.opened ++ stack) :
    close = .brace ∨ .braces ∈ stack := by
  cases close with
  | eof => exact Or.inr h
  | brace => exact Or.inl rfl
  | dedent => exact Or.inr (by simpa [BlockEnd.opened] using h)

theorem drop_cons_add (l : Located) (ls : List Located) (n m : Nat) :
    (l :: ls).drop (1 + n + m) = (ls.drop n).drop m := by
  rw [Nat.add_assoc, Nat.add_comm 1, List.drop_succ_cons, List.drop_drop]

/-- What can be read up to the end of a block fits, if what stands behind that fits. -/
theorem Reads.fits {close : BlockEnd} {nodes : List Node} {n : Nat}
    (h : Reads close items nodes n) (hfits : Fits stack (items.drop n)) :
    Fits (close.opened ++ stack) items := by
  induction h generalizing stack with
  | nothing open_ =>
    refine (fits_of_nil leftOver_nil).2 fun hmem => ?_
    exact (braces_mem_opened hmem).elim open_ ((fits_of_nil leftOver_nil).1 hfits)
  | eof ls item open_ =>
    refine (fits_of_nil (leftOver_eof item)).2 fun hmem => ?_
    exact (braces_mem_opened hmem).elim open_ ((fits_of_nil (leftOver_eof item)).1 hfits)
  | dedent ls item => exact (fits_closing .block item (by rw [item]; rfl)).2 ⟨stack, rfl, hfits⟩
  | closeBrace ls item =>
    exact (fits_closing .braces item (by rw [item]; rfl)).2 ⟨stack, rfl, hfits⟩
  | blank item _ ih => exact (fits_blank item).2 (ih hfits)
  | @block close l ls _ _ n m item _ _ ih ih' =>
    rw [drop_cons_add] at hfits
    exact (fits_indent item).2 (ih (ih' hfits))
  | @complete close l ls _ _ n m item statement _ ih =>
    rw [drop_cons_add] at hfits
    exact (fits_complete item statement).2 (ih hfits)
  | @rule close inner l ls _ _ _ n k m item statement _ _ ih ih' =>
    rw [Nat.add_assoc 1 n k, drop_cons_add] at hfits
    have hbody := ih' hfits
    rw [← List.drop_drop] at hbody
    exact (fits_before item statement).2.2 (ih hbody)

/-- What fits can be read up to the end of the innermost block, and what stands behind that
fits. -/
theorem exists_reads (items : List Located) (close : BlockEnd)
    (hopen : close = .eof → stack = []) (hfits : Fits (close.opened ++ stack) items) :
    ∃ nodes n, Reads close items nodes n ∧ Fits stack (items.drop n) := by
  induction hlength : items.length using Nat.strongRecOn generalizing items close stack with
  | ind length ih =>
    cases items with
    | nil =>
      have hclosed := (fits_of_nil leftOver_nil).1 hfits
      refine ⟨[], 0, .nothing ?_, (fits_of_nil leftOver_nil).2 ?_⟩
      · rintro rfl
        exact hclosed (by simp [BlockEnd.opened])
      · exact fun hmem => hclosed (List.mem_append_right _ hmem)
    | cons l ls =>
      have hshorter : ∀ n, (ls.drop n).length < length := by
        intro n
        rw [← hlength, List.length_cons, List.length_drop]
        omega
      cases role l.item with
      | eof hitem =>
        have hclosed := (fits_of_nil (leftOver_eof hitem)).1 hfits
        refine ⟨[], 0, .eof ls hitem ?_, (fits_of_nil (leftOver_eof hitem)).2 ?_⟩
        · rintro rfl
          exact hclosed (by simp [BlockEnd.opened])
        · exact fun hmem => hclosed (List.mem_append_right _ hmem)
      | dedent hitem =>
        obtain ⟨below, hstack, hbelow⟩ :=
          (fits_closing .block hitem (by rw [hitem]; rfl)).1 hfits
        cases close with
        | eof => simp [BlockEnd.opened, hopen rfl] at hstack
        | brace => cases hstack
        | dedent =>
          obtain ⟨-, rfl⟩ := List.cons.inj hstack
          exact ⟨[], 1, .dedent ls hitem, hbelow⟩
      | closeBrace hitem =>
        obtain ⟨below, hstack, hbelow⟩ :=
          (fits_closing .braces hitem (by rw [hitem]; rfl)).1 hfits
        cases close with
        | eof => simp [BlockEnd.opened, hopen rfl] at hstack
        | brace =>
          obtain ⟨-, rfl⟩ := List.cons.inj hstack
          exact ⟨[], 1, .closeBrace ls hitem, hbelow⟩
        | dedent => cases hstack
      | blank hitem =>
        obtain ⟨nodes, n, hreads, hrest⟩ := ih _ (hshorter 0) ls close hopen
          ((fits_blank hitem).1 hfits) rfl
        exact ⟨nodes, n + 1, .blank hitem hreads, hrest⟩
      | indent hitem =>
        obtain ⟨children, k, hbody, hbehind⟩ := ih _ (hshorter 0) ls .dedent (by simp)
          ((fits_indent hitem).1 hfits) rfl
        obtain ⟨nodes, m, hreads, hrest⟩ := ih _ (hshorter k) (ls.drop k) close hopen hbehind rfl
        refine ⟨.block children :: nodes, 1 + k + m, .block hitem hbody hreads, ?_⟩
        rw [drop_cons_add]
        exact hrest
      | statement hstarts =>
        cases hopening : opening l ls with
        | mk start n =>
          cases start with
          | complete node =>
            obtain ⟨nodes, m, hreads, hrest⟩ := ih _ (hshorter n) (ls.drop n) close hopen
              ((fits_complete hstarts hopening).1 hfits) rfl
            refine ⟨node :: nodes, 1 + n + m, .complete hstarts hopening hreads, ?_⟩
            rw [drop_cons_add]
            exact hrest
          | before selector inner =>
            obtain ⟨hinner, hiff⟩ := fits_before hstarts hopening
            obtain ⟨children, k, hbody, hbehind⟩ := ih _ (hshorter n) (ls.drop n) inner
              (fun heof => absurd heof hinner) (hiff.1 hfits) rfl
            rw [List.drop_drop] at hbehind
            obtain ⟨nodes, m, hreads, hrest⟩ := ih _ (hshorter (n + k)) (ls.drop (n + k)) close
              hopen hbehind rfl
            refine ⟨.rule selector children :: nodes, 1 + n + k + m,
              .rule hstarts hopening hbody hreads, ?_⟩
            rw [Nat.add_assoc 1 n k, drop_cons_add]
            exact hrest

/-- At the outermost level nothing but the end of the document is left unread. -/
theorem Reads.fits_rest {nodes : List Node} {n : Nat} (h : Reads .eof items nodes n) :
    Fits [] (items.drop n) := by
  generalize hclose : BlockEnd.eof = close at h
  induction h with
  | nothing open_ => exact (fits_of_nil leftOver_nil).2 (by simp)
  | eof ls item open_ => exact (fits_of_nil (leftOver_eof item)).2 (by simp)
  | dedent ls item | closeBrace ls item => cases hclose
  | blank item _ ih => exact ih hclose
  | @block close l ls _ _ n m item _ _ _ ih' =>
    rw [drop_cons_add]
    exact ih' hclose
  | @complete close l ls _ _ n m item statement _ ih =>
    rw [drop_cons_add]
    exact ih hclose
  | @rule close inner l ls _ _ _ n k m item statement _ _ _ ih' =>
    rw [Nat.add_assoc 1 n k, drop_cons_add]
    exact ih' hclose

/-- A token stream is read if and only if what its statements leave over matches. -/
theorem parseItems_iff_fits : (∃ document, parseItems items = .ok document) ↔ Fits [] items := by
  constructor
  · rintro ⟨document, hparse⟩
    obtain ⟨n, hreads⟩ := parseItems_eq_ok_iff.1 hparse
    exact hreads.fits hreads.fits_rest
  · intro hfits
    obtain ⟨nodes, n, hreads, -⟩ := exists_reads items .eof (fun _ => rfl) hfits
    exact ⟨nodes, parseItems_eq_ok_iff.2 ⟨n, hreads⟩⟩

end StyleWeave.Syntax
