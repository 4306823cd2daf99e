import StyleWeave.Proofs.Syntax.Locality
import StyleWeave.Proofs.Token.Blanking

/-!
# Comments in documents

The readers of expressions and statements look only at the items of a token stream, not at their
places; the places that an import statement has are those of tokens. So a document reads the same
when its comments are blank space (`parse_blankComments`).
-/

namespace StyleWeave.Syntax

/-- Two token streams have the same items. -/
def SameItems (items items' : List Located) : Prop :=
  items.map Located.item = items'.map Located.item

variable {items items' ls ls' : List Located} {l l' : Located}

theorem SameItems.cons_iff :
    SameItems (l :: ls) (l' :: ls') ↔ l.item = l'.item ∧ SameItems ls ls' := by
  unfold SameItems
  rw [List.map_cons, List.map_cons, List.cons.injEq]

theorem SameItems.append {xs xs' ys ys' : List Located} (h : SameItems xs xs')
    (h' : SameItems ys ys') : SameItems (xs ++ ys) (xs' ++ ys') := by
  unfold SameItems at h h' ⊢
  rw [List.map_append, List.map_append, h, h']

theorem SameItems.drop (h : SameItems items items') (n : Nat) :
    SameItems (items.drop n) (items'.drop n) := by
  have hdrop := congrArg (List.drop n) h
  rwa [← List.map_drop, ← List.map_drop] at hdrop

theorem SameItems.head (h : SameItems items items') :
    items.head?.map Located.item = items'.head?.map Located.item := by
  have hhead := congrArg List.head? h
  rwa [List.head?_map, List.head?_map] at hhead

theorem SameItems.same (h : SameItems items items') (n : Nat) : Same n items' items :=
  congrArg (List.take n) (Eq.symm h)

theorem SameItems.count (h : SameItems items items') (t : Token) :
    count t items = count t items' :=
  (h.same 1).count t

theorem SameItems.statementRest (h : SameItems items items') :
    statementRest items = statementRest items' :=
  (h.same _).like.statementRest

theorem SameItems.continuationRest (h : SameItems items items') (indents : Nat) :
    continuationRest indents items = continuationRest indents items' :=
  (h.same _).continuationRest

theorem SameItems.heading (h : SameItems items items') (depth : Nat) :
    heading depth items = heading depth items' :=
  (h.same _).heading

theorem SameItems.expression (h : SameItems items items') : expression items = expression items' :=
  same_expression _ _ (h.same _)

theorem SameItems.expressions (h : SameItems items items') :
    expressions items = expressions items' :=
  (h.same _).expressions

/-! ## Statements -/

theorem sameItems_of_alike (h : AllAlike items items') : SameItems items items' := by
  induction h with
  | nil => rfl
  | cons hl _ ih => exact SameItems.cons_iff.2 ⟨hl.1, ih⟩

/-- A stretch of items stops behind its last token. -/
theorem lastStop_of_alike (h : AllAlike items items') : lastStop items = lastStop items' := by
  have hfold : ∀ f : Nat → Located → Nat,
      (∀ stop a b, Located.Alike a b → f stop a = f stop b) →
      ∀ stop, items.foldl f stop = items'.foldl f stop := by
    intro f hf
    induction h with
    | nil => exact fun _ => rfl
    | cons hl _ ih =>
      intro stop
      rw [List.foldl_cons, List.foldl_cons, hf stop _ _ hl]
      exact ih _
  unfold lastStop
  refine hfold _ (fun stop a b hab => ?_) 0
  by_cases hsolid : a.IsSolid
  · rw [hab.2 hsolid]
  · rw [← hab.1]
    split
    · rfl
    · next t hnot hitem =>
      exfalso
      refine hsolid ⟨t, hitem, ?_⟩
      rintro rfl
      exact hnot rfl
    · rfl

theorem importing_of_alike (kind : ImportKind) (hl : l = l') (h : AllAlike ls ls') :
    importing kind l ls = importing kind l' ls' := by
  subst hl
  have hsame := sameItems_of_alike h
  have hstop : ∀ n, lastStop (l :: ls.take n) = lastStop (l :: ls'.take n) := fun n =>
    lastStop_of_alike (.cons (.refl l) (List.forall₂_take n h))
  unfold importing
  dsimp only
  rw [hsame.expressions, (hsame.drop _).statementRest, (hsame.drop _).count,
    (hsame.drop _).continuationRest, hstop]

theorem assignment_of_alike (name : String) (op : AssignOp) (h : AllAlike ls ls') :
    assignment name op ls = assignment name op ls' := by
  have hsame := sameItems_of_alike h
  unfold assignment
  dsimp only
  rw [hsame.expression, (hsame.drop _).statementRest]

theorem opening_of_alike (hl : l.Alike l') (h : AllAlike ls ls') :
    opening l ls = opening l' ls' := by
  have hsame := sameItems_of_alike h
  have hitem : l'.item = l.item := hl.1.symm
  have hheading : heading 0 (l' :: ls') = heading 0 (l :: ls) :=
    (SameItems.heading (SameItems.cons_iff.2 ⟨hl.1, hsame⟩) 0).symm
  generalize hopening : opening l ls = read
  obtain ⟨start, n⟩ := read
  symm
  cases opening_eq_iff.1 hopening with
  | import_ kind hkeyword =>
    have hsolid : l.IsSolid := ⟨_, hkeyword, by cases kind <;> simp [ImportKind.token]⟩
    rw [importing_of_alike kind (hl.2 hsolid) h]
    exact opening_import kind ls' (hitem.trans hkeyword)
  | assigns hname split hop =>
    subst split
    cases h with
    | cons hnext hothers =>
      rw [assignment_of_alike _ _ hothers]
      exact opening_assign _ (hitem.trans hname) (hnext.1 ▸ hop)
  | declaration hheaded hread =>
    exact opening_eq_iff.2
      (.declaration (hheaded.congr hitem hsame.head.symm) (hheading.trans hread))
  | block hheaded hread =>
    exact opening_eq_iff.2 (.block (hheaded.congr hitem hsame.head.symm) (hheading.trans hread))

/-- Alike items are read as the same statements. -/
theorem Reads.of_alike {close : BlockEnd} {nodes : List Node} {n : Nat}
    (h : Reads close items nodes n) (halike : AllAlike items items') :
    Reads close items' nodes n := by
  induction h generalizing items' with
  | nothing open_ =>
    cases halike
    exact .nothing open_
  | eof ls item open_ =>
    cases halike with
    | cons hl _ => exact .eof _ (hl.1 ▸ item) open_
  | dedent ls item =>
    cases halike with
    | cons hl _ => exact .dedent _ (hl.1 ▸ item)
  | closeBrace ls item =>
    cases halike with
    | cons hl _ => exact .closeBrace _ (hl.1 ▸ item)
  | blank item _ ih =>
    cases halike with
    | cons hl hls => exact .blank (hl.1 ▸ item) (ih hls)
  | block item _ _ ih ih' =>
    cases halike with
    | cons hl hls => exact .block (hl.1 ▸ item) (ih hls) (ih' (List.forall₂_drop _ hls))
  | complete item statement _ ih =>
    cases halike with
    | cons hl hls =>
      have hopening := opening_of_alike hl hls
      exact .complete (hl.1 ▸ item) (hopening ▸ statement) (ih (List.forall₂_drop _ hls))
  | rule item statement _ _ ih ih' =>
    cases halike with
    | cons hl hls =>
      have hopening := opening_of_alike hl hls
      have hbody := ih (List.forall₂_drop _ hls)
      have hothers := ih' (List.forall₂_drop _ hls)
      exact .rule (hl.1 ▸ item) (hopening ▸ statement) hbody hothers

theorem parseItems_of_alike (h : AllAlike items items') (document : List Node) :
    parseItems items = .ok document ↔ parseItems items' = .ok document := by
  have hreads : ∀ {items items' : List Located}, AllAlike items items' →
      parseItems items = .ok document → parseItems items' = .ok document := by
    intro items items' h hparse
    obtain ⟨n, hn⟩ := parseItems_eq_ok_iff.1 hparse
    exact parseItems_eq_ok_iff.2 ⟨n, hn.of_alike h⟩
  exact ⟨hreads h, hreads (AllAlike.symm h)⟩

end StyleWeave.Syntax

namespace StyleWeave

/-- Comments are blank space: with a blank in place of each of their bytes, and their line breaks
as they are, a text has as many bytes as before and is read as the same document, or is read as
malformed as before. -/
theorem parse_blankComments (source : List Char) :
    Text.bytes (blankComments source) = Text.bytes source ∧
      ∀ document, parse source = .ok document ↔ parse (blankComments source) = .ok document := by
  refine ⟨bytes_blankComments source, fun document => ?_⟩
  have hagrees := tokenize_blankComments source
  unfold parse
  cases hfirst : tokenize source with
  | error e =>
    rw [hfirst] at hagrees
    cases hsecond : tokenize (blankComments source) with
    | error e' =>
      constructor
      · intro h
        cases h
      · intro h
        cases h
    | ok items' =>
      rw [hsecond] at hagrees
      cases hagrees
  | ok items =>
    rw [hfirst] at hagrees
    cases hsecond : tokenize (blankComments source) with
    | error e' =>
      rw [hsecond] at hagrees
      cases hagrees
    | ok items' =>
      rw [hsecond] at hagrees
      exact Syntax.parseItems_of_alike hagrees document

/-- A comment with an import, a quote and a line break in it. -/
example : blankComments "a /* @import 'b\n'c */ d // e".toList =
    "a              \n      d     ".toList := by
  cbv

end StyleWeave
