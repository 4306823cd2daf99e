import StyleWeave.Proofs.Render.Substitution
import StyleWeave.Proofs.Syntax.Flow

/-!
# Passages between imports

The text between two import statements of a document is lexed by itself, row by row, and no import
is read of it wherever it is put (`silent_of_parse`). The proof goes through the document from
statement to statement.
-/

namespace StyleWeave

open Text (bytes slice dropBytes rows)
open Lexeme (Edge Lexes LexesRows Spaced bares kept squeezed stream)

namespace Syntax

variable {xs : List Located} {ts us : List Token}

theorem bares_of_items {size : Nat} {spots : List Spot}
    (h : List.Forall₂ (Spot.IsItem size) spots xs) : Bares xs (bares spots) := by
  induction h with
  | nil => exact bares_nil_iff.2 rfl
  | cons hl _ ih =>
    refine ih.cons ?_
    rw [hl.item]
    rfl

theorem Bares.unique (h : Bares xs ts) (h' : Bares xs us) : ts = us :=
  List.map_injective_iff.2 (fun _ _ => Item.token.inj) (h.symm.trans h')

theorem Idle.squeezed_true {fresh : Bool} (h : Idle (squeezed fresh ts)) :
    Idle (squeezed true ts) := by
  cases fresh with
  | true => exact h
  | false =>
    rcases Lexeme.squeezed_true ts with hsame | hmore
    · rwa [hsame] at h
    · rw [hmore] at h
      exact h.of_newline

theorem Idle.squeezed_concat {fresh : Bool} (h : Idle (squeezed fresh ts)) :
    Idle (squeezed fresh (ts ++ [.newline])) := by
  rcases Lexeme.squeezed_concat fresh ts with hsame | hmore
  · rwa [hsame]
  · rw [hmore]
    exact h.append (Idle.nil.single rfl)

/-! ## Silent rows -/

/-- The rows are lexed by themselves, to tokens that no import is read of. -/
def Silent (texts : List (List Char)) : Prop :=
  ∃ tss, LexesRows false texts tss false ∧ Idle (stream tss)

theorem silent_of_idle {text v : List Char} {spots : List Spot} {fresh : Bool}
    (h : Lexes false (text ++ v) spots false v) (hspaced : Spaced text) (hv : Edge v)
    (hidle : Idle (squeezed fresh (bares spots ++ [.newline]))) : Silent (rows text) := by
  obtain ⟨tss, hrows, hstream⟩ := h.rows hspaced hv
  refine ⟨tss, hrows, ?_⟩
  rw [hstream]
  exact hidle.squeezed_true

end Syntax

namespace Inline

open Syntax (Bares Course Silent Spans bares_of_items silent_of_idle)

theorem forall₂_split {α β : Type} {R : α → β → Prop} {as : List α} {bs cs : List β}
    (h : List.Forall₂ R as (bs ++ cs)) :
    ∃ first second, as = first ++ second ∧ List.Forall₂ R first bs ∧ List.Forall₂ R second cs :=
  ⟨as.take bs.length, as.drop bs.length, (List.take_append_drop _ _).symm,
    List.forall₂_take_append _ _ _ h, List.forall₂_drop_append _ _ _ h⟩

theorem bytes_of_suffix {source before v rest : List Char} (hsource : source = before ++ v)
    (h : rest <:+ v) :
    ∃ text, v = text ++ rest ∧ source = before ++ text ++ rest ∧
      bytes (before ++ text) = bytes source - bytes rest := by
  obtain ⟨text, rfl⟩ := h
  refine ⟨text, rfl, by rw [hsource, List.append_assoc], ?_⟩
  rw [hsource, ← List.append_assoc, Text.bytes_append (before ++ text) rest, Nat.add_sub_cancel]

theorem dropBytes_of_append {source before v : List Char} (hsource : source = before ++ v) :
    dropBytes source (bytes before) = v := by
  rw [hsource, Text.dropBytes_bytes_append]

/-- Where items are cut at a token, the places in the text are. -/
theorem exists_cut {size : Nat} {fresh : Bool} {spots : List Spot} {front rest : List Located}
    {l : Located} (h : List.Forall₂ (Spot.IsItem size) (kept fresh (spots ++ [.ending]))
      (front ++ l :: rest)) (hl : l.item ≠ .token .newline) :
    ∃ first k second, spots = first ++ k :: second ∧ k.token ≠ .newline ∧ k.IsItem size l ∧
      List.Forall₂ (Spot.IsItem size) (kept fresh first) front ∧
      List.Forall₂ (Spot.IsItem size) (kept false (second ++ [.ending])) rest := by
  obtain ⟨here, others, hkept, hhere, hothers⟩ := forall₂_split h
  obtain ⟨k, behind, hk, hbehind, rfl⟩ := List.forall₂_cons_right_iff.1 hothers
  have hne : k.token ≠ .newline := fun hnewline => hl (hk.item.trans (by rw [hnewline]))
  obtain ⟨first, second, rfl, rfl, rfl⟩ := Lexeme.kept_cut hkept hne
  exact ⟨first, k, second, rfl, hne, hk, hhere, hbehind⟩

/-- What stands in front of a statement, between two statements and behind the last is silent. -/
theorem silent_of_course {source before v : List Char} {spots : List Spot} {fresh : Bool}
    {xs : List Located} {imports : List Import} {sites : List ImportSite} (h : Course xs imports)
    (hsource : source = before ++ v) (hlexes : Lexes false v spots false [])
    (hitems : List.Forall₂ (Spot.IsItem (bytes source)) (kept fresh (spots ++ [.ending])) xs)
    (hsites : sites.map ImportSite.statement = imports)
    (hspans : Spans source (bytes before) imports) {cs : List Char} (hspaced : Spaced cs)
    (hcs : .text cs ∈ parts source (bytes before) sites) : Silent (rows cs) := by
  induction h generalizing before v spots fresh sites with
  | @idle xs ts bares idle =>
    obtain rfl := List.map_eq_nil_iff.1 hsites
    rw [parts, List.mem_singleton, dropBytes_of_append hsource] at hcs
    obtain rfl := Part.text.inj hcs
    obtain rfl := bares.unique (bares_of_items hitems)
    rw [Lexeme.bares_kept, Lexeme.bares_append] at idle
    have hall : Lexes false (cs ++ []) spots false [] := by
      rw [List.append_nil]
      exact hlexes
    exact silent_of_idle hall hspaced (by simp [Edge]) idle
  | @statement xs stretch rest ts l last statement imports bares idle keyword start getLast solid
      stop others ih =>
    obtain ⟨site, sites, rfl⟩ : ∃ site sites', sites = site :: sites' := by
      cases sites with
      | nil => cases hsites
      | cons site sites => exact ⟨site, sites, rfl⟩
    obtain ⟨rfl, hmore⟩ := List.cons.inj hsites
    obtain - | ⟨hle, hlt, -, -, hhead, hspans⟩ := hspans
    -- The keyword, and the text in front of it.
    have hnoFeed : l.item ≠ .token .newline := by rcases keyword with heq | heq <;> simp [heq]
    obtain ⟨first, k, second, rfl, hkeyword, hk, hhere, hbehind⟩ := exists_cut hitems hnoFeed
    obtain ⟨hfront, hback⟩ := hlexes.at_front hkeyword
    obtain ⟨text, hv, hcut, hbytes⟩ := bytes_of_suffix hsource hfront.suffix
    rw [← (hk.place hkeyword).1, ← start] at hbytes
    rw [parts] at hcs
    rcases List.mem_cons.1 hcs with hcs | hcs
    · have hslice : slice source (bytes before) site.statement.start = text := by
        rw [← hbytes, Text.bytes_append, hcut, List.append_assoc, Text.slice_of_append]
      rw [hslice] at hcs
      obtain rfl := Part.text.inj hcs
      obtain rfl := bares.unique (bares_of_items hhere)
      rw [Lexeme.bares_kept] at idle
      have hedge : Edge k.front := by
        intro c hc
        rw [← hbytes, dropBytes_of_append hcut] at hhead
        rw [hhead] at hc
        exact Or.inr (Or.inr (Or.inr (Or.inr (Option.some.inj hc).symm)))
      exact silent_of_idle (hv ▸ hfront) hspaced hedge idle.squeezed_concat
    · -- The last token of the statement, and what is behind it.
      obtain ⟨front, hfrontLast⟩ := List.getLast?_eq_some_iff.1 getLast
      have hall : List.Forall₂ (Spot.IsItem (bytes source)) (kept true (k :: second ++ [.ending]))
          (front ++ last :: rest) := by
        have hsplit : front ++ last :: rest = l :: (stretch ++ rest) := by
          rw [← List.cons_append, hfrontLast, List.append_assoc]
          rfl
        rw [hsplit, List.cons_append, kept, if_neg hkeyword]
        exact .cons hk hbehind
      have hlastFeed : last.item ≠ .token .newline := by
        obtain ⟨t, ht, hne⟩ := solid
        rw [ht]
        exact fun hnewline => hne (Item.token.inj hnewline)
      obtain ⟨first', k', second', hsecond, hlast, hk', -, hbehind'⟩ := exists_cut hall hlastFeed
      rw [hsecond] at hback
      obtain ⟨hupto, hafter⟩ := hback.at_back hlast
      obtain ⟨text', -, hcut', hbytes'⟩ := bytes_of_suffix hcut hupto.suffix
      rw [← (hk'.place hlast).2, ← stop] at hbytes'
      rw [← hbytes'] at hcs hspans
      rcases List.mem_cons.1 hcs with hcs | hcs
      · cases hcs
      · exact ih hcut' hafter hbehind' hmore hspans hcs

/-- The text between the import statements of a document is silent. -/
theorem silent_of_parse {source : List Char} {document : List Node}
    (hparse : parse source = .ok document) (table : Table) {cs : List Char} (hspaced : Spaced cs)
    (hcs : .text cs ∈ parts source 0 (importSites document table)) : Silent (rows cs) := by
  obtain ⟨items, htokens, -⟩ := bind_eq_ok hparse
  obtain ⟨spots, hlexes⟩ := lexes_of_tokenize htokens
  obtain ⟨hlaid, hitems⟩ := tokens_of_lexes hlexes htokens
  have hcourse := Syntax.course (Or.inr ⟨0, true, hlaid⟩)
  rw [Syntax.importsOf_of_parse htokens hparse] at hcourse
  exact silent_of_course hcourse (List.nil_append source).symm hlexes hitems
    (statements_of_importSites document table) (Syntax.spans_of_parse hparse) hspaced hcs

end Inline

end StyleWeave
