import Mathlib.Data.List.Pairwise
import StyleWeave.Proofs.Render.Cover
import StyleWeave.Proofs.Token.Standing

/-!
# Where a document is cut

The imports of a document span stretches of its text that lie one behind the other, each from its
keyword to the end of a token (`Sited`). So a pass that goes through the document line by line cuts
it between characters only, and never backwards (`safe_of_parse`).
-/

namespace StyleWeave

open Text (Boundary bytes bytes_append slice takeBytes)
open Lexeme (kindOf)

variable {source : List Char} {items : List Located} {document : List Node}

/-! ## Keywords -/

theorem Lexeme.text_of_atToken {name : List Char} {kind : ImportKind}
    (h : atToken name = kind.token) : '@' :: name = kind.printed := by
  unfold atToken at h
  split at h
  · next heq =>
    have hname := congrArg String.toList heq
    rw [String.toList_ofList] at hname
    cases kind with
    | import_ => rw [hname]; rfl
    | require => cases h
  · next heq =>
    have hname := congrArg String.toList heq
    rw [String.toList_ofList] at hname
    cases kind with
    | import_ => cases h
    | require => rw [hname]; rfl
  · cases kind <;> cases h

/-- The keyword of an import is spelled in full. -/
theorem Lexeme.text_of_keyword {c : Char} {cs : List Char} {kind : ImportKind}
    (h : (kindOf c cs).1 = .token kind.token) : c :: cs.take (kindOf c cs).2 = kind.printed := by
  have hkeyword : (kindOf c cs).1 = .token .atImport ∨ (kindOf c cs).1 = .token .atRequire := by
    cases kind with
    | import_ => exact Or.inl h
    | require => exact Or.inr h
  obtain rfl : c = '@' := kindOf_keyword hkeyword
  have hother : ∀ s : String, Kind.token (.punct s) ≠ .token kind.token := by
    intro s heq
    cases kind <;> cases heq
  cases cs with
  | nil => exact absurd h (hother _)
  | cons d ds =>
    have hkind : kindOf '@' (d :: ds) = if isNameStart d || d = '-' then
        (.token (atToken ((d :: ds).takeWhile isNameChar)), ((d :: ds).takeWhile isNameChar).length)
        else (.token (.punct (String.ofList ['@'])), 0) := by
      rfl
    rw [hkind] at h ⊢
    split at h
    · next hname =>
      rw [if_pos hname]
      dsimp only at h ⊢
      rw [take_takeWhile]
      exact text_of_atToken (Kind.token.inj h)
    · exact absurd h (hother _)

/-! ## Statements in the text -/

/-- The statements lie in the text in this order, apart from each other, each from its keyword to
the end of a token, on the line that the text in front of it ends with. -/
structure Sited (source : List Char) (items : List Located) (statements : List Import) : Prop where
  apart : statements.Pairwise fun a b => a.start < b.start ∧ a.stop ≤ b.start
  between : ∀ s ∈ statements,
    s.start < s.stop ∧ s.stop ≤ bytes source ∧ Boundary source s.start ∧ Boundary source s.stop
  keyword : ∀ s ∈ statements, s.kind.printed <+: slice source s.start s.stop
  ends : ∀ s ∈ statements, ∃ l ∈ items, l.IsSolid ∧ l.stop = s.stop
  line : ∀ s ∈ statements, s.line = (takeBytes source s.start).count '\n'

/-- Of two tokens, one stops in front of the other. -/
theorem solid_apart (h : tokenize source = .ok items) {a b : Located} (ha : a ∈ items)
    (hb : b ∈ items) (hsolid : a.IsSolid) (hsolid' : b.IsSolid) (hne : a ≠ b) :
    a.stop ≤ b.start ∨ b.stop ≤ a.start := by
  let Apart (a b : Located) : Prop :=
    a.IsSolid → b.IsSolid → a.stop ≤ b.start ∨ b.stop ≤ a.start
  have hsymm : Std.Symm Apart := ⟨fun _ _ hab hsolid hsolid' => (hab hsolid' hsolid).symm⟩
  have hapart : items.Pairwise Apart :=
    (tokens_of_tokenize h).2.imp fun hab hsolid hsolid' => Or.inl (hab hsolid hsolid')
  exact hapart.forall ha hb hne hsolid hsolid'

/-- The import statements of a document are sited in its text. -/
theorem sited_of_parse (htokens : tokenize source = .ok items) (h : parse source = .ok document) :
    Sited source items (Node.importsOfAll document) := by
  have hspans := Syntax.spans_of_parse h
  have hlies := (tokens_of_tokenize htokens).1
  have hread : ∀ s ∈ Node.importsOfAll document, ∃ l ∈ items, l.item = .token s.kind.token ∧
      s.line = l.line ∧ s.start = l.start ∧ ∃ last ∈ items, last.IsSolid ∧ s.stop = last.stop := by
    obtain ⟨items', htokens', hparse⟩ := bind_eq_ok h
    obtain rfl := Except.ok.inj (htokens.symm.trans htokens')
    obtain ⟨n, hreads⟩ := Syntax.parseItems_eq_ok_iff.1 hparse
    intro s hs
    obtain ⟨l, hl, hitem, hline, hstart, last, hlast, hmore⟩ := hreads.taken.exists_keyword hs
    exact ⟨l, List.mem_of_mem_take hl, hitem, hline, hstart, last, List.mem_of_mem_take hlast,
      hmore⟩
  have hbetween : ∀ s ∈ Node.importsOfAll document,
      s.start < s.stop ∧ s.stop ≤ bytes source ∧ Boundary source s.start ∧
        Boundary source s.stop := by
    intro s hs
    obtain ⟨l, hl, hitem, -, hstart, last, hlast, hsolid, hstop⟩ := hread s hs
    have hfrom := (hlies l hl ⟨_, hitem, s.kind.token_ne_newline⟩).start
    have hto := (hlies last hlast hsolid).stop
    rw [← hstart] at hfrom
    rw [← hstop] at hto
    exact ⟨hspans.start_lt_stop hs, hto.le, hfrom, hto⟩
  refine ⟨?_, hbetween, ?_, ?_, ?_⟩
  · refine hspans.pairwise.imp_of_mem fun {a b} ha _ hab => ?_
    have hlt := hspans.start_lt_stop ha
    exact ⟨by omega, hab.1⟩
  · intro s hs
    obtain ⟨l, hl, hitem, -, hstart, last, hlast, hsolid, hstop⟩ := hread s hs
    have hl' : l.IsSolid := ⟨_, hitem, s.kind.token_ne_newline⟩
    obtain ⟨front, lexeme, behind, hlexeme, hcut, hstands⟩ := stands_of_tokenize htokens hl hl'
    obtain ⟨t, hkind, ht⟩ := hstands.item
    obtain rfl : t = s.kind.token := Item.token.inj (ht.symm.trans hitem)
    obtain ⟨c, cs, hkind', htext⟩ := Lexeme.exists_kindOf hlexeme
    have hkeyword : lexeme.text = s.kind.printed := by
      rw [htext]
      exact Lexeme.text_of_keyword (hkind'.symm.trans hkind)
    have hfrom := hstands.start
    have hto := hstands.stop
    have hlt := hspans.start_lt_stop hs
    have hle : l.stop ≤ s.stop := by
      by_cases heq : l = last
      · rw [heq, hstop]
      · have hwide := (hlies last hlast hsolid).lt
        rcases solid_apart htokens hl hlast hl' hsolid heq with hbefore | hbehind
        · omega
        · omega
    have hfirst : slice source s.start l.stop = s.kind.printed := by
      rw [hcut, hstart, hfrom, hto, Text.slice_of_append, hkeyword]
    rw [← Text.slice_append_slice (hbetween s hs).2.2.1 (hlies l hl hl').stop (hbetween s hs).2.2.2
      (by rw [hstart, hfrom, hto]; omega) hle, hfirst]
    exact List.prefix_append _ _
  · intro s hs
    obtain ⟨l, -, -, -, -, last, hlast, hsolid, hstop⟩ := hread s hs
    exact ⟨last, hlast, hsolid, hstop.symm⟩
  · intro s hs
    obtain ⟨l, hl, hitem, hline, hstart, -⟩ := hread s hs
    obtain ⟨front, lexeme, behind, -, hcut, hstands⟩ :=
      stands_of_tokenize htokens hl ⟨_, hitem, s.kind.token_ne_newline⟩
    rw [hline, hstands.line, hstart, hstands.start, hcut, Text.takeBytes_bytes_append]

namespace Inline

/-- Whatever the variables are, the imports of a document are sited in its text. For each document
that a pass goes through, each line lies between characters, and what is written of the text is cut
out between characters, from a place to one that is not in front of it. -/
theorem safe_of_parse (h : parse source = .ok document) (table : Table) :
    (∃ items, tokenize source = .ok items ∧
      Sited source items ((importSites document table).map ImportSite.statement)) ∧
    (∀ line ∈ Text.lines source, line.start ≤ line.stop ∧ Boundary source line.start ∧
      Boundary source line.stop ∧ slice source line.start line.stop = line.text) ∧
    ∀ {σ : Type} (env : Setting σ) (nested : Inliner σ) (stack : List Path) (sheet : Sheet)
      (p : Pass σ), sheet.source = source →
      Step.exec (renderLines env nested stack sheet (Text.lines source) 0
          (sitesInOrder document table)) p =
        Step.exec (performAll env nested stack sheet (planSheet sheet document table)) p ∧
      Cuts source (cutLines (Text.lines source) 0 (importSites document table))
        (planSheet sheet document table) := by
  refine ⟨?_, ?_, ?_⟩
  · obtain ⟨items, htokens, -⟩ := bind_eq_ok h
    refine ⟨items, htokens, ?_⟩
    rw [statements_of_importSites]
    exact sited_of_parse htokens h
  · exact fun line hline => (Text.linesAt_lines source).between_of_mem hline
  · intro σ env nested stack sheet p hsource
    subst hsource
    exact ⟨exec_renderLines _ _ _ _, (linesDone_planSheet h).cuts⟩

/-- Two imports on one line, the second one continued on the next. -/
theorem safe_of_parse_sharedLine :
    ∃ document, parse "x \x7b @import 'é'; @require 'b',\n 'c' \x7d\n".toList = .ok document ∧
      (Node.importsOfAll document).map (fun s => (s.kind, s.line, s.start, s.stop)) =
        [(.import_, 0, 4, 17), (.require, 0, 18, 36)] ∧
      ∃ items, tokenize "x \x7b @import 'é'; @require 'b',\n 'c' \x7d\n".toList = .ok items ∧
        Sited "x \x7b @import 'é'; @require 'b',\n 'c' \x7d\n".toList items
          ((importSites document .empty).map ImportSite.statement) := by
  have hread : (parse "x \x7b @import 'é'; @require 'b',\n 'c' \x7d\n".toList).toOption.map
      (fun document =>
        (Node.importsOfAll document).map fun s => (s.kind, s.line, s.start, s.stop)) =
        some [(.import_, 0, 4, 17), (.require, 0, 18, 36)] := by
    decide +kernel
  cases hparse : parse "x \x7b @import 'é'; @require 'b',\n 'c' \x7d\n".toList with
  | error e =>
    rw [hparse] at hread
    cases hread
  | ok document =>
    rw [hparse] at hread
    exact ⟨document, rfl, Option.some.inj hread, (safe_of_parse hparse .empty).1⟩

end Inline

end StyleWeave
