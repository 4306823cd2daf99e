import StyleWeave.Proofs.Render.Rereading
import StyleWeave.Proofs.Syntax.Flow
import StyleWeave.Proofs.Token.Spelling

/-!
# Rules are read as imports

A rule whose text ends neither the string nor the parentheses that it stands in is lexed as a
keyword, one operand and a semicolon (`Readable.lexes`), and these are read as the import that the
rule was written for (`importsOf_rule`).
-/

namespace StyleWeave

open Lexeme (Lexes Spells)

namespace Lexeme

variable {text v rest : List Char} {t : Token} {B : List Char → Prop} {m : Bool} {spots : List Spot}

theorem Spells.lexes (h : Spells text t B) (hB : B rest) (others : Lexes false rest spots m v) :
    Lexes false (text ++ rest) (⟨t, text ++ rest, rest⟩ :: spots) m v := by
  obtain ⟨c, more, rfl, hgap, hslash, hkind⟩ := h
  exact .token hgap (commentRest_of_ne hslash _) (hkind rest hB) others

theorem spells_semicolon : Spells [';'] .semicolon fun _ => True :=
  ⟨';', [], rfl, by decide, by decide, fun _ _ => rfl⟩

theorem urlInside_of_closed {inside : List Char} (hclose : ')' ∉ inside) (hfeed : '\n' ∉ inside)
    (rest : List Char) : urlInside (inside ++ ')' :: rest) = (inside.length, true) := by
  have hgo : ∀ c ∈ inside, (c != ')' && c != '\n') = true := by
    intro c hc
    have hclose' : c ≠ ')' := fun heq => hclose (heq ▸ hc)
    have hfeed' : c ≠ '\n' := fun heq => hfeed (heq ▸ hc)
    simp [hclose', hfeed']
  unfold urlInside
  rw [takeWhile_append_of_stop hgo fun d hd => by obtain rfl := Option.some.inj hd; decide]
  dsimp only
  rw [List.drop_left' rfl]
  rfl

/-- A `url(...)` is spelled by what stands in its parentheses if that does not close them. -/
theorem spells_url {inside : List Char} (hclose : ')' ∉ inside) (hfeed : '\n' ∉ inside) :
    Spells ("url(".toList ++ (inside ++ [')']))
      (.url (String.ofList ("url(".toList ++ (inside ++ [')'])))) fun _ => True := by
  refine ⟨'u', "rl(".toList ++ (inside ++ [')']), rfl, by decide, by decide, fun rest _ => ?_⟩
  have hsplit : "rl(".toList ++ (inside ++ [')']) ++ rest =
      "rl".toList ++ '(' :: (inside ++ ')' :: rest) := by simp
  have hmore : ("rl".toList ++ '(' :: (inside ++ ')' :: rest)).takeWhile isIdentChar =
      "rl".toList := takeWhile_paren (List.all_eq_true.1 (by decide))
  have hparen : ("rl".toList ++ '(' :: (inside ++ ')' :: rest)).drop
      (("rl".toList ++ '(' :: (inside ++ ')' :: rest)).takeWhile isIdentChar).length =
        '(' :: (inside ++ ')' :: rest) := by
    rw [hmore]
    exact List.drop_left' rfl
  have hlength : "rl".toList.length + (inside.length + 1 + 1) =
      ("rl(".toList ++ (inside ++ [')'])).length := by
    simp only [List.length_append, List.length_singleton]
    show 2 + (inside.length + 1 + 1) = 3 + (inside.length + 1)
    omega
  have htake : ("rl".toList ++ '(' :: (inside ++ ')' :: rest)).take
      ("rl(".toList ++ (inside ++ [')'])).length = "rl(".toList ++ (inside ++ [')']) := by
    rw [← hsplit]
    exact List.take_left' rfl
  have hstart : isIdentStart 'u' = true := by decide
  rw [hsplit]
  rw [kindOf_ident hstart, identOf_of_paren hparen, hmore, if_pos (by rfl),
    urlInside_of_closed hclose hfeed]
  dsimp only [Bool.toNat_true]
  rw [hlength, htake]
  rfl

end Lexeme

/-! ## Rules that can be read -/

namespace Inline

/-- A rule that was written for an import and can be read again as this expression: nothing in it
ends the string or the parentheses that it stands in, and the lexer takes nothing out of it. -/
inductive Readable (options : Options) : String → Expr → Prop where
  | url {target : String} (close : ')' ∉ target.toList) (feed : '\n' ∉ target.toList)
      (same : Syntax.urlTarget ("url(\"" ++ target ++ "\")") = target) :
      Readable options (urlRule target) (.call "url" [.literal target])
  | name {name : String} (rule : isRule options name = true) (quote : '"' ∉ name.toList)
      (escape : '\\' ∉ name.toList) (feed : '\n' ∉ name.toList) :
      Readable options (nameRule name) (.literal name)

variable {options : Options} {rule : String} {expr : Expr}

theorem Readable.denotes (h : Readable options rule expr) {statement : Import}
    (hexprs : statement.exprs = [expr]) : Denotes options rule statement := by
  cases h with
  | url close feed same => exact Or.inl ⟨_, rfl, hexprs⟩
  | name rule quote escape feed => exact Or.inr ⟨_, rfl, rule, hexprs⟩

theorem Readable.single (h : Readable options rule expr) : '\n' ∉ rule.toList := by
  cases h with
  | url close feed same => simpa [urlRule] using feed
  | name rule quote escape feed => simpa [nameRule] using feed

theorem Readable.shown (h : Readable options rule expr) : rule.toList ≠ [] := by
  cases h with
  | url close feed same => simp [urlRule]
  | name rule quote escape feed => simp [nameRule]

theorem flatMap_escaped {text : List Char} (hquote : '"' ∉ text) (hescape : '\\' ∉ text) :
    text.flatMap escaped = text := by
  have hsame : ∀ c ∈ text, escaped c = [c] := by
    intro c hc
    have hquote' : c ≠ '"' := fun heq => hquote (heq ▸ hc)
    have hescape' : c ≠ '\\' := fun heq => hescape (heq ▸ hc)
    simp [escaped, hquote', hescape']
  rw [List.flatMap_congr hsame]
  exact List.flatMap_singleton' text

/-- The token is a string or a URL that is read as this operand, whatever follows it. -/
def IsArgument (t : Token) (expr : Expr) : Prop :=
  (∃ text, t = .string text ∨ t = .url text) ∧ ∀ (l : Located) (ls : List Located),
    l.item = .token t → Syntax.primary (l :: ls) = (expr, 1)

theorem IsArgument.ne_newline {t : Token} (h : IsArgument t expr) : t ≠ .newline := by
  obtain ⟨⟨text, rfl | rfl⟩, -⟩ := h <;> simp

/-- A rule is lexed as a keyword, an operand and a semicolon. -/
theorem Readable.lexes (h : Readable options rule expr) (rest : List Char) :
    ∃ t u v w x, IsArgument t expr ∧
      Lexes false (rule.toList ++ '\n' :: rest)
        [⟨.atImport, rule.toList ++ '\n' :: rest, u⟩, ⟨t, v, w⟩, ⟨.semicolon, x, '\n' :: rest⟩,
          ⟨.newline, '\n' :: rest, rest⟩] false rest := by
  have hend : Lexes false ([';'] ++ '\n' :: rest) [⟨.semicolon, [';'] ++ '\n' :: rest,
      '\n' :: rest⟩, ⟨.newline, '\n' :: rest, rest⟩] false rest :=
    Lexeme.spells_semicolon.lexes trivial (Lexeme.lexes_feed false rest)
  have hkeyword : ∀ {text : List Char} {t : Token}, Spells text t (fun _ => True) →
      IsArgument t expr → rule.toList = "@import".toList ++ ([' '] ++ (text ++ [';'])) →
      ∃ t u v w x, IsArgument t expr ∧
        Lexes false (rule.toList ++ '\n' :: rest)
          [⟨.atImport, rule.toList ++ '\n' :: rest, u⟩, ⟨t, v, w⟩, ⟨.semicolon, x, '\n' :: rest⟩,
            ⟨.newline, '\n' :: rest, rest⟩] false rest := by
    intro text t hspells hoperand hrule
    have hblank : Lexeme.EndsName (' ' :: (text ++ ([';'] ++ '\n' :: rest))) := by
      intro c hc
      obtain rfl := Option.some.inj hc
      decide
    have hall := Lexeme.spells_import.lexes hblank (.gap (by decide) (hspells.lexes trivial hend))
    have htext : rule.toList ++ '\n' :: rest =
        "@import".toList ++ ' ' :: (text ++ ([';'] ++ '\n' :: rest)) := by
      rw [hrule]
      simp
    rw [htext]
    exact ⟨t, _, _, _, _, hoperand, hall⟩
  cases h with
  | @url target close feed same =>
    have hinside : ∀ {c : Char}, c ≠ '"' → c ∉ target.toList →
        c ∉ '"' :: (target.toList ++ ['"']) := by
      intro c hquote hc
      simp [hquote, hc]
    have htext : String.ofList ("url(".toList ++ ('"' :: (target.toList ++ ['"']) ++ [')'])) =
        "url(\"" ++ target ++ "\")" := by
      apply String.toList_injective
      simp
    have hspells := Lexeme.spells_url (hinside (by decide) close) (hinside (by decide) feed)
    rw [htext] at hspells
    refine hkeyword hspells ⟨⟨_, Or.inr rfl⟩, fun l ls hl => ?_⟩ (by simp [urlRule])
    rw [Syntax.primary, hl]
    dsimp only
    rw [same]
  | @name name rule quote escape feed =>
    have hspells := Lexeme.spells_quoted feed
    rw [String.ofList_toList] at hspells
    refine hkeyword hspells ⟨⟨_, Or.inl rfl⟩, fun l ls hl => ?_⟩
      (by simp [nameRule, quoted, flatMap_escaped quote escape])
    rw [Syntax.primary, hl]

end Inline

/-! ## Reading a rule -/

namespace Syntax

open Inline (IsArgument)

variable {p : Nat} {fresh : Bool} {items ls rest : List Located} {l x : Located} {t : Token}

/-- Behind a token that is no line break, the next token stands right there. -/
theorem next_token (h : Laid p fresh (l :: ls)) (hl : l.item = .token t) (ht : t ≠ .newline)
    (htokens : tokens ls = x :: rest) :
    ∃ ls' p' fresh', ls = x :: ls' ∧ tokens ls' = rest ∧ Laid p' fresh' (x :: ls') := by
  have hbare : l.item.bare = .token t.bare := by
    rw [hl]
    rfl
  obtain ⟨p', fresh', hbehind, -, hwithin⟩ := laid_behind h hbare (Nat.zero_le p)
  obtain ⟨l', ls', u, rfl, hl'⟩ := token_of_within hbehind
    (hwithin fun hnewline => absurd (Lexeme.eq_newline_of_bare hnewline) ht)
  rw [tokens_cons hl'] at htokens
  obtain ⟨rfl, hrest⟩ := List.cons.inj htokens
  exact ⟨ls', p', fresh', rfl, hrest, hbehind⟩

/-- An operand in front of a semicolon is all of the import statement. -/
theorem importing_operand {expr : Expr} {x x₂ x₃ : Located} (h₂ : x₂.item = .token t)
    (hoperand : IsArgument t expr) (h₃ : x₃.item = .token .semicolon) (ls : List Located) :
    ∃ statement, importing .import_ x (x₂ :: x₃ :: ls) = (.importing statement, 2) ∧
      statement.exprs = [expr] ∧ statement.start = x.start ∧ statement.stop = x₃.stop := by
  have hprimary := hoperand.2 x₂ (x₃ :: ls) h₂
  have hsum : sum expr (x₃ :: ls) = (expr, 0) := by
    rw [sum, if_neg (by rw [h₃]; simp)]
  have hdrop : (x₂ :: x₃ :: ls).drop 1 = x₃ :: ls := rfl
  have hexpression : expression (x₂ :: x₃ :: ls) = (expr, 1) := by
    have hend : atEnd (x₃ :: ls) = true := by simp [atEnd, h₃, endsExpr]
    rw [expression, hprimary]
    dsimp only
    rw [hdrop, hsum]
    exact if_pos hend
  have hexpressions : expressions (x₂ :: x₃ :: ls) = ([expr], 0, 1) := by
    unfold expressions
    rw [hexpression]
    dsimp only
    split
    · rfl
    · next l' ls' heq =>
      obtain ⟨rfl, rfl⟩ := List.cons.inj heq
      rw [if_neg (by rw [h₃]; simp)]
  have hrest : statementRest (x₃ :: ls) = 0 := by
    unfold statementRest
    rw [List.takeWhile_cons_of_neg (by rw [h₃]; simp [endsStatement])]
    rfl
  have hsemicolon : count .semicolon (x₃ :: ls) = 1 := by
    simp [count, startsWith, h₃]
  have hstop : lastStop [x, x₂, x₃] = x₃.stop := by
    rcases lastStop_append [x, x₂] x₃ with ⟨h, -⟩ | ⟨-, hnot⟩
    · exact h
    · exact absurd ⟨_, h₃, by simp⟩ hnot
  refine ⟨{ kind := .import_, exprs := [expr], line := x.line, start := x.start, stop := x₃.stop },
    ?_, rfl, rfl, rfl⟩
  unfold importing
  rw [hexpressions]
  dsimp only
  rw [hdrop, hrest, Nat.add_zero, hdrop, hsemicolon]
  dsimp only [continuationRest, Nat.add_zero, List.take_succ_cons, List.take_zero]
  rw [hstop]

/-- A keyword, an operand and a semicolon on a line are read as an import of the operand. -/
theorem importsOf_rule {expr : Expr} {x₁ x₂ x₃ x₄ : Located} (hlaid : Laid p fresh items)
    (htokens : tokens items = x₁ :: x₂ :: x₃ :: x₄ :: rest) (h₁ : x₁.item = .token .atImport)
    (h₂ : x₂.item = .token t) (hoperand : IsArgument t expr) (h₃ : x₃.item = .token .semicolon)
    (h₄ : x₄.item = .token .newline) :
    ∃ statement items' p' fresh', Laid p' fresh' items' ∧ tokens items' = rest ∧
      importsOf items = statement :: importsOf items' ∧ statement.exprs = [expr] ∧
      statement.start = x₁.start ∧ statement.stop = x₃.stop := by
  obtain ⟨items', hlaid₁, htokens', himports, hstart⟩ := exists_skip hlaid
  rw [htokens] at htokens' hstart
  obtain ⟨l, ls₁, u, rfl, hl⟩ := hstart.resolve_left (by simp)
  rw [tokens_cons hl] at htokens'
  obtain ⟨rfl, htokens₁⟩ := List.cons.inj htokens'
  obtain ⟨ls₂, p₂, fresh₂, rfl, htokens₂, hlaid₂⟩ := next_token hlaid₁ h₁ (by simp) htokens₁
  obtain ⟨ls₃, p₃, fresh₃, rfl, htokens₃, hlaid₃⟩ :=
    next_token hlaid₂ h₂ hoperand.ne_newline htokens₂
  obtain ⟨ls₄, p₄, fresh₄, rfl, htokens₄, hlaid₄⟩ := next_token hlaid₃ h₃ (by simp) htokens₃
  obtain ⟨statement, himporting, hexprs, hstart, hstop⟩ :=
    importing_operand (x := l) h₂ hoperand h₃ (x₄ :: ls₄)
  have hopening : opening l (x₂ :: x₃ :: x₄ :: ls₄) = (.complete (.importing statement), 2) := by
    rw [opening, h₁]
    dsimp only
    rw [himporting]
  have hbehind : importsOf (x₄ :: ls₄) = importsOf ls₄ :=
    importsOf_between (by rw [h₄]; simp) (by rw [h₄]; rfl)
  have hx₄ : x₄.item.bare = .token .newline := by
    rw [h₄]
    rfl
  obtain ⟨p', fresh', hlaid', -, -⟩ := laid_behind hlaid₄ hx₄ (Nat.zero_le _)
  refine ⟨statement, ls₄, p', fresh', hlaid', htokens₄, ?_, hexprs, hstart, hstop⟩
  rw [← himports, importsOf_complete (by rw [h₁]; rfl) hopening]
  show statement :: importsOf (x₄ :: ls₄) = _
  rw [hbehind]

end Syntax

end StyleWeave
