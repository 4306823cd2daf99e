import StyleWeave.Proofs.Text.Offset
import StyleWeave.Proofs.Token.Kinds
import StyleWeave.Proofs.Token.Steps

/-!
# Where tokens lie

The lexemes of a text make up its beginning, and their tokens keep their places in the token stream:
the tokens other than line breaks lie one behind the other between characters of the text
(`tokens_of_tokenize`).
-/

namespace StyleWeave

open Text (Boundary bytes bytes_append dropBytes)

namespace Lexeme

/-! ## Lexemes -/

theorem ofText_of_drop_nil {cs : List Char} (h : cs.drop (gapLength cs) = []) : ofText cs = [] := by
  rw [ofText.eq_def]
  dsimp only
  split
  · rfl
  · next heq => rw [h] at heq; cases heq

theorem ofText_of_drop_cons {cs rest : List Char} {c : Char}
    (h : cs.drop (gapLength cs) = c :: rest) :
    ofText cs = ⟨cs.take (gapLength cs), (kindOf c rest).1, c :: rest.take (kindOf c rest).2⟩ ::
      ofText (rest.drop (kindOf c rest).2) := by
  rw [ofText.eq_def]
  dsimp only
  split
  · next heq => rw [h] at heq; cases heq
  · next d ds heq =>
    rw [h] at heq
    obtain ⟨rfl, rfl⟩ := List.cons.inj heq
    rfl

/-- What is known of a lexeme by itself: it has characters, and a keyword starts with its at
sign. -/
def Regular (l : Lexeme) : Prop :=
  l.text ≠ [] ∧
    (l.kind = .token .atImport ∨ l.kind = .token .atRequire → l.text.head? = some '@')

/-- The lexemes of a text, with their gaps, are its characters from the first on. -/
theorem flatMap_ofText (cs : List Char) :
    (∃ tail, cs = ((ofText cs).flatMap fun l => l.gap ++ l.text) ++ tail) ∧
      ∀ l ∈ ofText cs, l.Regular := by
  induction hlength : cs.length using Nat.strongRecOn generalizing cs with
  | ind length ih =>
    cases hdrop : cs.drop (gapLength cs) with
    | nil => exact ⟨⟨cs, by simp [ofText_of_drop_nil hdrop]⟩, by simp [ofText_of_drop_nil hdrop]⟩
    | cons c rest =>
      have hcut : cs = cs.take (gapLength cs) ++ (c :: rest) := by
        rw [← hdrop, List.take_append_drop]
      have hshorter : (rest.drop (kindOf c rest).2).length < length := by
        have hlen := congrArg List.length hdrop
        simp only [List.length_drop, List.length_cons] at hlen ⊢
        omega
      obtain ⟨⟨tail, htail⟩, hregular⟩ := ih _ hshorter _ rfl
      rw [ofText_of_drop_cons hdrop]
      refine ⟨⟨tail, ?_⟩, ?_⟩
      · rw [List.flatMap_cons, List.append_assoc, ← htail, List.append_assoc, List.cons_append,
          List.take_append_drop]
        exact hcut
      · intro l hl
        rcases List.mem_cons.1 hl with rfl | hl
        · exact ⟨List.cons_ne_nil _ _, fun hkind => by rw [kindOf_keyword hkind]; rfl⟩
        · exact hregular l hl

end Lexeme

/-! ## Items -/

/-- The item is a token other than a line break. -/
def Located.IsSolid (l : Located) : Prop :=
  ∃ t, l.item = .token t ∧ t ≠ .newline

theorem not_solid_of_newline {l : Located} (h : l.item = .token .newline) : ¬ l.IsSolid := by
  rintro ⟨t, ht, hne⟩
  exact hne (Item.token.inj (ht.symm.trans h))

theorem not_solid_of_ne {l : Located} (h : ∀ t, l.item ≠ .token t) : ¬ l.IsSolid := by
  rintro ⟨t, ht, -⟩
  exact h t ht

/-- The item lies between characters of the text, and if it is an import keyword it starts with an
at sign. -/
structure Located.Lies (cs : List Char) (l : Located) : Prop where
  start : Boundary cs l.start
  stop : Boundary cs l.stop
  lt : l.start < l.stop
  keyword : l.item = .token .atImport ∨ l.item = .token .atRequire →
    (dropBytes cs l.start).head? = some '@'

namespace Layout

variable {cs : List Char} {s s' : State} {items : List Located}

theorem passGap_spec (s : State) (gap : List Char) :
    (passGap s gap).2.offset = s.offset ∧ ∀ l ∈ (passGap s gap).1, ¬ l.IsSolid := by
  refine ⟨?_, fun l hl => not_solid_of_newline (passGap_newline s gap l hl)⟩
  unfold passGap
  split
  · rfl
  · rfl

theorem LaidOut.not_solid {start : Nat} (h : LaidOut s start items s') :
    ∀ l ∈ items, ¬ l.IsSolid := by
  intro l hl
  refine not_solid_of_ne fun t ht => ?_
  rcases (h.items_spec l hl).1 with hitem | hitem
  · cases hitem.symm.trans ht
  · cases hitem.symm.trans ht

/-- A token is put behind items that are none. -/
theorem put_layout {start stop : Nat} {t : Token} (h : put s start stop t = .ok (items, s')) :
    ∃ layout line, (∀ i ∈ layout, ¬ i.IsSolid) ∧
      (items = layout ∨ items = layout ++ [⟨.token t, line, start, stop⟩]) := by
  rcases put_cases h with ⟨rfl, rfl, -⟩ | ⟨-, layout, s₁, s₂, hlaid, -, rfl, -⟩
  · refine ⟨_, 0, fun i hi => ?_, Or.inl rfl⟩
    rw [List.mem_singleton.1 (List.mem_ite_nil_left.1 hi).2]
    exact not_solid_of_newline rfl
  · exact ⟨layout, s.line, hlaid.not_solid, Or.inr rfl⟩

/-- A lexeme that is placed becomes layout and, unless it is a line break, its token behind that. -/
theorem place_spec {l : Lexeme} (h : place s l = .ok (items, s')) :
    ∃ (t : Token) (layout : List Located) (line : Nat), l.kind = .token t ∧
      (∀ i ∈ layout, ¬ i.IsSolid) ∧
      s'.offset = s.offset + bytes l.gap + bytes l.text ∧
      (items = layout ∨ items = layout ++ [⟨.token t, line, s.offset + bytes l.gap,
        s.offset + bytes l.gap + bytes l.text⟩]) := by
  obtain ⟨t, here, hkind, hput, rfl⟩ := place_ok h
  obtain ⟨layout, line, hlayout, hhere⟩ := put_layout hput
  refine ⟨t, (passGap s l.gap).1 ++ layout, line, hkind, fun i hi => ?_, offset_of_put hput, ?_⟩
  · rcases List.mem_append.1 hi with hi | hi
    · exact (passGap_spec s l.gap).2 i hi
    · exact hlayout i hi
  · rw [List.append_assoc]
    exact hhere.imp (congrArg _) (congrArg _)

theorem finish_spec {size : Nat} (h : finish s size = .ok items) : ∀ l ∈ items, ¬ l.IsSolid := by
  intro l hl
  rcases (finish_items h l hl).1 with hitem | hitem | hitem
  · exact not_solid_of_newline hitem
  · exact not_solid_of_ne (by simp [hitem])
  · exact not_solid_of_ne (by simp [hitem])

/-- The token that a lexeme becomes lies where the lexeme does. -/
theorem lies_of_put {l : Lexeme} {t : Token} {before behind : List Char} {i : Located}
    (h : put s (bytes before) (bytes before + bytes l.text) t = .ok (items, s'))
    (hkind : l.kind = .token t) (hregular : l.Regular) (hcs : cs = before ++ (l.text ++ behind))
    (hi : i ∈ items) (hsolid : i.IsSolid) :
    i.Lies cs ∧ i.start = bytes before ∧ i.stop = s'.offset := by
  obtain ⟨hne, hkeyword⟩ := hregular
  obtain ⟨layout, line, hlayout, hitems⟩ := put_layout h
  obtain rfl : i = ⟨.token t, line, bytes before, bytes before + bytes l.text⟩ := by
    rcases hitems with rfl | rfl
    · exact absurd hsolid (hlayout i hi)
    · rcases List.mem_append.1 hi with hi | hi
      · exact absurd hsolid (hlayout i hi)
      · exact List.mem_singleton.1 hi
  have htext : 0 < bytes l.text :=
    Nat.pos_of_ne_zero fun hzero => hne (Text.eq_nil_of_bytes hzero)
  refine ⟨⟨⟨_, _, hcs, rfl⟩, ⟨before ++ l.text, behind, ?_, bytes_append _ _⟩,
    Nat.lt_add_of_pos_right htext, fun hitem => ?_⟩, rfl, (offset_of_put h).symm⟩
  · rw [hcs, List.append_assoc]
  · have htoken : l.kind = .token .atImport ∨ l.kind = .token .atRequire := by
      simpa [hkind] using hitem
    obtain ⟨c, more, hmore⟩ := List.exists_cons_of_ne_nil hne
    have hhead := hkeyword htoken
    rw [hmore, List.head?_cons] at hhead
    show (dropBytes cs (bytes before)).head? = some '@'
    rw [hcs, Text.dropBytes_bytes_append, hmore, List.cons_append, List.head?_cons, hhead]

/-- Placed lexemes lie behind what was placed before, one behind the other. -/
theorem run_spec {size : Nat} {lexemes : List Lexeme} {before tail : List Char}
    (h : run size s lexemes = .ok items)
    (hcs : cs = before ++ ((lexemes.flatMap fun l => l.gap ++ l.text) ++ tail))
    (hoffset : bytes before = s.offset) (hregular : ∀ l ∈ lexemes, l.Regular) :
    (∀ l ∈ items, l.IsSolid → l.Lies cs ∧ s.offset ≤ l.start) ∧
      items.Pairwise fun a b => a.IsSolid → b.IsSolid → a.stop ≤ b.start := by
  have hempty : ∀ layout : List Located, (∀ i ∈ layout, ¬ i.IsSolid) →
      layout.Pairwise fun a b => a.IsSolid → b.IsSolid → a.stop ≤ b.start := fun layout hlayout =>
    List.pairwise_of_forall_mem_list fun a ha _ _ hsolid => absurd hsolid (hlayout a ha)
  induction lexemes generalizing s items before with
  | nil =>
    have hfinish := finish_spec h
    exact ⟨fun l hl hsolid => absurd hsolid (hfinish l hl), hempty items hfinish⟩
  | cons l rest ih =>
    obtain ⟨t, s₁, here, others, hkind, hput, hrun, rfl⟩ := run_cons h
    have hended := (passGap_spec s l.gap).2
    have hcut : cs = (before ++ l.gap) ++ (l.text ++
        ((rest.flatMap fun l => l.gap ++ l.text) ++ tail)) := by
      rw [hcs, List.flatMap_cons]
      simp
    have hstart : s.offset + bytes l.gap = bytes (before ++ l.gap) := by
      rw [bytes_append, hoffset]
    rw [hstart] at hput
    have hhere : ∀ i ∈ (passGap s l.gap).1 ++ here, i.IsSolid →
        i.Lies cs ∧ s.offset ≤ i.start ∧ i.stop = s₁.offset := by
      intro i hi hsolid
      rcases List.mem_append.1 hi with hi | hi
      · exact absurd hsolid (hended i hi)
      · obtain ⟨hlies, hfrom, hto⟩ :=
          lies_of_put hput hkind (hregular l List.mem_cons_self) hcut hi hsolid
        exact ⟨hlies, by omega, hto⟩
    have hcut' : cs = (before ++ l.gap ++ l.text) ++
        ((rest.flatMap fun l => l.gap ++ l.text) ++ tail) := by
      rw [hcut]
      simp
    obtain ⟨hrest, hpairwise⟩ := ih hrun hcut' (by rw [bytes_append, offset_of_put hput])
      fun l' hl' => hregular l' (List.mem_cons_of_mem _ hl')
    refine ⟨fun i hi hsolid => ?_, List.pairwise_append.2 ⟨?_, hpairwise, ?_⟩⟩
    · rcases List.mem_append.1 hi with hi | hi
      · exact ⟨(hhere i hi hsolid).1, (hhere i hi hsolid).2.1⟩
      · obtain ⟨hlies, hle⟩ := hrest i hi hsolid
        have hs₁ := offset_of_put hput
        exact ⟨hlies, by omega⟩
    · obtain ⟨layout, line, hlayout, hitems⟩ := put_layout hput
      have hfront : ∀ i ∈ (passGap s l.gap).1 ++ layout, ¬ i.IsSolid := fun i hi =>
        (List.mem_append.1 hi).elim (hended i) (hlayout i)
      rcases hitems with rfl | rfl
      · exact hempty _ hfront
      · rw [← List.append_assoc]
        refine List.pairwise_append.2 ⟨hempty _ hfront, List.pairwise_singleton _ _, ?_⟩
        exact fun a ha b _ hsolid => absurd hsolid (hfront a ha)
    · intro a ha b hb hsolid hsolid'
      rw [(hhere a ha hsolid).2.2]
      exact (hrest b hb hsolid').2

end Layout

/-- The tokens of a text that are no line breaks lie in it one behind the other. -/
theorem tokens_of_tokenize {cs : List Char} {items : List Located} (h : tokenize cs = .ok items) :
    (∀ l ∈ items, l.IsSolid → l.Lies cs) ∧
      items.Pairwise fun a b => a.IsSolid → b.IsSolid → a.stop ≤ b.start := by
  obtain ⟨⟨tail, htail⟩, hregular⟩ := Lexeme.flatMap_ofText cs
  rw [← List.nil_append ((List.flatMap _ _) ++ tail)] at htail
  obtain ⟨hlies, hpairwise⟩ := Layout.run_spec h htail rfl hregular
  exact ⟨fun l hl hsolid => (hlies l hl hsolid).1, hpairwise⟩

end StyleWeave
