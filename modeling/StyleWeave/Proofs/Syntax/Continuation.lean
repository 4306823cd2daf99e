import StyleWeave.Proofs.Syntax.Lists

/-!
# Import lists over several lines

An import list may be broken behind its commas, inside brackets and where the statement ends its
line (`parse_breakLines`): the statement has the same paths and the others stay in their blocks.
Where more stands on the line behind the statement, or the next line is deeper, the end of the
indentation comes too late for the list (`dedent_of_broken_list`).
-/

namespace StyleWeave

namespace Syntax

variable {source : List Char} {items xs ys front front' rest rest' : List Located}
variable {l l' : Located}

/-! ## Where a statement stands -/

theorem SameItems.of_concat (h : SameItems (xs ++ [l]) ys) :
    ∃ ys' l', ys = ys' ++ [l'] ∧ SameItems xs ys' ∧ l'.item = l.item := by
  unfold SameItems at h
  rw [List.map_append] at h
  obtain ⟨ys', last, rfl, hys, hlast⟩ := List.map_eq_append_iff.1 h.symm
  obtain ⟨l', rfl, hitem⟩ := List.map_eq_singleton_iff.1 hlast
  exact ⟨ys', l', rfl, hys.symm, hitem⟩

/-- A token is known by where it starts. -/
theorem split_unique (htokens : tokenize source = .ok items) (h : items = front ++ l :: rest)
    (h' : items = front' ++ l' :: rest') (hl : l.IsSolid) (hl' : l'.IsSolid)
    (hstart : l.start = l'.start) : front = front' ∧ l = l' ∧ rest = rest' := by
  obtain ⟨hlies, hpairwise⟩ := tokens_of_tokenize htokens
  have happart : ∀ {before after : List Located} {a b : Located}, items = before ++ a :: after →
      b ∈ after → a.IsSolid → b.IsSolid → a.start < b.start := by
    rintro before after a b rfl hb ha hsolid
    obtain ⟨-, hbehind, -⟩ := List.pairwise_append.1 hpairwise
    have hle := (List.pairwise_cons.1 hbehind).1 b hb ha hsolid
    have hlt := (hlies a (by simp) ha).lt
    omega
  rcases List.append_eq_append_iff.1 (h.symm.trans h') with
    ⟨more, hfront, hmore⟩ | ⟨more, hfront, hmore⟩
  · cases more with
    | nil =>
      obtain ⟨rfl, rfl⟩ := List.cons.inj hmore
      exact ⟨by rw [hfront, List.append_nil], rfl, rfl⟩
    | cons e more =>
      obtain ⟨rfl, hrest⟩ := List.cons.inj hmore
      have hlt := happart h (hrest ▸ List.mem_append_right more List.mem_cons_self) hl hl'
      omega
  · cases more with
    | nil =>
      obtain ⟨rfl, rfl⟩ := List.cons.inj hmore
      exact ⟨by rw [hfront, List.append_nil], rfl, rfl⟩
    | cons e more =>
      obtain ⟨rfl, hrest⟩ := List.cons.inj hmore
      have hlt := happart h' (hrest ▸ List.mem_append_right more List.mem_cons_self) hl' hl
      omega

/-- A stretch of tokens stops behind each of them. -/
theorem le_lastStop (hordered : Ordered items) (hl : l ∈ items) (hsolid : l.IsSolid) :
    l.stop ≤ lastStop items := by
  induction items using List.reverseRecOn with
  | nil => cases hl
  | append_singleton items e ih =>
    obtain ⟨hfront, -, hacross⟩ := List.pairwise_append.1 hordered
    rcases lastStop_append items e with ⟨hstop, he⟩ | ⟨hstop, he⟩
    · rw [hstop]
      rcases List.mem_append.1 hl with hl | hl
      · exact Nat.le_of_lt (hacross l hl e List.mem_cons_self hsolid he)
      · rw [List.mem_singleton.1 hl]
    · rw [hstop]
      rcases List.mem_append.1 hl with hl | hl
      · exact ih hfront hl
      · rw [List.mem_singleton.1 hl] at hsolid
        exact absurd hsolid he

/-- How far a statement reaches, if it stops where its line does. -/
theorem importLength_of_stop {line behind : List Located} {feed keyword last : Located}
    (hordered : Ordered (keyword :: (line ++ feed :: behind))) (hkeyword : keyword.IsSolid)
    (hlast : (keyword :: line).getLast? = some last) (hsolid : last.IsSolid)
    (hstop : lastStop (keyword :: (line ++ feed :: behind).take
      (importLength (line ++ feed :: behind))) = last.stop) :
    line.length ≤ importLength (line ++ feed :: behind) ∧
      ∀ e ∈ behind.head?, e.IsSolid → importLength (line ++ feed :: behind) ≤ line.length + 1 := by
  generalize importLength (line ++ feed :: behind) = n at hstop
  constructor
  · refine Nat.le_of_not_lt fun hlt => ?_
    rw [List.take_append_of_le_length (Nat.le_of_lt hlt)] at hstop
    obtain ⟨e, he, hsolid', hlastStop⟩ := exists_lastStop hkeyword (line.take n)
    have hmem : last ∈ line.drop n := by
      have hne : line.drop n ≠ [] := by
        intro hnil
        have hlen := congrArg List.length hnil
        rw [List.length_drop, List.length_nil] at hlen
        omega
      rw [← List.take_append_drop n line, ← List.cons_append,
        List.getLast?_append_of_ne_nil _ hne] at hlast
      exact List.mem_of_getLast? hlast
    have hsplit : keyword :: (line ++ feed :: behind) =
        (keyword :: line.take n) ++ (line.drop n ++ feed :: behind) := by
      rw [List.cons_append, ← List.append_assoc, List.take_append_drop]
    rw [hsplit] at hordered
    have hbefore := (List.pairwise_append.1 hordered).2.2 e he last (List.mem_append_left _ hmem)
      hsolid' hsolid
    omega
  · intro e he hsolid'
    refine Nat.le_of_not_lt fun hlt => ?_
    obtain ⟨behind', rfl⟩ := List.head?_eq_some_iff.1 he
    have htaken : e ∈ keyword :: (line ++ feed :: e :: behind').take n := by
      obtain ⟨m, rfl⟩ := Nat.exists_eq_add_of_lt hlt
      have hn : line.length + 1 + m + 1 = line.length + (m + 1 + 1) := by omega
      rw [hn, List.take_length_add_append, List.take_succ_cons, List.take_succ_cons]
      simp
    have hsub : (keyword :: (line ++ feed :: e :: behind').take n).Sublist
        (keyword :: (line ++ feed :: e :: behind')) := (List.take_sublist _ _).cons_cons _
    have hle := le_lastStop (hordered.sublist hsub) htaken hsolid'
    have hsplit : keyword :: (line ++ feed :: e :: behind') =
        (keyword :: line) ++ feed :: e :: behind' := rfl
    rw [hsplit] at hordered
    have hbefore := (List.pairwise_append.1 hordered).2.2 last (List.mem_of_getLast? hlast) e
      (by simp) hsolid hsolid'
    omega

end Syntax

open Syntax

variable {breaks : Nat → Option (List Char)} {w : Nat} {source : List Char}
variable {items front rest line : List Located} {keyword : Located} {statement : Import}

/-- No expression that starts on the line goes on on the next one. -/
theorem OnOneLine.lineEnd (h : OnOneLine breaks w source items front line)
    (htokens : tokenize source = .ok items) :
    ∃ feed behind, items = front ++ (line ++ feed :: behind) ∧ LineEnd line feed behind ∧
      Layout.Unbroken breaks behind := by
  obtain ⟨feed, behind, hitems, hfeed, hshallow, hbehind⟩ := h.split
  have hlaid := wellLaid_of_tokenize htokens
  have hlevel : surplus .parens (brackets front) + surplus .parens (brackets line) = 0 := by
    have hparens := hlaid.opened (front ++ line) (feed :: behind) (by rw [hitems]; simp) .parens
    have hbraces := hlaid.opened (front ++ line) (feed :: behind) (by rw [hitems]; simp) .braces
    have houtside := h.outside
    have hclosed := h.closed
    unfold opened at houtside hclosed
    rw [brackets_append, surplus_append] at hparens hbraces
    omega
  refine ⟨feed, behind, hitems, ⟨h.solid, hfeed, fun e he => ⟨fun hnewline => ?_, ?_⟩, ?_⟩, hbehind⟩
  · obtain ⟨behind', rfl⟩ := List.head?_eq_some_iff.1 he
    exact hlaid.broken (front ++ line) feed e behind' (by rw [hitems]; simp) ⟨hfeed, hnewline⟩
  · intro hindent
    rw [Option.mem_def.1 he] at hshallow
    exact hshallow (congrArg some hindent)
  · rintro before after rfl
    have htallied := tallied_of_tokenize htokens
    have hsplit : items = (front ++ before) ++ (after ++ feed :: behind) := by
      rw [hitems]
      simp
    rw [hsplit, brackets_append] at htallied
    obtain ⟨p, b, c, hrest, hp, -⟩ := htallied.surplus_append
    refine expression_le_line (fun l hl => h.solid l (List.mem_append_right _ hl)) hfeed hrest ?_
    rw [brackets_append, surplus_append] at hp hlevel
    omega

/-- A statement that is broken behind commas of its list, and ends its line, is read as before. -/
theorem OnOneLine.exchanged {ys : List Located} {keyword' : Located}
    (h : OnOneLine breaks w source items front line) (htokens : tokenize source = .ok items)
    {before : List Located} (hitems : items = before ++ keyword :: rest)
    (hnode : (importing statement.kind keyword rest).1 = .importing statement)
    (hline : keyword ∈ line) (hstop : line.getLast?.map Located.stop = some statement.stop)
    (hlist : ListBreaks (fun n => (breaks n).isSome) rest)
    {opens : Prop} (hbroken : Broken (fun n => (breaks n).isSome) opens false rest ys)
    (hitem : keyword'.item = keyword.item) : Exchanged statement.kind keyword rest keyword' ys := by
  obtain ⟨feed, behind, hsplit, hends, hbehind⟩ := h.lineEnd htokens
  obtain ⟨above, after, rfl⟩ := List.append_of_mem hline
  have hsolid : keyword.IsSolid := h.solid keyword hline
  have hwhole : items = (front ++ above) ++ keyword :: (after ++ feed :: behind) := by
    rw [hsplit]
    simp
  obtain ⟨rfl, -, rfl⟩ := split_unique htokens hitems hwhole hsolid hsolid rfl
  have hends' : LineEnd after feed behind := by
    rw [← List.singleton_append, ← List.append_assoc] at hends
    exact hends.rest
  have hspared : Spared (fun n => (breaks n).isSome) behind := by
    intro l hl hcomma hbreak
    rw [hbehind l hl (isSolid_comma hcomma)] at hbreak
    cases hbreak
  obtain ⟨last, hlast, hlastStop⟩ := Option.map_eq_some_iff.1 hstop
  have hordered : Ordered (keyword :: (after ++ feed :: behind)) := by
    have hall := ordered_of_tokenize htokens
    rw [hwhole] at hall
    exact (List.pairwise_append.1 hall).2.1
  have hlast' : (keyword :: after).getLast? = some last := by
    rwa [List.getLast?_append_of_ne_nil _ (by simp)] at hlast
  rw [importing_eq] at hnode
  have hread := congrArg Import.stop (Node.importing.inj hnode)
  obtain ⟨hreaches, hshort⟩ := importLength_of_stop hordered hsolid hlast'
    (h.solid last (List.mem_of_getLast? hlast)) (hread.trans hlastStop.symm)
  obtain ⟨owed', houtcome, hlevel⟩ := hbroken.oneLine hlist hends' hspared rfl hreaches hshort
  exact houtcome.exchanged statement.kind (fun _ => hlevel) hitem

/-- Only commas of the list are chosen. -/
theorem spared_front (htokens : tokenize source = .ok items)
    (hitems : items = front ++ keyword :: rest)
    (hcommas : ∀ k b, breaks k = some b → k ∈ pathCommas rest) :
    Spared (fun n => (breaks n).isSome) (front ++ [keyword]) ∧
      ListBreaks (fun n => (breaks n).isSome) rest := by
  have hordered := ordered_of_tokenize htokens
  rw [hitems, ← List.singleton_append, ← List.append_assoc] at hordered
  obtain ⟨-, hbehind, hacross⟩ := List.pairwise_append.1 hordered
  have hchosen : ∀ {k : Nat}, (breaks k).isSome → k ∈ pathCommas rest := by
    intro k hk
    obtain ⟨b, hb⟩ := Option.isSome_iff_exists.1 hk
    exact hcommas k b hb
  constructor
  · intro l hl hcomma hbreak
    obtain ⟨l', hl', hcomma', hstop⟩ := mem_of_pathCommas rest (hchosen hbreak)
    have hlt := hacross l hl l' (List.mem_of_mem_drop hl') (isSolid_comma hcomma)
      (isSolid_comma hcomma')
    omega
  · exact listBreaks_of_pathCommas hbehind fun l _ _ hbreak => hchosen hbreak

/-- The statement ends a line into which all of the line breaks are put. -/
def EndsLine (breaks : Nat → Option (List Char)) (source : List Char) (items : List Located)
    (keyword : Located) (statement : Import) : Prop :=
  ∃ w front line, OnOneLine breaks w source items front line ∧ keyword ∈ line ∧
    line.getLast?.map Located.stop = some statement.stop

/-- Where line breaks are put behind commas of an import list, the document stays the same, if the
breaks are inside brackets, or if the statement ends its line and the next line is no deeper. -/
theorem parse_breakLines {document : List Node} (hparse : parse source = .ok document)
    (hmem : statement ∈ Node.importsOfAll document) (htokens : tokenize source = .ok items)
    (hitems : items = front ++ keyword :: rest)
    (hkeyword : keyword.item = .token statement.kind.token)
    (hstart : keyword.start = statement.start)
    (hgaps : ∀ k b, breaks k = some b → Lexeme.Gaps b)
    (hcommas : ∀ k b, breaks k = some b → k ∈ pathCommas rest)
    (hplace : Bracketed breaks items ∨ EndsLine breaks source items keyword statement) :
    ∃ document', parse (breakLines breaks 0 source) = .ok document' ∧
      Node.unplacedAll document' = Node.unplacedAll document := by
  have hsolid : keyword.IsSolid := ⟨_, hkeyword, statement.kind.token_ne_newline⟩
  have hplace' : Bracketed breaks items ∨ EndsLine breaks source items keyword statement ∧
      ∃ w front line, OnOneLine breaks w source items front line := by
    refine hplace.imp_right fun hends => ⟨hends, ?_⟩
    obtain ⟨w, front, line, hline, -⟩ := hends
    exact ⟨w, front, line, hline⟩
  obtain ⟨items', htokens', hbroken⟩ := tokenize_breakLines htokens hgaps (fun k b hb => by
    obtain ⟨l, hl, hcomma, hstop⟩ := mem_of_pathCommas rest (hcommas k b hb)
    refine ⟨l, ?_, hcomma, hstop⟩
    rw [hitems]
    exact List.mem_append_right _ (List.mem_cons_of_mem _ (List.mem_of_mem_drop hl))) hplace'
  -- The statement is the one that starts with the keyword.
  have hread : parseItems items = .ok document := by
    obtain ⟨items₁, htokens₁, hread⟩ := bind_eq_ok hparse
    obtain rfl := Except.ok.inj (htokens.symm.trans htokens₁)
    exact hread
  obtain ⟨n, hreads⟩ := parseItems_eq_ok_iff.1 hread
  obtain ⟨front₁, keyword₁, rest₁, hitems₁, hkeyword₁, hnode, hexchange⟩ := hreads.exchange hmem
  have hsolid₁ : keyword₁.IsSolid := ⟨_, hkeyword₁, statement.kind.token_ne_newline⟩
  have hstart₁ : keyword₁.start = statement.start := by
    rw [importing_eq] at hnode
    exact congrArg Import.start (Node.importing.inj hnode)
  obtain ⟨rfl, rfl, rfl⟩ :=
    split_unique htokens hitems₁ hitems hsolid₁ hsolid (hstart₁.trans hstart.symm)
  obtain ⟨hspared, hlist⟩ := spared_front htokens hitems hcommas
  have hcut : items = (front₁ ++ [keyword₁]) ++ rest₁ := by
    rw [hitems]
    simp
  obtain ⟨hfront, hrest⟩ := hbroken.split (front₁ ++ [keyword₁]).length
    (by rw [hcut, List.take_left]; exact hspared) (by simp)
  rw [hcut, List.take_left] at hfront
  rw [hcut, List.drop_left, ← hcut] at hrest
  obtain ⟨front', keyword', htake, hfront', hkeyword'⟩ := hfront.of_concat
  have hexchanged : Exchanged statement.kind keyword₁ rest₁ keyword'
      (items'.drop (front₁ ++ [keyword₁]).length) := by
    by_cases hends : EndsLine breaks source items keyword₁ statement
    · obtain ⟨w, above, line, hline, hkeywordLine, hstop⟩ := hends
      exact hline.exchanged htokens hitems hnode hkeywordLine hstop hlist hrest hkeyword'
    · exact (hrest.bracketed hends hlist).exchanged statement.kind (by simp) hkeyword'
  obtain ⟨document', n', hreads', hsame, -⟩ := hexchange front' keyword' _ hfront' hexchanged
  have hitems' : items' = front' ++ keyword' :: items'.drop (front₁ ++ [keyword₁]).length := by
    rw [← List.singleton_append, ← List.append_assoc, ← htake, List.take_append_drop]
  rw [← hitems'] at hreads'
  refine ⟨document', ?_, hsame⟩
  unfold parse
  rw [htokens']
  exact parseItems_eq_ok_iff.2 ⟨n', hreads'⟩

/-- A list of two paths is broken behind its comma. -/
theorem parse_breakLines_twoPaths :
    ∃ document document', parse "@import 'a', 'b'\nx\n".toList = .ok document ∧
      parse "@import 'a',\n    'b'\nx\n".toList = .ok document' ∧
      Node.unplacedAll document' = Node.unplacedAll document := by
  let breaks : Nat → Option (List Char) := fun k => if k = 12 then some "   ".toList else none
  let keyword : Located := ⟨.token .atImport, 0, 0, 7⟩
  let paths : List Located :=
    [⟨.token (.string "a"), 0, 8, 11⟩, ⟨.token .comma, 0, 11, 12⟩,
      ⟨.token (.string "b"), 0, 13, 16⟩]
  let feed : Located := ⟨.token .newline, 0, 16, 17⟩
  let behind : List Located :=
    [⟨.token (.ident "x"), 1, 17, 18⟩, ⟨.token .newline, 1, 18, 19⟩, ⟨.eof, 2, 19, 19⟩]
  have hbreaks : ∀ k b, breaks k = some b → k = 12 ∧ b = "   ".toList := by
    intro k b hb
    by_cases hk : k = 12
    · subst hk
      exact ⟨rfl, (Option.some.inj hb).symm⟩
    · have hnone : breaks k = none := if_neg hk
      rw [hnone] at hb
      cases hb
  have htokens : tokenize "@import 'a', 'b'\nx\n".toList =
      .ok ([] ++ keyword :: (paths ++ feed :: behind)) := by
    decide +kernel
  have hbroken : breakLines breaks 0 "@import 'a', 'b'\nx\n".toList =
      "@import 'a',\n    'b'\nx\n".toList := by
    decide +kernel
  have hblanks : Lexeme.Gaps "   ".toList :=
    List.all_eq_true.1 (by decide : "   ".toList.all Text.isGap = true)
  have hcommas : pathCommas (paths ++ feed :: behind) = [12] := by
    decide +kernel
  have hread : (parse "@import 'a', 'b'\nx\n".toList).map (fun document =>
      (Node.importsOfAll document).map fun s => (s.kind, s.start, s.stop)) =
      .ok [(.import_, 0, 16)] := by
    decide +kernel
  have hline : OnOneLine breaks 4 "@import 'a', 'b'\nx\n".toList
      ([] ++ keyword :: (paths ++ feed :: behind)) [] (keyword :: paths) := by
    refine ⟨⟨feed, behind, rfl, rfl, by decide, ?_⟩, ?_, ?_, ?_, rfl, rfl, ?_, ?_⟩
    · intro l hl _
      have hstops : ∀ l ∈ behind, l.stop ≠ 12 := by decide
      exact if_neg (hstops l hl)
    · intro l hl
      cases hl
    · intro before l hnil
      simp at hnil
    · intro l hl
      simp only [keyword, paths, List.mem_cons, List.not_mem_nil, or_false] at hl
      rcases hl with rfl | rfl | rfl | rfl <;> exact ⟨_, rfl, by simp⟩
    · exact ⟨[], [], _, keyword, paths, rfl, Or.inl rfl, by simp, rfl, rfl, by decide⟩
    · intro before l next after b hsplit hb
      obtain ⟨hstop, rfl⟩ := hbreaks _ _ hb
      rcases before with _ | ⟨_, _ | ⟨_, _ | ⟨_, before⟩⟩⟩
      · obtain ⟨rfl, -⟩ := List.cons.inj hsplit
        cases hstop
      · obtain ⟨rfl, -⟩ := List.cons.inj (List.cons.inj hsplit).2
        cases hstop
      · obtain ⟨rfl, hnext⟩ := List.cons.inj (List.cons.inj (List.cons.inj hsplit).2).2
        obtain ⟨rfl, -⟩ := List.cons.inj hnext
        decide
      · have hlength := congrArg List.length hsplit
        simp [paths] at hlength
        omega
  cases hparse : parse "@import 'a', 'b'\nx\n".toList with
  | error e =>
    rw [hparse] at hread
    cases hread
  | ok document =>
    rw [hparse] at hread
    obtain ⟨statement, himports, hplace⟩ := List.map_eq_singleton_iff.1 (Except.ok.inj hread)
    obtain ⟨hkind, hplace⟩ := Prod.mk.inj hplace
    obtain ⟨hstart, hstop⟩ := Prod.mk.inj hplace
    obtain ⟨document', hparse', hsame⟩ := parse_breakLines hparse
      (by rw [himports]; exact List.mem_singleton_self statement) htokens rfl (by rw [hkind]; rfl)
      hstart.symm (fun k b hb => by rw [(hbreaks k b hb).2]; exact hblanks)
      (fun k b hb => by rw [(hbreaks k b hb).1, hcommas]; decide)
      (Or.inr ⟨4, [], keyword :: paths, hline, List.mem_cons_self, by rw [hstop]; rfl⟩)
    rw [hbroken] at hparse'
    exact ⟨document, document', rfl, hparse', hsame⟩

/-- The list is read as it was, but the end of its indentation stands behind the rest of its line,
where no block is open. -/
theorem dedent_of_broken_list :
    ((parse "@import 'a', 'b'; x\n".toList).map List.length = .ok 2) ∧
      (parse "@import 'a',\n    'b'; x\n".toList).map List.length =
        .error (.unexpected 3 "dedent") := by
  decide +kernel

end StyleWeave
