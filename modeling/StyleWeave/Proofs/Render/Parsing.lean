import Mathlib.Data.Finset.Card
import Mathlib.Data.List.Dedup
import Mathlib.Data.Set.Function
import StyleWeave.Proofs.Render.Steps

/-!
# Texts parsed in turn

What some texts leave behind that were parsed one after the other, each parsed once: the documents
of those that parse. So the number of documents kept is that of the different texts among them
(`size_parseAll`). It makes no difference whether documents are kept by their texts or by a digest
that tells these texts apart (`answersBy_of_injOn`).
-/

namespace StyleWeave.Inline

namespace ParseCache

/-- The text parses. -/
def Parses (text : String) : Prop :=
  ∃ document, StyleWeave.parse text.toList = .ok document

instance (text : String) : Decidable (Parses text) :=
  match h : StyleWeave.parse text.toList with
  | .ok document => isTrue ⟨document, h⟩
  | .error _ => isFalse fun ⟨document, hd⟩ => by simp [h] at hd

/-- The texts of the documents that are kept. -/
def texts (c : ParseCache) : List String :=
  c.documents.map Prod.fst

/-- The documents kept once some texts were parsed in turn. -/
def parseAll (c : ParseCache) (texts : List String) : ParseCache :=
  texts.foldl (fun c text => (c.parse text).2) c

theorem parseAll_append (c : ParseCache) (texts texts' : List String) :
    c.parseAll (texts ++ texts') = (c.parseAll texts).parseAll texts' :=
  List.foldl_append

theorem lookup_eq_none_iff {α : Type} {text : String} {documents : List (String × α)} :
    documents.lookup text = none ↔ text ∉ documents.map Prod.fst := by
  rw [List.lookup_eq_none_iff]
  simp only [List.mem_map, Prod.exists, exists_and_right, exists_eq_right, not_exists, bne_iff_ne]
  constructor
  · intro h document hmem
    exact h _ hmem rfl
  · intro h entry hmem heq
    exact h entry.2 (heq ▸ hmem)

theorem parse_of_mem {c : ParseCache} {text : String} (h : text ∈ c.texts) :
    (c.parse text).2 = c := by
  unfold ParseCache.parse
  cases hlookup : c.documents.lookup text with
  | some document => rfl
  | none => exact absurd h (lookup_eq_none_iff.1 hlookup)

theorem parse_of_not_parses {c : ParseCache} {text : String} (h : ¬ Parses text) :
    (c.parse text).2 = c := by
  unfold ParseCache.parse
  cases c.documents.lookup text with
  | some document => rfl
  | none =>
    cases hparse : StyleWeave.parse text.toList with
    | error e => rfl
    | ok document => exact absurd ⟨document, hparse⟩ h

/-- A text that was not parsed before comes last. -/
theorem texts_parse_of_new {c : ParseCache} {text : String} (hnew : text ∉ c.texts)
    (h : Parses text) : (c.parse text).2.texts = c.texts ++ [text] := by
  obtain ⟨document, hdocument⟩ := h
  have hlookup : c.documents.lookup text = none := lookup_eq_none_iff.2 hnew
  unfold ParseCache.parse
  rw [hlookup, hdocument]
  simp [texts]

/-- Of the texts parsed so far, those that parse are kept, each once. -/
structure Keeps (c : ParseCache) (parsed : List String) : Prop where
  valid : c.Valid
  nodup : c.texts.Nodup
  mem : ∀ text, text ∈ c.texts ↔ text ∈ parsed ∧ Parses text

/-- A text that is kept already, or does not parse, changes nothing. -/
theorem Keeps.snoc {c : ParseCache} {parsed : List String} (h : c.Keeps parsed) {text : String}
    (hold : text ∈ c.texts ∨ ¬ Parses text) : c.Keeps (parsed ++ [text]) := by
  refine ⟨h.valid, h.nodup, fun text' => ?_⟩
  rw [h.mem, List.mem_append, List.mem_singleton]
  constructor
  · exact fun ⟨hmem, hparses⟩ => ⟨Or.inl hmem, hparses⟩
  · rintro ⟨hmem | rfl, hparses⟩
    · exact ⟨hmem, hparses⟩
    · exact (h.mem text').1 (hold.resolve_right (not_not_intro hparses))

theorem Keeps.parse {c : ParseCache} {parsed : List String} (h : c.Keeps parsed) (text : String) :
    (c.parse text).2.Keeps (parsed ++ [text]) := by
  by_cases hkept : text ∈ c.texts
  · rw [parse_of_mem hkept]
    exact h.snoc (Or.inl hkept)
  · by_cases hparses : Parses text
    · have htexts := texts_parse_of_new hkept hparses
      refine ⟨h.valid.parse text, ?_, fun text' => ?_⟩
      · rw [htexts, ← List.concat_eq_append]
        exact h.nodup.concat hkept
      · rw [htexts, List.mem_append, List.mem_append, h.mem, List.mem_singleton]
        constructor
        · rintro (⟨hmem, hparses'⟩ | rfl)
          · exact ⟨Or.inl hmem, hparses'⟩
          · exact ⟨Or.inr rfl, hparses⟩
        · rintro ⟨hmem | rfl, hparses'⟩
          · exact Or.inl ⟨hmem, hparses'⟩
          · exact Or.inr rfl
    · rw [parse_of_not_parses hparses]
      exact h.snoc (Or.inr hparses)

theorem keeps_empty : Keeps {} [] where
  valid := valid_empty
  nodup := List.nodup_nil
  mem text := by simp [texts]

theorem Keeps.parseAll {c : ParseCache} {parsed : List String} (h : c.Keeps parsed)
    (more : List String) : (c.parseAll more).Keeps (parsed ++ more) := by
  induction more generalizing c parsed with
  | nil =>
    rw [List.append_nil]
    exact h
  | cons text rest ih =>
    have hrest := ih (h.parse text)
    rw [List.append_assoc] at hrest
    exact hrest

/-- As many documents are kept as there are different texts that parse. -/
theorem size_parseAll (parsed : List String) :
    (parseAll {} parsed).size = (parsed.filter fun text => Parses text).toFinset.card := by
  have h := keeps_empty.parseAll parsed
  rw [List.nil_append] at h
  have hset : (parseAll {} parsed).texts.toFinset =
      (parsed.filter fun text => Parses text).toFinset := by
    ext text
    rw [List.mem_toFinset, List.mem_toFinset, List.mem_filter, h.mem, decide_eq_true_iff]
  rw [← hset, List.toFinset_card_of_nodup h.nodup, texts, List.length_map]
  rfl

/-! ## Digests -/

/-- The statements of a text, where documents are kept by a digest of their texts. -/
def parseBy (digest : String → String) (c : ParseCache) (source : String) :
    Except ParseError (List Node) × ParseCache :=
  match c.documents.lookup (digest source) with
  | some document => (.ok document, c)
  | none =>
    match StyleWeave.parse source.toList with
    | .ok document => (.ok document, ⟨c.documents ++ [(digest source, document)]⟩)
    | .error e => (.error e, c)

/-- The statements of some texts in turn, where documents are kept by a digest. -/
def answersBy (digest : String → String) :
    ParseCache → List String → List (Except ParseError (List Node)) × ParseCache
  | c, [] => ([], c)
  | c, text :: rest =>
    let (answer, c) := c.parseBy digest text
    let (answers, c) := answersBy digest c rest
    (answer :: answers, c)

/-- What is kept, kept by a digest. -/
def digested (digest : String → String) (c : ParseCache) : ParseCache :=
  ⟨c.documents.map fun entry => (digest entry.1, entry.2)⟩

theorem lookup_digested {digest : String → String} {documents : List (String × List Node)}
    {text : String} (h : ∀ kept ∈ documents.map Prod.fst, digest kept = digest text → kept = text) :
    (documents.map fun entry => (digest entry.1, entry.2)).lookup (digest text) =
      documents.lookup text := by
  induction documents with
  | nil => rfl
  | cons entry rest ih =>
    obtain ⟨kept, document⟩ := entry
    have hrest := ih fun other hother => h other (List.mem_cons_of_mem _ hother)
    rw [List.map_cons, List.lookup_cons, List.lookup_cons, hrest]
    by_cases heq : text = kept
    · rw [heq, beq_self_eq_true, beq_self_eq_true]
    · have hdigest : digest text ≠ digest kept := fun hsame =>
        heq (h kept List.mem_cons_self hsame.symm).symm
      rw [beq_false_of_ne heq, beq_false_of_ne hdigest]

theorem parseBy_digested {digest : String → String} {c : ParseCache} {text : String}
    (h : ∀ kept ∈ c.texts, digest kept = digest text → kept = text) :
    (c.digested digest).parseBy digest text =
      ((c.parse text).1, (c.parse text).2.digested digest) := by
  have hlookup : (c.digested digest).documents.lookup (digest text) = c.documents.lookup text :=
    lookup_digested h
  unfold parseBy parse
  rw [hlookup]
  cases c.documents.lookup text with
  | some document => rfl
  | none =>
    cases StyleWeave.parse text.toList with
    | error e => rfl
    | ok document => simp [digested]

/-- A digest that tells some texts apart answers for them what parsing them gives, and keeps as many
documents as are kept by their texts. -/
theorem answersBy_of_injOn {digest : String → String} {parsed : List String}
    (h : Set.InjOn digest {text | text ∈ parsed}) :
    (answersBy digest {} parsed).1 = parsed.map (fun text => StyleWeave.parse text.toList) ∧
      (answersBy digest {} parsed).2.size = (parseAll {} parsed).size := by
  suffices hall : ∀ (before more : List String) (c : ParseCache), c.Keeps before →
      before ++ more = parsed →
      (answersBy digest (c.digested digest) more).1 =
          more.map (fun text => StyleWeave.parse text.toList) ∧
        (answersBy digest (c.digested digest) more).2 = (c.parseAll more).digested digest by
    obtain ⟨hanswers, hkept⟩ := hall [] parsed {} keeps_empty (List.nil_append parsed)
    refine ⟨hanswers, ?_⟩
    have hsize : ((parseAll {} parsed).digested digest).size = (parseAll {} parsed).size :=
      List.length_map _
    rw [← hsize]
    exact congrArg size hkept
  intro before more
  induction more generalizing before with
  | nil => exact fun c _ _ => ⟨rfl, rfl⟩
  | cons text rest ih =>
    intro c hc hsplit
    have htext : text ∈ parsed := by simp [← hsplit]
    have hapart : ∀ kept ∈ c.texts, digest kept = digest text → kept = text := by
      intro kept hkept hsame
      have hmem : kept ∈ parsed := by simp [← hsplit, ((hc.mem kept).1 hkept).1]
      exact h hmem htext hsame
    have hstep := parseBy_digested hapart
    obtain ⟨hanswers, hkept⟩ := ih (before ++ [text]) (c.parse text).2 (hc.parse text)
      (by rw [List.append_assoc]; exact hsplit)
    unfold answersBy
    rw [hstep]
    dsimp only
    rw [hanswers, hkept, hc.valid.parse_eq]
    exact ⟨rfl, rfl⟩

end ParseCache

end StyleWeave.Inline
