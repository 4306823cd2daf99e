import Mathlib.Data.List.Perm.Subperm
import StyleWeave.Proofs.Path.Order
import StyleWeave.Proofs.Render.Cover
import StyleWeave.Proofs.Render.Derivation
import StyleWeave.Proofs.Render.Finder
import StyleWeave.Proofs.Render.Trace

/-!
# Import cycles are found

The documents being inlined are different files, all but the first of them found by the search, so
there is at most one more than files were found (`Standing.IsTower`). A pass halts at the first
statement that leads back to one of them. So it does not get through a document from which
`@import` statements lead back to it (`cycles_found`).

A failure is known by its words only, and a loop is not the only cause that can put it so. The tree
may answer a read with these words, and a complaint about a document begins with the name of the
document (`importLoop_of_other_causes`). There are no other such causes (`importLoop_of_ends`).
-/

namespace StyleWeave

namespace PathSet

theorem contains_insertAll (s : PathSet) (ps : List Path) (q : Path) :
    (s.insertAll ps).contains q = (s.contains q || ps.contains q) := by
  induction ps generalizing s with
  | nil => simp [insertAll]
  | cons p ps ih =>
    show ((s.insert p).insertAll ps).contains q = _
    rw [ih, contains_insert, List.contains_cons, Bool.or_comm (q == p), Bool.or_assoc]

/-- Different members of a set are no more than it has. -/
theorem length_le_size {s : PathSet} {ps : List Path}
    (h : ps.Pairwise fun a b => (a == b) = false) (hmem : ∀ p ∈ ps, s.contains p = true) :
    ps.length ≤ s.size := by
  have hnodup : (ps.map Path.components).Nodup := by
    refine List.pairwise_map.2 (h.imp fun {a b} hab heq => ?_)
    rw [Path.beq_iff.2 heq] at hab
    cases hab
  have hsubset : ps.map Path.components ⊆ s.paths.map Path.components := by
    intro cs hcs
    obtain ⟨p, hp, rfl⟩ := List.mem_map.1 hcs
    obtain ⟨q, hq, heq⟩ := List.contains_iff_exists_mem_beq.1 (hmem p hp)
    exact List.mem_map.2 ⟨q, hq, (Path.beq_iff.1 heq).symm⟩
  have hle := (List.subperm_of_subset hnodup hsubset).length_le
  rwa [List.length_map, List.length_map] at hle

end PathSet

namespace Inline

open Step (exec)

/-! ## The documents being inlined -/

/-- The documents being inlined are different files, and all but the first were found. -/
structure Standing.IsTower (s : Standing) : Prop where
  differ : s.stack.Pairwise fun a b => (a == b) = false
  found : ∀ file ∈ s.stack, s.stack.getLast? = some file ∨ file ∈ s.returned

section

variable {s : Standing} {events : List Event}

theorem Standing.IsTower.after (h : s.IsTower) {e : Event} (hfits : e.Fits s) :
    (s.after e).IsTower := by
  cases e with
  | opened file source =>
    obtain ⟨hnew, hfound⟩ := hfits
    refine ⟨List.pairwise_cons.2 ⟨fun other hother => ?_, h.differ⟩,
      fun other (hother : other ∈ file :: s.stack) => ?_⟩
    · refine Bool.eq_false_iff.2 fun heq => ?_
      rw [List.contains_iff_exists_mem_beq.2 ⟨other, hother, heq⟩] at hnew
      cases hnew
    · show (file :: s.stack).getLast? = some other ∨ other ∈ s.returned
      rcases hfound with hnone | hfound
      · rw [hnone, List.mem_singleton] at hother
        rw [hnone, hother]
        exact Or.inl rfl
      · rcases List.mem_cons.1 hother with rfl | hother
        · exact Or.inr hfound
        · have hne : s.stack ≠ [] := List.ne_nil_of_mem hother
          rw [List.getLast?_cons_of_ne_nil hne]
          exact h.found other hother
  | closed =>
    refine ⟨h.differ.tail, fun file hfile => ?_⟩
    show s.stack.tail.getLast? = some file ∨ file ∈ s.returned
    cases hstack : s.stack with
    | nil =>
      rw [Standing.after, hstack] at hfile
      cases hfile
    | cons first others =>
      rw [Standing.after, hstack] at hfile
      have hothers : file ∈ others := hfile
      have hend := h.found file (hstack ▸ List.mem_cons_of_mem _ hothers)
      rwa [hstack, List.getLast?_cons_of_ne_nil (List.ne_nil_of_mem hothers)] at hend
  | located importer name files =>
    exact ⟨h.differ, fun file hfile => (h.found file hfile).imp_right (List.mem_append_left _)⟩
  | reference kind importer file v =>
    cases v with
    | skipped => exact h
    | loop => exact h
    | included => exact ⟨h.differ, h.found⟩

theorem Standing.IsTower.afterAll (h : s.IsTower) (hfits : AllFit s events) :
    (s.afterAll events).IsTower := by
  induction events generalizing s with
  | nil => exact h
  | cons e rest ih => exact ih (h.after hfits.1) hfits.2

/-- There is at most one document more than different files were found. -/
theorem Standing.IsTower.length_le (h : s.IsTower) :
    s.stack.length ≤ 1 + (PathSet.empty.insertAll s.returned).size := by
  rcases List.eq_nil_or_concat s.stack with hnone | ⟨front, last, hstack⟩
  · rw [hnone]
    exact Nat.zero_le _
  · obtain ⟨hdiffer, hfound⟩ := h
    rw [hstack, List.concat_eq_append] at hdiffer hfound
    obtain ⟨hfront, -, hlast⟩ := List.pairwise_append.1 hdiffer
    have hmem : ∀ file ∈ front, (PathSet.empty.insertAll s.returned).contains file = true := by
      intro file hfile
      rcases hfound file (List.mem_append_left _ hfile) with hend | hfound
      · rw [List.getLast?_concat, Option.some.injEq] at hend
        have hne := hlast file hfile last List.mem_cons_self
        rw [hend, Path.beq_self] at hne
        cases hne
      · rw [PathSet.contains_insertAll, List.contains_iff_exists_mem_beq.2
          ⟨file, hfound, Path.beq_self file⟩, Bool.or_true]
    have hle := PathSet.length_le_size hfront hmem
    rw [hstack, List.length_concat]
    omega

/-! ## Refusals -/

/-- A statement of kind `kind` that comes to the file leads back to a document being inlined, and
the file is not one that `@require` skips. -/
def LeadsBack (s : Standing) (kind : ImportKind) (file : Path) : Prop :=
  s.stack.contains file = true ∧ ¬ (kind = .require ∧ s.included.contains file = true)

variable {σ : Type} {w : Whole σ} {result : Except Halt Unit}

/-- A pass ends where a file is refused. -/
theorem Ending.of_loop {before behind : List Event} {kind : ImportKind} {importer file : Path}
    (h : Ending w events result)
    (hevents : events = before ++ .reference kind importer file .loop :: behind) :
    behind = [] ∧ result = .error (importLoop importer file) := by
  have hm : .reference kind importer file .loop ∈ events := by
    rw [hevents]
    exact List.mem_append_right _ List.mem_cons_self
  cases h with
  | done hnone => exact absurd hm (hnone kind importer file)
  | halted hnone cause => exact absurd hm (hnone kind importer file)
  | loop kind' importer' file' hnone =>
    rcases List.eq_nil_or_concat behind with rfl | ⟨others, last, rfl⟩
    · obtain ⟨-, heq⟩ := List.append_inj' hevents rfl
      obtain ⟨-, rfl, rfl, -⟩ := Event.reference.inj (List.singleton_inj.1 heq)
      exact ⟨rfl, rfl⟩
    · -- The refusal would not be the first.
      rw [List.concat_eq_append, ← List.cons_append, ← List.append_assoc] at hevents
      obtain ⟨hbefore, -⟩ := List.append_inj' hevents rfl
      refine absurd ?_ (hnone kind importer file)
      rw [hbefore]
      exact List.mem_append_right _ List.mem_cons_self

/-- A pass halts at the first statement that leads back. -/
theorem refused_of_leadsBack (hfits : AllFit .start events)
    (hends : Ending w events result)
    {before behind : List Event} {kind : ImportKind} {importer file : Path} {v : Verdict}
    (hevents : events = before ++ .reference kind importer file v :: behind)
    (h : LeadsBack (.behind before) kind file) :
    (Standing.behind before).stack.head? = some importer ∧ behind = [] ∧
      result = .error (importLoop importer file) := by
  rw [hevents] at hfits
  obtain ⟨htop, -, rfl⟩ : Event.Fits (.behind before) _ := hfits.fits
  rw [verdict_eq_loop_iff.2 h] at hevents
  exact ⟨htop, hends.of_loop hevents⟩

/-- Where no file is refused, no statement leads back. -/
theorem Loopless.not_leadsBack (h : Loopless events) (hfits : AllFit .start events)
    {before behind : List Event} {kind : ImportKind} {importer file : Path} {v : Verdict}
    (hevents : events = before ++ .reference kind importer file v :: behind) :
    ¬ LeadsBack (.behind before) kind file := by
  intro hback
  rw [hevents] at h hfits
  obtain ⟨-, -, rfl⟩ : Event.Fits (.behind before) _ := hfits.fits
  refine h kind importer file (List.mem_append_right _ (List.mem_cons.2 (Or.inl ?_)))
  exact congrArg _ (verdict_eq_loop_iff.2 hback).symm

/-- If no statement leads back, the pass succeeds or halts for another cause. -/
theorem cause_of_not_leadsBack (hfits : AllFit .start events)
    (hends : Ending w events result)
    (h : ∀ before kind importer file v behind,
      events = before ++ .reference kind importer file v :: behind →
        ¬ LeadsBack (.behind before) kind file) :
    result = .ok () ∨ ∃ halt, result = .error halt ∧ Cause w events halt := by
  cases hends with
  | done hnone => exact Or.inl rfl
  | halted hnone cause => exact Or.inr ⟨_, rfl, cause⟩
  | @loop before kind importer file hnone =>
    obtain ⟨-, -, hverdict⟩ := hfits.fits
    exact absurd (verdict_eq_loop_iff.1 hverdict.symm) (h _ _ _ _ _ _ rfl)

end

/-! ## The words of the failure -/

/-- What a failure begins with that speaks of an import loop. -/
def loopWords : List Char :=
  "import loop has been found".toList

/-- A text without colons in front of a colon is the beginning of what is in front of any other. -/
theorem prefix_of_append_colon {w a b c : List Char} (hw : ':' ∉ w)
    (h : w ++ ':' :: a = b ++ ':' :: c) : w <+: b := by
  rcases List.append_eq_append_iff.1 h with ⟨between, hb, -⟩ | ⟨between, hsplit, hcolon⟩
  · exact ⟨between, hb.symm⟩
  · cases between with
    | nil =>
      rw [hsplit, List.append_nil]
    | cons first rest =>
      obtain ⟨rfl, -⟩ := List.cons.inj hcolon
      refine absurd ?_ hw
      rw [hsplit]
      exact List.mem_append_right _ List.mem_cons_self

theorem loopWords_of_message {name : String} {behind : List Char} {importer file : Path}
    {message : String} (hmessage : message.toList = name.toList ++ ':' :: behind)
    (h : Halt.failed (.compile message) = importLoop importer file) :
    loopWords <+: name.toList := by
  obtain rfl := Failure.compile.inj (Halt.failed.inj h)
  have hwords : ("import loop has been found: " : String).toList = loopWords ++ [':', ' '] := by
    rfl
  rw [String.toList_append, String.toList_append, String.toList_append, hwords, List.append_assoc,
    List.append_assoc, List.append_assoc] at hmessage
  exact prefix_of_append_colon (by decide) hmessage

/-- What can make a pass over a lookup fail with the words of an import loop: a statement that leads
back, the tree for the file that was included last, or the complaint about a document whose name
begins with these words: about a path in it that is not known, or that it is malformed. -/
theorem importLoop_of_ends {l : Lookup} {w : Whole PathSet} {events : List Event}
    {importer file : Path} (henv : w.env = .ofLocator l.options l.locator) (hkept : w.kept.Valid)
    (hfits : AllFit .start events) (hends : Ending w events (.error (importLoop importer file))) :
    (∃ before kind importer' file', events = before ++ [.reference kind importer' file' .loop] ∧
      LeadsBack (.behind before) kind file' ∧
      importLoop importer' file' = importLoop importer file) ∨
    (∃ before kind importer' file' failure,
      events = before ++ [.reference kind importer' file' .included] ∧
      l.tree.read file' = .error failure ∧ .failed failure = importLoop importer file) ∨
    ∃ document text, loopWords <+: document.text.toList ∧
      ((OnTop events document text ∧ ∃ line, Obscures l.options text line) ∨
        (ComesNext w events document text ∧ ∃ e, parse text.toList = .error e)) := by
  generalize hresult : Except.error (importLoop importer file) = result at hends
  cases hends with
  | done hnone => cases hresult
  | @loop _ kind importer' file' hnone =>
    obtain ⟨-, -, hverdict⟩ := hfits.fits
    exact Or.inl ⟨_, kind, importer', file', rfl, verdict_eq_loop_iff.1 hverdict.symm,
      (Except.error.inj hresult).symm⟩
  | @halted _ halt hnone cause =>
    obtain rfl := Except.error.inj hresult
    refine Or.inr ?_
    generalize hwords : importLoop importer file = halt at cause
    cases cause with
    | tooDeep => cases hwords
    | @malformed document text e next refused =>
      have hmessage : (document.text ++ ": " ++ e.message).toList =
          document.text.toList ++ ':' :: ' ' :: e.message.toList := by
        rw [String.toList_append, String.toList_append, List.append_assoc]
        rfl
      exact Or.inr ⟨document, text, loopWords_of_message hmessage hwords.symm,
        Or.inr ⟨next, e, refused⟩⟩
    | @notStatic document text line top obscures =>
      have hmessage : (document.text ++ ":" ++ toString (line + 1) ++
          ": @import path is not statically known").toList = document.text.toList ++ ':' ::
            ((toString (line + 1)).toList ++ ": @import path is not statically known".toList) := by
        rw [String.toList_append, String.toList_append, String.toList_append, List.append_assoc,
          List.append_assoc]
        rfl
      have hobscures := obscures hkept
      rw [henv] at hobscures
      exact Or.inr ⟨document, text, loopWords_of_message hmessage hwords.symm,
        Or.inl ⟨top, line, hobscures⟩⟩
    | notLocated _ _ h =>
      rw [henv] at h
      rcases locate_error_of_ofLocator h with ⟨pending, -, hpending⟩ | hnone
      · rw [hpending] at hwords
        cases hwords
      · -- The two complaints differ in their first letter.
        have hfirst := congrArg (·.toList.head?)
          (Failure.compile.inj (Halt.failed.inj (hwords.trans hnone)))
        simp at hfirst
    | @notRead before kind importer' file' _ _ last h =>
      rw [henv] at h
      obtain ⟨failure, hread, hfailure⟩ := read_error_of_ofLocator h
      exact Or.inl ⟨before, kind, importer', file', failure, last, hread, hfailure.symm⟩

/-! ## Cycles -/

/-- One `@import` statement after the other leads from a document with its text to a file. -/
inductive Leads (l : Lookup) : Path → String → Path → Prop where
  | here {file target : Path} {text name : String}
      (imports : ImportsAs l.options text .import_ name)
      (found : l.known? file name = some target) : Leads l file text target
  | there {file target last : Path} {text text' name : String}
      (imports : ImportsAs l.options text .import_ name)
      (found : l.known? file name = some target) (read : l.tree.read target = .ok text')
      (others : Leads l target text' last) : Leads l file text last

/-- Neither the file itself nor one that it leads to is among the documents being inlined. -/
def Avoids (l : Lookup) (stack : List Path) (target : Path) : Prop :=
  stack.contains target = false ∧ ∀ text, l.tree.read target = .ok text →
    ∀ last, Leads l target text last → (target :: stack).contains last = false

/-- The `@import` statements of a task lead to none of the documents being inlined. -/
def Task.Clear (l : Lookup) (stack : List Path) : Task → Prop
  | .document file source _ =>
    ∀ last, Leads l file source last → (file :: stack).contains last = false
  | .acts sheet plan => ∀ indent site name target, .site indent site ∈ plan →
      site.statement.kind = .import_ → Locates l.options site name →
      l.known? sheet.file name = some target → Avoids l stack target
  | .exprs importer statement _ paths => statement.kind = .import_ → ∀ expr name target,
      (expr, some name) ∈ paths → urlTarget? expr = none → isRule l.options name = false →
      l.known? importer name = some target → Avoids l stack target
  | .files _ kind _ targets => kind = .import_ → ∀ target ∈ targets, Avoids l stack target

theorem clear_document {l : Lookup} {stack : List Path} {file : Path} {source indent : String}
    (h : ∀ name target, ImportsAs l.options source .import_ name →
      l.known? file name = some target → Avoids l (file :: stack) target) :
    (Task.document file source indent).Clear l stack := by
  intro last hleads
  cases hleads with
  | here imports found => exact (h _ _ imports found).1
  | there imports found read others =>
    have hclear := (h _ _ imports found).2 _ read last others
    rw [List.contains_cons, Bool.or_eq_false_iff] at hclear
    exact hclear.2

/-- A task succeeds only if its `@import` statements lead to none of the documents being inlined. -/
theorem Does.clear {l : Lookup} {depth : Nat} {stack : List Path} {task : Task}
    {writes : List Write} {p q : Pass PathSet}
    (h : Does (.ofLocator l.options l.locator) depth stack task writes p q)
    (hvalid : p.parsed.Valid) : task.Clear l stack := by
  induction h with
  | @document depth stack file source indent document writes p q parse acts ih =>
    have hacts := ih (valid_entered hvalid file source)
    rw [hvalid.parse_eq] at parse
    refine clear_document fun name target himports hknown => ?_
    obtain ⟨document', hparse', site, hsite, hkind, hlocates⟩ := himports
    obtain rfl : document = document' := Except.ok.inj (parse.symm.trans hparse')
    have hplanned : ∃ indent', .site indent' site ∈ planSheet (Sheet.of file source indent
        (sourceIndex file { p with parsed := (p.parsed.parse source).2 }).1) document
          l.options.define :=
      exists_act_of_site parse hsite
    obtain ⟨indent', hact⟩ := hplanned
    exact hacts indent' site name target hact hkind hlocates hknown
  | done => exact fun _ _ _ _ hm => by cases hm
  | line _ _ ih | fragment _ _ ih =>
    intro indent site name target hm
    rcases List.mem_cons.1 hm with heq | hm
    · cases heq
    · exact ih hvalid indent site name target hm
  | site here others ihHere ihOthers =>
    intro indent site name target hm hkind hlocates hknown
    rcases List.mem_cons.1 hm with heq | hm
    · obtain ⟨-, rfl⟩ := Act.site.inj heq
      obtain ⟨expr, hexpr, hurl, hrule⟩ := hlocates
      exact ihHere hvalid hkind expr name target hexpr hurl hrule hknown
    · exact ihOthers (here.valid hvalid) indent site name target hm hkind hlocates hknown
  | noExpr => exact fun _ _ _ _ hm => by cases hm
  | url hurl hwritten others ih =>
    intro hkind expr name target hm hurl'
    rcases List.mem_cons.1 hm with heq | hm
    · obtain ⟨rfl, -⟩ := Prod.mk.inj heq
      rw [hurl] at hurl'
      cases hurl'
    · exact ih hvalid hkind expr name target hm hurl'
  | rule hurl hrule hwritten others ih =>
    intro hkind expr name target hm hurl' hrule'
    rcases List.mem_cons.1 hm with heq | hm
    · obtain ⟨-, hname⟩ := Prod.mk.inj heq
      obtain rfl := Option.some.inj hname
      have hrule'' := hrule.symm.trans hrule'
      cases hrule''
    · exact ih hvalid hkind expr name target hm hurl' hrule'
  | located hurl hrule hlocate here others ihHere ihOthers =>
    intro hkind expr name target hm hurl' hrule' hknown
    rcases List.mem_cons.1 hm with heq | hm
    · obtain ⟨-, hname⟩ := Prod.mk.inj heq
      obtain rfl := Option.some.inj hname
      obtain ⟨file, hknown', rfl⟩ := known?_of_ofLocator hlocate
      obtain rfl := Option.some.inj (hknown'.symm.trans hknown)
      exact ihHere hvalid hkind file List.mem_cons_self
    · exact ihOthers (here.valid hvalid) hkind expr name target hm hurl' hrule' hknown
  | noFile => exact fun _ _ hm => by cases hm
  | skipped hskipped others ih =>
    intro hkind
    rw [hskipped.1] at hkind
    cases hkind
  | @included depth stack importer kind indent file text rest written writes p m q hnew hstack
      hread here others ihHere ihOthers =>
    intro hkind target hm
    rcases List.mem_cons.1 hm with rfl | hm
    · refine ⟨hstack, fun text' hread' last hleads => ?_⟩
      have htext := (read_of_ofLocator hread).symm.trans hread'
      obtain rfl := Except.ok.inj htext
      exact ihHere hvalid last hleads
    · exact ihOthers (here.valid hvalid) hkind target hm

/-! ## The whole pass -/

/-- The documents being inlined are at all times different files, at most one more than the search
has found. A pass halts at the first statement that leads back to one of them, for that statement.
If none does, the pass succeeds or halts for another cause. Such a cause has the words of an import
loop only from the tree, for the file that was included last, or for a document whose name begins
with them. And a pass renders nothing if it enters a document from which `@import` statements lead
back to it. -/
theorem cycles_found (l : Lookup) (depth : Nat) (entry : Path) (source : String) (found : PathSet)
    {parsed : ParseCache} (hparsed : parsed.Valid) :
    let env := Setting.ofLocator l.options l.locator
    let w : Whole PathSet := ⟨env, entry, source, parsed, depth⟩
    let events := eventsThrough env depth entry source found parsed
    let result := (passThrough env depth entry source found parsed).1
    (∀ before behind, events = before ++ behind →
      let s := Standing.behind before
      s.stack.Pairwise (fun a b => (a == b) = false) ∧
        s.stack.length ≤ 1 + (PathSet.empty.insertAll s.returned).size) ∧
    (∀ before kind importer file v behind,
      events = before ++ .reference kind importer file v :: behind →
        LeadsBack (.behind before) kind file →
          (Standing.behind before).stack.head? = some importer ∧ behind = [] ∧
            result = .error (importLoop importer file)) ∧
    ((∀ before kind importer file v behind,
      events = before ++ .reference kind importer file v :: behind →
        ¬ LeadsBack (.behind before) kind file) →
          result = .ok () ∨ ∃ halt, result = .error halt ∧ Cause w events halt) ∧
    (∀ importer file, result = .error (importLoop importer file) →
      (∃ before kind importer' file', events = before ++ [.reference kind importer' file' .loop] ∧
        LeadsBack (.behind before) kind file' ∧
        importLoop importer' file' = importLoop importer file) ∨
      (∃ before kind importer' file' failure,
        events = before ++ [.reference kind importer' file' .included] ∧
        l.tree.read file' = .error failure ∧ .failed failure = importLoop importer file) ∨
      ∃ document text, loopWords <+: document.text.toList ∧
        ((OnTop events document text ∧ ∃ line, Obscures l.options text line) ∨
          (ComesNext w events document text ∧ ∃ e, parse text.toList = .error e))) ∧
    ∀ file text last, .opened file text ∈ events → Leads l file text last → (last == file) = true →
      ∀ step, (renderer depth).render parsed entry source l.options l.locator found = some step →
        ∀ rendered, step.outcome ≠ .ok (.rendered rendered) := by
  intro env w events result
  have hhistory := history_through env depth entry source found parsed
  have hfits : AllFit .start events := hhistory.fits rfl
  have hends : Ending w events result := hhistory.ends loopless_nil
  refine ⟨fun before behind hevents => ?_,
    fun before kind importer file v behind hevents hback => ?_,
    cause_of_not_leadsBack hfits hends, fun importer file hresult => ?_,
    fun file text last hopened hleads hcycle => ?_⟩
  · rw [hevents] at hfits
    have htower : Standing.start.IsTower := ⟨.nil, fun _ hm => by cases hm⟩
    have hbefore := htower.afterAll (allFit_append.1 hfits).1
    exact ⟨hbefore.differ, hbefore.length_le⟩
  · exact refused_of_leadsBack hfits hends hevents hback
  · rw [hresult] at hends
    exact importLoop_of_ends rfl hparsed hfits hends
  · intro step hstep rendered houtcome
    rw [render_eq] at hstep
    obtain ⟨outcome, hended, rfl⟩ := Option.map_eq_some_iff.1 hstep
    obtain rfl : outcome = .ok (.rendered rendered) := houtcome
    have hok := (outcome_eq_rendered_iff.1 hended).1
    obtain ⟨depth', stack, indent, q, r, hvalid, hrun⟩ := hhistory.exists_run hok hparsed hopened
    obtain ⟨writes, hdoes⟩ := does_of_exec hrun
    have hclear := hdoes.clear hvalid last hleads
    rw [List.contains_cons, hcycle] at hclear
    cases hclear

/-- What a pass says that fails to compile. -/
def complaint? : Except Halt Unit → Option String
  | .error (.failed (.compile message)) => some message
  | _ => none

theorem eq_of_complaint {result : Except Halt Unit} {message : String}
    (h : complaint? result = some message) : result = .error (.failed (.compile message)) := by
  unfold complaint? at h
  split at h
  · rw [Option.some.inj h]
  · cases h

/-- The event is a statement that is stopped at a file that leads back. -/
def Event.isLoop : Event → Bool
  | .reference _ _ _ verdict => verdict == .loop
  | _ => false

/-- A tree with one file, which it answers to read with the words of an import loop. -/
def echoingTree : Lookup where
  tree := {
    isFile := fun p => p == ⟨"/s/b.styl"⟩
    read := fun _ =>
      .error (.compile "import loop has been found: /s/a.styl imports /s/b.styl") }
  cache := {}
  options := {}

/-- A document that bears the words of an import loop. -/
def loopNamed : Path :=
  ⟨"import loop has been found: /s/a.styl imports /s/b.styl"⟩

/-- A pass can fail with the words of an import loop although nothing leads back: when the tree
answers so for a file, and when a document that cannot be parsed has such a name. -/
theorem importLoop_of_other_causes :
    let env := Setting.ofLocator echoingTree.options echoingTree.locator
    ((∀ before kind importer file v behind,
      eventsThrough env 3 ⟨"/s/a.styl"⟩ "@import 'b'\n" .empty {} =
        before ++ .reference kind importer file v :: behind →
          ¬ LeadsBack (.behind before) kind file) ∧
      (passThrough env 3 ⟨"/s/a.styl"⟩ "@import 'b'\n" .empty {}).1 =
        .error (importLoop ⟨"/s/a.styl"⟩ ⟨"/s/b.styl"⟩)) ∧
    eventsThrough env 3 loopNamed "'x" .empty {} = [] ∧
      (passThrough env 3 loopNamed "'x" .empty {}).1 =
        .error (importLoop ⟨"/s/a.styl"⟩ ⟨"/s/b.styl: unterminated string on line 1"⟩) := by
  intro env
  refine ⟨⟨fun before kind importer file v behind hevents => ?_, ?_⟩, ?_, ?_⟩
  · have hfits := (history_through env 3 ⟨"/s/a.styl"⟩ "@import 'b'\n" .empty {}).fits rfl
    have hnone : (eventsThrough env 3 ⟨"/s/a.styl"⟩ "@import 'b'\n" .empty {}).all
        (fun e => !e.isLoop) = true := by
      decide +kernel
    refine Loopless.not_leadsBack (fun kind importer file hm => ?_) hfits hevents
    have hloop := List.all_eq_true.1 hnone _ hm
    cases hloop
  · exact eq_of_complaint (by decide +kernel)
  · have hnone : (eventsThrough env 3 ⟨"import loop has been found: /s/a.styl imports /s/b.styl"⟩
        "'x" .empty {}).isEmpty = true := by
      decide +kernel
    exact List.isEmpty_iff.1 hnone
  · exact eq_of_complaint (by decide +kernel)

/-- Two documents that import each other. -/
def mutualImports : Lookup where
  tree := {
    isFile := fun p => p == ⟨"/s/a.styl"⟩ || p == ⟨"/s/b.styl"⟩
    read := fun p => .ok (if p == ⟨"/s/a.styl"⟩ then "@import 'b'\n" else "@import 'a'\n") }
  cache := {}
  options := {}

theorem cycles_found_mutualImports :
    let l := mutualImports
    let entry : Path := ⟨"/s/a.styl"⟩
    let source := "@import 'b'\n"
    .opened entry source ∈ eventsThrough (.ofLocator l.options l.locator) 5 entry source .empty {} ∧
      Leads l entry source entry ∧
      ∀ step, (renderer 5).render {} entry source l.options l.locator .empty = some step →
        ∀ rendered, step.outcome ≠ .ok (.rendered rendered) := by
  intro l entry source
  have himports : ImportsAs l.options source .import_ "b" := by decide +kernel
  have hopened : .opened entry source ∈
      eventsThrough (.ofLocator l.options l.locator) 5 entry source .empty {} := by
    obtain ⟨document, hparse, -⟩ := himports
    exact opened_mem_eventsThrough ((ParseCache.valid_empty.parse_eq source).trans hparse)
  have hleads : Leads l entry source entry := by
    have himports' : ImportsAs l.options "@import 'a'\n" .import_ "a" := by decide +kernel
    have hfound : (l.known? entry "b").map Path.text = some "/s/b.styl" := by decide +kernel
    have hfound' : (l.known? ⟨"/s/b.styl"⟩ "a").map Path.text = some "/s/a.styl" := by
      decide +kernel
    obtain ⟨⟨_⟩, hfound, rfl⟩ := Option.map_eq_some_iff.1 hfound
    obtain ⟨⟨_⟩, hfound', rfl⟩ := Option.map_eq_some_iff.1 hfound'
    have hread : l.tree.read ⟨"/s/b.styl"⟩ = .ok "@import 'a'\n" := by rfl
    exact .there himports hfound hread (.here himports' hfound')
  obtain ⟨-, -, -, -, hnever⟩ := cycles_found l 5 entry source .empty ParseCache.valid_empty
  exact ⟨hopened, hleads, hnever entry source entry hopened hleads (Path.beq_self entry)⟩

end Inline

end StyleWeave
