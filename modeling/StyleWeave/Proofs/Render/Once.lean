import StyleWeave.Proofs.Cache
import StyleWeave.Proofs.Render.Trace
import StyleWeave.Render.Lookup

/-!
# What is required is included once

A file that was included before is not included by `@require` again (`not_included_of_required`). So
of all the statements that come to a file, `@import` counts each time and `@require` only if it is
the first (`required_once`).
-/

namespace StyleWeave.Inline

/-- The statements that come to a file, with what becomes of it. -/
def references (file : Path) (events : List Event) : List (ImportKind × Verdict) :=
  events.filterMap fun
    | .reference kind _ file' v => if file' == file then some (kind, v) else none
    | _ => none

/-- How often a file is included. -/
def timesIncluded (file : Path) (inclusions : List (ImportKind × Path)) : Nat :=
  inclusions.countP fun i => i.2 == file

/-- How often a file is included by `@import`. -/
def timesImported (file : Path) (inclusions : List (ImportKind × Path)) : Nat :=
  inclusions.countP fun i => i.1 = .import_ && i.2 == file

/-- The first statement is a `@require`. -/
def isRequiredFirst (references : List (ImportKind × Verdict)) : Bool :=
  references.head?.any fun r => r.1 = .require

variable {σ : Type}

section

variable {s : Standing} {events : List Event} {file : Path}

/-! ## Included before -/

theorem contains_concat (files : List Path) (file' file : Path) :
    (files ++ [file']).contains file = (files.contains file || file' == file) := by
  rw [List.contains_append, List.contains_cons, List.contains_nil, Bool.or_false, Path.beq_comm]

theorem inclusions_cons_included {kind : ImportKind} {importer file : Path} {rest : List Event} :
    inclusions (.reference kind importer file .included :: rest) =
      (kind, file) :: inclusions rest := rfl

/-- What is included by `@require` was not included before. -/
theorem not_included_of_required (h : AllFit s events) (hm : (.require, file) ∈ inclusions events) :
    s.included.contains file = false := by
  induction events generalizing s with
  | nil => cases hm
  | cons e rest ih =>
    obtain ⟨hfits, hrest⟩ := h
    rcases Standing.includes_or e with ⟨kind, importer, file', rfl⟩ | ⟨hnone, hsame⟩
    · rw [inclusions_cons_included] at hm
      rcases List.mem_cons.1 hm with heq | hm'
      · obtain ⟨rfl, rfl⟩ := Prod.mk.inj heq
        have hnew := (verdict_eq_included_iff.1 hfits.2.2.symm).2
        exact Bool.eq_false_iff.2 fun hfile => hnew ⟨rfl, hfile⟩
      · have hafter : (s.included ++ [file']).contains file = false := ih hrest hm'
        rw [contains_concat, Bool.or_eq_false_iff] at hafter
        exact hafter.1
    · rw [hnone] at hm
      have hafter := ih hrest hm
      rwa [hsame] at hafter

theorem pairwise_inclusions (h : AllFit s events) :
    (inclusions events).Pairwise fun earlier later =>
      later.1 = .require → (earlier.2 == later.2) = false := by
  induction events generalizing s with
  | nil => exact .nil
  | cons e rest ih =>
    obtain ⟨hfits, hrest⟩ := h
    rcases Standing.includes_or e with ⟨kind, importer, file, rfl⟩ | ⟨hnone, -⟩
    · rw [inclusions_cons_included]
      refine List.pairwise_cons.2 ⟨fun later hm hrequired => ?_, ih hrest⟩
      obtain ⟨kind', file'⟩ := later
      obtain rfl : kind' = .require := hrequired
      have hnew : (s.included ++ [file]).contains file' = false :=
        not_included_of_required hrest hm
      rw [contains_concat, Bool.or_eq_false_iff] at hnew
      exact hnew.2
    · rw [hnone]
      exact ih hrest

/-! ## Counting -/

section

variable {kind : ImportKind} {importer file' : Path} {v : Verdict} {rest : List Event}

theorem references_cons_of_eq (h : (file' == file) = true) :
    references file (.reference kind importer file' v :: rest) =
      (kind, v) :: references file rest :=
  List.filterMap_cons_some (if_pos h)

theorem references_cons_of_ne (h : ¬ (file' == file) = true) :
    references file (.reference kind importer file' v :: rest) = references file rest :=
  List.filterMap_cons_none (if_neg h)

end

theorem timesIncluded_of_imported {inclusions : List (ImportKind × Path)}
    (h : ∀ i ∈ inclusions, (i.2 == file) = true → i.1 = .import_) :
    timesIncluded file inclusions = timesImported file inclusions := by
  refine List.countP_congr fun i hi => ?_
  constructor
  · intro heq
    simp [h i hi heq, heq]
  · intro himported
    exact (Bool.and_eq_true_iff.1 himported).2

/-- A file that was included is from then on included by `@import` only. -/
theorem timesIncluded_of_included (h : AllFit s events) (hfile : s.included.contains file = true) :
    timesIncluded file (inclusions events) = timesImported file (inclusions events) := by
  refine timesIncluded_of_imported fun i hi heq => ?_
  obtain ⟨kind, file'⟩ := i
  cases kind with
  | import_ => rfl
  | require =>
    have hnew := not_included_of_required h hi
    rw [List.contains_congr heq, hfile] at hnew
    cases hnew

/-- As long as no file was refused, a file that was not included before is included by each
`@import`, and by a `@require` if that is first. -/
theorem timesIncluded_of_loopless (h : AllFit s events) (hnone : Loopless events)
    (hfile : s.included.contains file = false) :
    timesIncluded file (inclusions events) =
      timesImported file (inclusions events) +
        (isRequiredFirst (references file events)).toNat := by
  induction events generalizing s with
  | nil => rfl
  | cons e rest ih =>
    obtain ⟨hfits, hrest⟩ := h
    have hnone' : Loopless rest := fun kind importer file' hm =>
      hnone kind importer file' (List.mem_cons_of_mem _ hm)
    cases e with
    | opened file' source => exact ih hrest hnone' hfile
    | closed => exact ih hrest hnone' hfile
    | located importer name files => exact ih hrest hnone' hfile
    | reference kind importer file' v =>
      obtain ⟨-, -, hverdict⟩ := hfits
      by_cases heq : (file' == file) = true
      · have hfile' : s.included.contains file' = false := (List.contains_congr heq).trans hfile
        cases v with
        | skipped =>
          have hseen := ((verdict_eq_skipped_iff s.stack).1 hverdict.symm).2
          rw [hfile'] at hseen
          cases hseen
        | loop => exact absurd List.mem_cons_self (hnone kind importer file')
        | included =>
          -- From here on the file counts as included.
          have hincluded : (s.included ++ [file']).contains file = true := by
            rw [contains_concat, heq, Bool.or_true]
          have hothers := timesIncluded_of_included hrest hincluded
          have hhere : timesIncluded file ((kind, file') :: inclusions rest) =
              timesIncluded file (inclusions rest) + 1 :=
            List.countP_cons_of_pos heq
          rw [references_cons_of_eq heq, inclusions_cons_included, hhere, hothers]
          cases kind with
          | import_ => simp [timesImported, isRequiredFirst, heq]
          | require => simp [timesImported, isRequiredFirst]
      · rw [references_cons_of_ne heq]
        cases v with
        | skipped => exact ih hrest hnone' hfile
        | loop => exact ih hrest hnone' hfile
        | included =>
          have hafter : (s.included ++ [file']).contains file = false := by
            rw [contains_concat, hfile, Bool.false_or]
            exact Bool.eq_false_iff.2 heq
          have hothers := ih hrest hnone' hafter
          rw [inclusions_cons_included]
          simpa [timesIncluded, timesImported, heq] using hothers

theorem reference_of_inclusion {i : ImportKind × Path} (hm : i ∈ inclusions events)
    (heq : (i.2 == file) = true) : (i.1, .included) ∈ references file events := by
  obtain ⟨e, he, hi⟩ := List.mem_filterMap.1 hm
  refine List.mem_filterMap.2 ⟨e, he, ?_⟩
  cases e with
  | opened file' source => cases hi
  | closed => cases hi
  | located importer name files => cases hi
  | reference kind importer file' v =>
    cases v with
    | skipped => cases hi
    | loop => cases hi
    | included =>
      obtain rfl := Option.some.inj hi
      exact if_pos heq

/-- Where all statements that come to a file are `@require`, none of its inclusions is by
`@import`. -/
theorem timesImported_eq_zero (h : ∀ r ∈ references file events, r.1 = .require) :
    timesImported file (inclusions events) = 0 := by
  refine List.countP_eq_zero.2 fun i hi himported => ?_
  obtain ⟨himport, heq⟩ := Bool.and_eq_true_iff.1 himported
  have hrequire := h _ (reference_of_inclusion hi heq)
  rw [hrequire] at himport
  cases himport

theorem isRequiredFirst_concat {references : List (ImportKind × Verdict)} {r : ImportKind × Verdict}
    (h : ∃ r' ∈ references ++ [r], r'.1 = .import_) :
    isRequiredFirst (references ++ [r]) = isRequiredFirst references := by
  cases references with
  | nil =>
    obtain ⟨r', hm, himport⟩ := h
    obtain rfl := List.mem_singleton.1 hm
    simp [isRequiredFirst, himport]
  | cons r' rest => rfl

theorem references_append (file : Path) (events events' : List Event) :
    references file (events ++ events') = references file events ++ references file events' :=
  List.filterMap_append

/-- How often a file is included, whether a file is refused in the end or not. -/
theorem timesIncluded_of_ends {w : Whole σ} {result : Except Halt Unit} (h : AllFit s events)
    (hends : Ending w events result) (hfile : s.included.contains file = false) :
    ((∀ r ∈ references file events, r.1 = .require) → timesIncluded file (inclusions events) ≤ 1) ∧
      ((∃ r ∈ references file events, r.1 = .import_) ∨ result = .ok () →
        timesIncluded file (inclusions events) = timesImported file (inclusions events) +
          (isRequiredFirst (references file events)).toNat) := by
  -- Up to the refusal, if there is one, the count holds as it stands.
  have hle : ∀ before, AllFit s before → Loopless before →
      (∀ r ∈ references file before, r.1 = .require) →
      timesIncluded file (inclusions before) ≤ 1 := by
    intro before hfits hnone hrequired
    rw [timesIncluded_of_loopless hfits hnone hfile, timesImported_eq_zero hrequired, Nat.zero_add]
    exact Bool.toNat_le _
  cases hends with
  | done hnone => exact ⟨hle _ h hnone, fun _ => timesIncluded_of_loopless h hnone hfile⟩
  | halted hnone cause => exact ⟨hle _ h hnone, fun _ => timesIncluded_of_loopless h hnone hfile⟩
  | @loop before kind importer file' hnone =>
    have hbefore : AllFit s before := (allFit_append.1 h).1
    have hinclusions : inclusions (before ++ [.reference kind importer file' .loop]) =
        inclusions before := by
      rw [inclusions_append]
      exact List.append_nil _
    rw [hinclusions]
    refine ⟨fun hrequired => ?_, fun hor => ?_⟩
    · refine hle _ hbefore hnone fun r hr => hrequired r ?_
      rw [references_append]
      exact List.mem_append_left _ hr
    · obtain himport | hok := hor
      · rw [timesIncluded_of_loopless hbefore hnone hfile, references_append]
        by_cases heq : (file' == file) = true
        · have hlast : references file [.reference kind importer file' .loop] = [(kind, .loop)] :=
            references_cons_of_eq heq
          rw [references_append, hlast] at himport
          rw [hlast, isRequiredFirst_concat himport]
        · have hlast : references file [.reference kind importer file' .loop] = [] :=
            references_cons_of_ne heq
          rw [hlast, List.append_nil]
      · cases hok

end

/-! ## The whole pass -/

/-- In the inclusions of a pass, none by `@require` comes behind another of an equal path. So a file
to which only `@require` comes is included at most once. Where `@import` comes to it too, or nothing
fails, it is included by each `@import` that does not fail, and once more if `@require` comes to it
first. -/
theorem required_once (env : Setting σ) (depth : Nat) (file : Path) (source : String) (s : σ)
    (parsed : ParseCache) :
    let pass := passThrough env depth file source s parsed
    let events := eventsThrough env depth file source s parsed
    pass.2.included = (inclusions events).map Prod.snd ∧
      ((inclusions events).Pairwise fun earlier later =>
        later.1 = .require → (earlier.2 == later.2) = false) ∧
      ∀ p,
        ((∀ r ∈ references p events, r.1 = .require) → timesIncluded p (inclusions events) ≤ 1) ∧
        ((∃ r ∈ references p events, r.1 = .import_) ∨ pass.1 = .ok () →
          timesIncluded p (inclusions events) = timesImported p (inclusions events) +
            (isRequiredFirst (references p events)).toNat) := by
  intro pass events
  have hhistory := history_through env depth file source s parsed
  have hfits : AllFit ⟨[], [], []⟩ events := hhistory.fits rfl
  exact ⟨hhistory.included_eq, pairwise_inclusions hfits,
    fun p => timesIncluded_of_ends hfits (hhistory.ends loopless_nil) rfl⟩

/-- A document that imports two others and a file that both of these require. -/
def sharedFile : Lookup where
  tree := {
    isFile := fun p => p == ⟨"/s/b.styl"⟩ || p == ⟨"/s/c.styl"⟩ || p == ⟨"/s/d.styl"⟩
    read := fun p => .ok (if p == ⟨"/s/d.styl"⟩ then "x\n" else "@require 'd'\n") }
  cache := {}
  options := {}

theorem required_once_sharedFile :
    let env := Setting.ofLocator sharedFile.options sharedFile.locator
    let events := eventsThrough env 3 ⟨"/s/m.styl"⟩ "@import 'b', 'c', 'd'\n" .empty {}
    let references := references ⟨"/s/d.styl"⟩ events
    references = [(.require, .included), (.require, .skipped), (.import_, .included)] ∧
      (∃ r ∈ references, r.1 = .import_) ∧
      timesIncluded ⟨"/s/d.styl"⟩ (inclusions events) = 1 + 1 := by
  intro env events references
  have hrun : references = [(.require, .included), (.require, .skipped), (.import_, .included)] ∧
      timesImported ⟨"/s/d.styl"⟩ (inclusions events) = 1 := by
    decide +kernel
  obtain ⟨hreferences, himported⟩ := hrun
  have himport : ∃ r ∈ references, r.1 = .import_ := by
    rw [hreferences]
    exact ⟨(.import_, .included), by simp, rfl⟩
  have hcount := ((required_once env 3 ⟨"/s/m.styl"⟩ "@import 'b', 'c', 'd'\n" .empty {}).2.2
    ⟨"/s/d.styl"⟩).2 (Or.inl himport)
  refine ⟨hreferences, himport, ?_⟩
  rw [himported] at hcount
  exact hcount.trans (congrArg (fun rs => 1 + (isRequiredFirst rs).toNat) hreferences)

end StyleWeave.Inline
