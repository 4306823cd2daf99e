import StyleWeave.Scan

/-!
# Scanning with several tables

A scan evaluates the imports of a document with one table after the other and keeps the first import
of each name. So it finds with two lists of tables in a row what it finds with the first, and what
it finds with the second and has not found yet (`scanImports_append`). In which order the tables
come and how often decides on the order of the names, and on which of two keywords a name is found
with, but not on the names.
-/

namespace StyleWeave

namespace Scan

variable {seen seen' : List String} {found : List (String × ImportKind)}

/-! ## First occurrences -/

theorem fresh_cons_of_skip {entry : String × ImportKind}
    (h : Reference.isUnresolvable entry.1 = true ∨ entry.1 ∈ seen)
    (found : List (String × ImportKind)) : fresh seen (entry :: found) = fresh seen found := by
  rw [fresh]
  apply if_pos
  rwa [Bool.or_eq_true, List.contains_iff_mem]

theorem fresh_cons_of_keep {entry : String × ImportKind}
    (h : Reference.isUnresolvable entry.1 = false) (hseen : entry.1 ∉ seen)
    (found : List (String × ImportKind)) :
    fresh seen (entry :: found) = entry :: fresh (entry.1 :: seen) found := by
  rw [fresh]
  apply if_neg
  simp [h, hseen]

/-- An entry is left out, or it is found with a name that was not seen. -/
theorem skip_or_keep (seen : List String) (entry : String × ImportKind) :
    (Reference.isUnresolvable entry.1 = true ∨ entry.1 ∈ seen) ∨
      Reference.isUnresolvable entry.1 = false ∧ entry.1 ∉ seen := by
  by_cases hseen : entry.1 ∈ seen
  · exact Or.inl (Or.inr hseen)
  · cases hresolvable : Reference.isUnresolvable entry.1 with
    | true => exact Or.inl (Or.inl rfl)
    | false => exact Or.inr ⟨rfl, hseen⟩

/-- What is found is in the list, in its order. -/
theorem fresh_sublist (seen : List String) (found : List (String × ImportKind)) :
    (fresh seen found).Sublist found := by
  induction found generalizing seen with
  | nil => exact List.nil_sublist _
  | cons entry rest ih =>
    obtain hskip | ⟨hkeep, hseen⟩ := skip_or_keep seen entry
    · rw [fresh_cons_of_skip hskip]
      exact (ih seen).cons entry
    · rw [fresh_cons_of_keep hkeep hseen]
      exact (ih (entry.1 :: seen)).cons_cons entry

/-- The names that are found are those of the list that can be resolved and were not seen. -/
theorem mem_names_fresh {name : String} :
    name ∈ (fresh seen found).map Prod.fst ↔
      name ∈ found.map Prod.fst ∧ Reference.isUnresolvable name = false ∧ name ∉ seen := by
  induction found generalizing seen with
  | nil => simp [fresh]
  | cons entry rest ih =>
    rw [List.map_cons, List.mem_cons]
    obtain hskip | ⟨hkeep, hunseen⟩ := skip_or_keep seen entry
    · rw [fresh_cons_of_skip hskip, ih]
      constructor
      · rintro ⟨hmem, hmore⟩
        exact ⟨Or.inr hmem, hmore⟩
      · rintro ⟨rfl | hmem, hresolvable, hseen⟩
        · obtain hbad | hbad := hskip
          · rw [hresolvable] at hbad
            cases hbad
          · exact absurd hbad hseen
        · exact ⟨hmem, hresolvable, hseen⟩
    · rw [fresh_cons_of_keep hkeep hunseen, List.map_cons, List.mem_cons, ih, List.mem_cons,
        not_or]
      by_cases heq : name = entry.1
      · subst heq
        exact ⟨fun _ => ⟨Or.inl rfl, hkeep, hunseen⟩, fun _ => Or.inl rfl⟩
      · simp only [heq, false_or, not_false_eq_true, true_and]

/-- No name is found twice. -/
theorem nodup_names_fresh (seen : List String) (found : List (String × ImportKind)) :
    ((fresh seen found).map Prod.fst).Nodup := by
  induction found generalizing seen with
  | nil => exact List.nodup_nil
  | cons entry rest ih =>
    obtain hskip | ⟨hkeep, hseen⟩ := skip_or_keep seen entry
    · rw [fresh_cons_of_skip hskip]
      exact ih seen
    · rw [fresh_cons_of_keep hkeep hseen, List.map_cons, List.nodup_cons]
      refine ⟨fun hmem => ?_, ih _⟩
      have hseen := (mem_names_fresh.1 hmem).2.2
      exact hseen List.mem_cons_self

/-- In which order the names were seen does not matter. -/
theorem fresh_congr (h : ∀ name, name ∈ seen ↔ name ∈ seen')
    (found : List (String × ImportKind)) : fresh seen found = fresh seen' found := by
  induction found generalizing seen seen' with
  | nil => rfl
  | cons entry rest ih =>
    have hcontains : seen.contains entry.1 = seen'.contains entry.1 := by
      rw [Bool.eq_iff_iff, List.contains_iff_mem, List.contains_iff_mem, h]
    have hmore : ∀ name, name ∈ entry.1 :: seen ↔ name ∈ entry.1 :: seen' := by
      intro name
      rw [List.mem_cons, List.mem_cons, h]
    rw [fresh, fresh, hcontains, ih h, ih hmore]

/-- Names that were seen are left out of what would be found. -/
theorem fresh_append_left (names seen : List String) (found : List (String × ImportKind)) :
    fresh (names ++ seen) found = (fresh seen found).filter fun entry => entry.1 ∉ names := by
  induction found generalizing seen with
  | nil => rfl
  | cons entry rest ih =>
    have hbehind : fresh (entry.1 :: (names ++ seen)) rest =
        (fresh (entry.1 :: seen) rest).filter fun entry => entry.1 ∉ names := by
      rw [← ih (entry.1 :: seen)]
      apply fresh_congr
      intro name
      simp only [List.mem_cons, List.mem_append]
      exact or_left_comm
    obtain hskip | ⟨hkeep, hseen⟩ := skip_or_keep seen entry
    · rw [fresh_cons_of_skip hskip,
        fresh_cons_of_skip (hskip.imp_right (List.mem_append_right names))]
      exact ih seen
    · rw [fresh_cons_of_keep hkeep hseen]
      by_cases hnames : entry.1 ∈ names
      · -- The name is found without the others, and then left out.
        rw [fresh_cons_of_skip (Or.inr (List.mem_append_left seen hnames)),
          List.filter_cons_of_neg (by simpa using hnames), ← hbehind]
        apply fresh_congr
        intro name
        rw [List.mem_cons]
        constructor
        · exact Or.inr
        · rintro (rfl | hmem)
          · exact List.mem_append_left seen hnames
          · exact hmem
      · have hboth : entry.1 ∉ names ++ seen := by
          rw [List.mem_append]
          exact not_or.2 ⟨hnames, hseen⟩
        rw [fresh_cons_of_keep hkeep hboth, List.filter_cons_of_pos (by simpa using hnames),
          hbehind]

/-- What is found in two lists in a row: what is found in the first, and behind that what is found
in the second with a name that the first does not have. -/
theorem fresh_append (seen : List String) (found found' : List (String × ImportKind)) :
    fresh seen (found ++ found') =
      fresh seen found ++
        (fresh seen found').filter fun entry => entry.1 ∉ (fresh seen found).map Prod.fst := by
  rw [← fresh_append_left]
  induction found generalizing seen with
  | nil => rfl
  | cons entry rest ih =>
    rw [List.cons_append]
    obtain hskip | ⟨hkeep, hseen⟩ := skip_or_keep seen entry
    · rw [fresh_cons_of_skip hskip, fresh_cons_of_skip hskip]
      exact ih seen
    · rw [fresh_cons_of_keep hkeep hseen, fresh_cons_of_keep hkeep hseen, ih (entry.1 :: seen),
        List.cons_append, List.map_cons]
      apply congrArg (entry :: fresh (entry.1 :: seen) rest ++ ·)
      apply fresh_congr
      intro name
      simp only [List.mem_cons, List.mem_append]
      exact or_left_comm.trans or_assoc.symm

/-! ## Scans -/

/-- With the table, the document has an import of this name and kind. -/
def Knows (source : String) (table : Table) (kind : ImportKind) (name : String) : Prop :=
  ∃ document, parse source.toList = .ok document ∧
    ∃ site ∈ importSites document table, site.statement.kind = kind ∧ some name ∈ site.names

theorem mem_names {document : List Node} {table : Table} {name : String} {kind : ImportKind} :
    (name, kind) ∈ names document table ↔
      ∃ site ∈ importSites document table, site.statement.kind = kind ∧ some name ∈ site.names := by
  unfold names
  rw [List.mem_flatMap]
  constructor
  · rintro ⟨site, hsite, hmem⟩
    obtain ⟨found, hfound, hsome⟩ := List.mem_filterMap.1 hmem
    obtain ⟨_, rfl, heq⟩ := Option.map_eq_some_iff.1 hsome
    obtain ⟨rfl, rfl⟩ := Prod.mk.inj heq
    exact ⟨site, hsite, rfl, hfound⟩
  · rintro ⟨site, hsite, rfl, hname⟩
    exact ⟨site, hsite, List.mem_filterMap.2 ⟨some name, hname, rfl⟩⟩

/-- An import that was found in a file of the directory. -/
def asImport (context : Path) (entry : String × ImportKind) : FoundImport :=
  ⟨context, entry.1, entry.2⟩

theorem map_name_asImport (context : Path) (entries : List (String × ImportKind)) :
    (entries.map (asImport context)).map FoundImport.name = entries.map Prod.fst := by
  rw [List.map_map]
  rfl

variable {file : Path} {source : String} {dialect : Dialect} {document : List Node}
  {tables : List Table}

theorem scanImports_of_foreign (h : dialect.isDialectFile file = false) (tables : List Table) :
    scanImports file source tables dialect = [] := by
  unfold scanImports
  rw [h]
  rfl

theorem scanImports_of_malformed {e : ParseError} (h : parse source.toList = .error e)
    (tables : List Table) : scanImports file source tables dialect = [] := by
  unfold scanImports
  rw [h]
  split <;> rfl

theorem scanImports_of_parse (hfile : dialect.isDialectFile file = true)
    (hparse : parse source.toList = .ok document) (htables : tables ≠ []) :
    scanImports file source tables dialect =
      (fresh [] (tables.flatMap (names document))).map (asImport file.directory) := by
  unfold scanImports
  rw [hfile, hparse, if_neg (by decide), if_neg (by simpa using htables)]
  rfl

/-- Nothing is found with any tables, or the document is one of the dialect and is read. -/
theorem scanImports_cases (file : Path) (source : String) (dialect : Dialect) :
    (∀ tables, scanImports file source tables dialect = []) ∨
      ∃ document, parse source.toList = .ok document ∧ ∀ tables, tables ≠ [] →
        scanImports file source tables dialect =
          (fresh [] (tables.flatMap (names document))).map (asImport file.directory) := by
  cases hfile : dialect.isDialectFile file with
  | false => exact Or.inl (scanImports_of_foreign hfile)
  | true =>
    cases hparse : parse source.toList with
    | error e => exact Or.inl (scanImports_of_malformed hparse)
    | ok document =>
      exact Or.inr ⟨document, rfl, fun tables htables => scanImports_of_parse hfile hparse htables⟩

/-- What is found with two lists of tables in a row. -/
theorem scanImports_of_append {tables' : List Table} (h : tables ≠ []) (h' : tables' ≠ []) :
    scanImports file source (tables ++ tables') dialect =
      scanImports file source tables dialect ++
        (scanImports file source tables' dialect).filter fun i =>
          i.name ∉ (scanImports file source tables dialect).map FoundImport.name := by
  have hboth : tables ++ tables' ≠ [] := by simp [h]
  obtain hnone | ⟨document, -, hscan⟩ := scanImports_cases file source dialect
  · simp [hnone]
  · rw [hscan _ h, hscan _ h', hscan _ hboth, map_name_asImport, List.flatMap_append, fresh_append,
      List.map_append, List.filter_map]
    rfl

theorem nodup_names_scanImports (htables : tables ≠ []) :
    ((scanImports file source tables dialect).map FoundImport.name).Nodup := by
  obtain hnone | ⟨document, -, hscan⟩ := scanImports_cases file source dialect
  · simp [hnone]
  · rw [hscan _ htables, map_name_asImport]
    exact nodup_names_fresh _ _

/-- A name is found exactly if it can be resolved and the document of the dialect has an import of
it with one of the tables. -/
theorem mem_names_scanImports (htables : tables ≠ []) {name : String} :
    name ∈ (scanImports file source tables dialect).map FoundImport.name ↔
      dialect.isDialectFile file = true ∧ Reference.isUnresolvable name = false ∧
        ∃ table ∈ tables, ∃ kind, Knows source table kind name := by
  cases hfile : dialect.isDialectFile file with
  | false => simp [scanImports_of_foreign hfile]
  | true =>
    cases hparse : parse source.toList with
    | error e => simp [scanImports_of_malformed hparse, Knows, hparse]
    | ok document =>
      have hknows : ∀ table kind, Knows source table kind name ↔
          (name, kind) ∈ names document table := by
        intro table kind
        rw [mem_names, Knows, hparse]
        constructor
        · rintro ⟨_, heq, hsite⟩
          obtain rfl := Except.ok.inj heq
          exact hsite
        · exact fun hsite => ⟨document, rfl, hsite⟩
      rw [scanImports_of_parse hfile hparse htables, map_name_asImport, mem_names_fresh]
      simp only [hknows, List.mem_map, List.mem_flatMap, Prod.exists, exists_and_right,
        exists_eq_right, List.not_mem_nil, not_false_eq_true, and_true, true_and]
      constructor
      · rintro ⟨⟨kind, table, htable, hmem⟩, hresolvable⟩
        exact ⟨hresolvable, table, htable, kind, hmem⟩
      · rintro ⟨hresolvable, table, htable, kind, hmem⟩
        exact ⟨⟨kind, table, htable, hmem⟩, hresolvable⟩

theorem knows_of_mem_scanImports (htables : tables ≠ []) {i : FoundImport}
    (h : i ∈ scanImports file source tables dialect) :
    i.context = file.directory ∧ ∃ table ∈ tables, Knows source table i.kind i.name := by
  obtain hnone | ⟨document, hparse, hscan⟩ := scanImports_cases file source dialect
  · rw [hnone] at h
    cases h
  · rw [hscan _ htables] at h
    obtain ⟨⟨name, kind⟩, hentry, rfl⟩ := List.mem_map.1 h
    have hfound := (fresh_sublist _ _).subset hentry
    obtain ⟨table, htable, hname⟩ := List.mem_flatMap.1 hfound
    exact ⟨rfl, table, htable, document, hparse, mem_names.1 hname⟩

end Scan

open Scan (Knows)

/-- Two lists of tables in a row find what the first finds, and behind that what the second finds of
other names. Which names are found does not depend on the order of the tables or on how often each
is there. No name is found twice; each can be resolved, and is that of an import that the document
has with one of the tables, in the directory of the document; and if the document is one of the
dialect, each such name is found. Other documents have no imports. -/
theorem scanImports_append (file : Path) (source : String) (dialect : Dialect)
    {tables tables' : List Table} (h : tables ≠ []) (h' : tables' ≠ []) :
    let scan (tables : List Table) := scanImports file source tables dialect
    let names (tables : List Table) := (scan tables).map FoundImport.name
    scan (tables ++ tables') =
        scan tables ++ (scan tables').filter (fun i => i.name ∉ names tables) ∧
      (∀ others : List Table, (∀ table, table ∈ others ↔ table ∈ tables ++ tables') →
        ∀ name, name ∈ names others ↔ name ∈ names (tables ++ tables')) ∧
      (names (tables ++ tables')).Nodup ∧
      (∀ i ∈ scan (tables ++ tables'), i.context = file.directory ∧
        Reference.isUnresolvable i.name = false ∧
        ∃ table ∈ tables ++ tables', Knows source table i.kind i.name) ∧
      (dialect.isDialectFile file = true → ∀ name, Reference.isUnresolvable name = false →
        (∃ table ∈ tables ++ tables', ∃ kind, Knows source table kind name) →
        name ∈ names (tables ++ tables')) ∧
      (dialect.isDialectFile file = false → scan (tables ++ tables') = []) := by
  intro scan names
  have hboth : tables ++ tables' ≠ [] := by simp [h]
  refine ⟨Scan.scanImports_of_append h h', ?_, Scan.nodup_names_scanImports hboth, ?_, ?_,
    fun hfile => Scan.scanImports_of_foreign hfile _⟩
  · intro others hsame name
    have hothers : others ≠ [] := by
      obtain ⟨table, htable⟩ := List.exists_mem_of_ne_nil _ hboth
      exact List.ne_nil_of_mem ((hsame table).2 htable)
    show name ∈ (scanImports _ _ _ _).map _ ↔ name ∈ (scanImports _ _ _ _).map _
    rw [Scan.mem_names_scanImports hothers, Scan.mem_names_scanImports hboth]
    simp only [hsame]
  · intro i hi
    obtain ⟨hcontext, hknown⟩ := Scan.knows_of_mem_scanImports hboth hi
    have hname := (Scan.mem_names_scanImports hboth).1 (List.mem_map_of_mem hi)
    exact ⟨hcontext, hname.2.1, hknown⟩
  · intro hfile name hresolvable hknown
    exact (Scan.mem_names_scanImports hboth).2 ⟨hfile, hresolvable, hknown⟩

/-- With two tables that give a theme different names, the theme is found under both names and the
other import once. -/
theorem scanImports_append_twoThemes :
    let dark := Dictionary.insert .empty "theme" "dark"
    let light := Dictionary.insert .empty "theme" "light"
    (scanImports ⟨"/s/main.styl"⟩ "@import 'base', 'themes/' + theme\n" ([dark] ++ [light])
      {}).map FoundImport.name = ["base", "themes/dark", "themes/light"] := by
  intro dark light
  obtain ⟨happend, -⟩ := scanImports_append ⟨"/s/main.styl"⟩ "@import 'base', 'themes/' + theme\n"
    {} (List.cons_ne_nil dark []) (List.cons_ne_nil light [])
  refine (congrArg (List.map FoundImport.name) happend).trans ?_
  decide +kernel

/-- What is imported by a document of another language is not found, although it is known with the
tables. -/
theorem scanImports_of_styleSheet :
    Reference.isUnresolvable "a" = false ∧
      (∃ table ∈ [Dictionary.empty] ++ [.empty], ∃ kind, Knows "@import 'a'\n" table kind "a") ∧
      "a" ∉ (scanImports ⟨"/s/main.css"⟩ "@import 'a'\n" ([.empty] ++ [.empty]) {}).map
        FoundImport.name := by
  refine ⟨by decide, ?_, by decide +kernel⟩
  have hfound : "a" ∈ (scanImports ⟨"/s/main.styl"⟩ "@import 'a'\n" ([.empty] ++ [.empty])
      {}).map FoundImport.name := by
    decide +kernel
  exact ((Scan.mem_names_scanImports (List.cons_ne_nil _ _)).1 hfound).2.2

end StyleWeave
