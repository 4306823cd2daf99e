import StyleWeave.Proofs.Dialect
import StyleWeave.Proofs.Path.Completion
import StyleWeave.Proofs.Path.Parent

/-!
# Extensions of completed requests

A request completed by the dialect names a document of the dialect, and is complete, exactly if the
extension can be read off it again. Two readings have to agree. The extension of a file stands
behind the last dot of its name, so an extension with a dot or a slash is the extension of no file
(`isDialectFile_withExtension_iff`), and nothing is one behind a dot in front
(`isDialectFile_indexRequest_iff`). The extension of a request stands behind its last dot too, but
without quotes at its end (`isLiteralRequest_withExtension_iff`).
-/

namespace StyleWeave

namespace Text

/-! ## Cutting at the end -/

theorem dropEndWhile_cons_of_neg {p : Char → Bool} {c : Char} (hc : p c = false)
    (cs : List Char) : dropEndWhile p (c :: cs) = c :: dropEndWhile p cs := by
  unfold dropEndWhile
  rw [List.reverse_cons, List.dropWhile_append]
  by_cases hnil : (cs.reverse.dropWhile p).isEmpty = true
  · rw [if_pos hnil, List.isEmpty_iff.1 hnil]
    simp [hc]
  · rw [if_neg hnil, List.reverse_append]
    rfl

theorem dropEndWhile_prefix (p : Char → Bool) (cs : List Char) : dropEndWhile p cs <+: cs := by
  rw [← List.reverse_suffix, dropEndWhile, List.reverse_reverse]
  exact List.dropWhile_suffix p

theorem dropEndWhile_append_of_mem {p : Char → Bool} {b : List Char} {c : Char} (hc : c ∈ b)
    (hp : p c = false) (a : List Char) : dropEndWhile p (a ++ b) = a ++ dropEndWhile p b := by
  have hne : (b.reverse.dropWhile p).isEmpty = false := by
    refine Bool.eq_false_iff.2 fun hempty => ?_
    have hall := List.dropWhile_eq_nil_iff.1 (List.isEmpty_iff.1 hempty)
    rw [hall c (List.mem_reverse.2 hc)] at hp
    cases hp
  unfold dropEndWhile
  rw [List.reverse_append, List.dropWhile_append, if_neg (by simp [hne]), List.reverse_append,
    List.reverse_reverse]

theorem dropEndWhile_eq_self_iff {p : Char → Bool} {cs : List Char} :
    dropEndWhile p cs = cs ↔ ∀ c, cs.getLast? = some c → p c = false := by
  constructor
  · intro h c hc
    obtain ⟨front, rfl⟩ := List.getLast?_eq_some_iff.1 hc
    by_contra hp
    rw [Bool.not_eq_false] at hp
    have hlength := congrArg List.length h
    have hless : (front.reverse.dropWhile p).length ≤ front.reverse.length :=
      (List.dropWhile_suffix p).length_le
    rw [dropEndWhile, List.reverse_append, List.reverse_singleton, List.singleton_append,
      List.dropWhile_cons_of_pos hp, List.length_reverse, List.length_append,
      List.length_singleton] at hlength
    rw [List.length_reverse] at hless
    omega
  · intro h
    rcases List.eq_nil_or_concat cs with rfl | ⟨front, c, rfl⟩
    · rfl
    · rw [List.concat_eq_append] at h ⊢
      exact dropEndWhile_append_singleton (h c List.getLast?_concat) front

/-! ## The last dot and the last slash -/

/-- A member of a list stands somewhere for the last time. -/
theorem exists_append_of_mem {c : Char} {cs : List Char} (h : c ∈ cs) :
    ∃ before after, cs = before ++ c :: after ∧ c ∉ after := by
  obtain ⟨after, before, hreverse, hafter⟩ :=
    List.eq_append_cons_of_mem (List.mem_reverse.2 h)
  refine ⟨before.reverse, after.reverse, ?_, by simpa using hafter⟩
  rw [← List.reverse_reverse cs, hreverse]
  simp

/-- A text is cut at the dot behind which there is no other. -/
theorem splitLastDot_eq_some_iff {cs before after : List Char} :
    splitLastDot cs = some (before, after) ↔ cs = before ++ '.' :: after ∧ '.' ∉ after := by
  constructor
  · intro h
    by_cases hdot : '.' ∈ cs
    · obtain ⟨before', after', rfl, hlast⟩ := exists_append_of_mem hdot
      rw [splitLastDot_append hlast] at h
      obtain ⟨rfl, rfl⟩ := Prod.mk.inj (Option.some.inj h)
      exact ⟨rfl, hlast⟩
    · rw [splitLastDot_eq_none hdot] at h
      cases h
  · rintro ⟨rfl, hafter⟩
    exact splitLastDot_append hafter before

/-- What stands in front of the last dot makes no difference to what stands behind it. -/
theorem afterLastDot?_append {s : String} (h : '.' ∈ s.toList) (start : String) :
    afterLastDot? (start ++ s) = afterLastDot? s := by
  obtain ⟨before, after, htext, hafter⟩ := exists_append_of_mem h
  have hwhole : (start ++ s).toList = (start.toList ++ before) ++ '.' :: after := by
    rw [String.toList_append, htext, List.append_assoc]
  unfold afterLastDot?
  rw [htext, hwhole, splitLastDot_append hafter, splitLastDot_append hafter]
  rfl

theorem trimQuotes_append {s : String} (h : '.' ∈ s.toList) (start : String) :
    trimQuotes (start ++ s) = start ++ trimQuotes s := by
  rw [← String.toList_inj, String.toList_append, trimQuotes, trimQuotes, trimEndWhile,
    trimEndWhile, String.toList_ofList, String.toList_ofList, String.toList_append]
  exact dropEndWhile_append_of_mem h (by decide) start.toList

/-- The text ends with something else than a slash. -/
def EndsInName (s : String) : Prop :=
  ∃ c, s.toList.getLast? = some c ∧ c ≠ '/'

/-- What stands behind the last slash of a text is empty unless the text ends in a name. -/
theorem exists_lastSegment (s : String) : ∃ front last : List Char,
    s.toList = front ++ last ∧ (front = [] ∨ ∃ before, front = before ++ ['/']) ∧ '/' ∉ last ∧
      (EndsInName s ↔ last ≠ []) := by
  by_cases hslash : '/' ∈ s.toList
  · obtain ⟨before, last, htext, hlast⟩ := exists_append_of_mem hslash
    have hcut : s.toList = (before ++ ['/']) ++ last := by
      rw [htext, List.append_assoc, List.singleton_append]
    refine ⟨before ++ ['/'], last, hcut, Or.inr ⟨before, rfl⟩, hlast, ?_⟩
    unfold EndsInName
    rw [hcut, List.getLast?_append]
    constructor
    · rintro ⟨c, hc, hne⟩ rfl
      rw [List.getLast?_nil, Option.none_or, List.getLast?_concat] at hc
      exact hne (Option.some.inj hc).symm
    · intro hne
      refine ⟨last.getLast hne, ?_, fun h => hlast (h ▸ List.getLast_mem hne)⟩
      rw [List.getLast?_eq_some_getLast hne, Option.some_or]
  · refine ⟨[], s.toList, rfl, Or.inl rfl, hslash, ?_⟩
    constructor
    · rintro ⟨c, hc, -⟩ hnil
      rw [hnil] at hc
      cases hc
    · intro hne
      exact ⟨s.toList.getLast hne, List.getLast?_eq_some_getLast hne,
        fun h => hslash (h ▸ List.getLast_mem hne)⟩

theorem endsInName_append {s : String} (h : s ≠ "") (start : String) :
    EndsInName (start ++ s) ↔ EndsInName s := by
  have hne : s.toList ≠ [] := by rwa [Ne, String.toList_eq_nil_iff]
  unfold EndsInName
  rw [String.toList_append, List.getLast?_append, List.getLast?_eq_some_getLast hne,
    Option.some_or]

end Text

namespace Path

variable {d : Dialect}

/-! ## File names and their extensions -/

/-- A name behind a slash, or by itself, is the file name of the path. -/
theorem fileName?_of_lastSegment {p : Path} {front : List Char} {name : String}
    (htext : p.text.toList = front ++ name.toList)
    (hfront : front = [] ∨ ∃ before, front = before ++ ['/'])
    (hlegal : (Component.name name).Legal) : p.fileName? = some name := by
  rw [fileName?_eq_some_iff]
  rcases hfront with rfl | ⟨before, rfl⟩
  · have hname : p = ⟨name⟩ := by
      obtain ⟨text⟩ := p
      exact congrArg Path.mk (String.toList_inj.1 htext)
    rw [hname, components_name hlegal]
    rfl
  · rw [components_eq, htext, List.append_assoc, List.singleton_append, componentsOf_append_slash,
      (components_of_legal hlegal false).2, ← List.append_assoc, List.getLast?_concat]

/-- The extension of a path has no dots and no slashes. -/
theorem notMem_of_extension {p : Path} {ext : String} (h : p.extension? = some ext) :
    '.' ∉ ext.toList ∧ '/' ∉ ext.toList := by
  obtain ⟨file, hfile, hext⟩ := Option.bind_eq_some_iff.1 h
  have hslash : '/' ∉ file.toList := (legal_of_fileName hfile).2.1
  unfold splitExtension at hext
  cases hsplit : Text.splitLastDot file.toList with
  | none =>
    rw [hsplit] at hext
    cases hext
  | some parts =>
    obtain ⟨before, after⟩ := parts
    obtain ⟨htext, hdot⟩ := Text.splitLastDot_eq_some_iff.1 hsplit
    rw [hsplit] at hext
    dsimp only at hext
    by_cases hnil : before = []
    · rw [if_pos hnil] at hext
      cases hext
    · rw [if_neg hnil] at hext
      obtain rfl := Option.some.inj hext
      rw [String.toList_ofList]
      refine ⟨hdot, fun hmem => hslash ?_⟩
      rw [htext]
      exact List.mem_append_right _ (List.mem_cons_of_mem _ hmem)

/-- A dot and an extension behind a text make a file name. -/
theorem legal_append_extension {last : List Char} {ext : String} (hne : ext.toList ≠ [])
    (hdot : '.' ∉ ext.toList) (hslash : '/' ∉ ext.toList) (hlast : '/' ∉ last) :
    (Component.name (String.ofList (last ++ '.' :: ext.toList))).Legal := by
  -- Behind its last dot the name goes on, so it is none of the steps that end in a dot.
  have hends : ∀ before : List Char, last ++ '.' :: ext.toList ≠ before ++ ['.'] := by
    intro before heq
    have hgetLast := congrArg List.getLast? heq
    rw [List.getLast?_concat, List.getLast?_append, List.getLast?_cons,
      List.getLast?_eq_some_getLast hne] at hgetLast
    exact hdot (Option.some.inj hgetLast ▸ List.getLast_mem hne)
  refine ⟨by simp, ?_, ?_, ?_⟩
  · rw [String.toList_ofList, List.mem_append, List.mem_cons]
    rintro (hmem | hmem | hmem)
    · exact hlast hmem
    · cases hmem
    · exact hslash hmem
  · rw [String.toList_ofList]
    exact hends []
  · rw [String.toList_ofList]
    exact hends ['.']

/-- A text with an extension behind it is the path of a file with that extension, if the text ends
in a name. Behind a slash the dot is in front of the file name and starts no extension. -/
theorem extension?_append {ext : String} (hne : ext ≠ "") (hdot : '.' ∉ ext.toList)
    (hslash : '/' ∉ ext.toList) (s : String) :
    (Text.EndsInName s → extension? ⟨s ++ "." ++ ext⟩ = some ext) ∧
      (¬Text.EndsInName s → extension? ⟨s ++ "." ++ ext⟩ = none) := by
  obtain ⟨front, last, htext, hfront, hlast, hends⟩ := Text.exists_lastSegment s
  have hext : ext.toList ≠ [] := by rwa [Ne, String.toList_eq_nil_iff]
  have hwhole : (s ++ "." ++ ext).toList =
      front ++ (String.ofList (last ++ '.' :: ext.toList)).toList := by
    simp [String.toList_append, htext]
  have hlegal := legal_append_extension hext hdot hslash hlast
  have hfile : extension? ⟨s ++ "." ++ ext⟩ = if last = [] then none else some ext := by
    unfold extension? splitExtension
    rw [fileName?_of_lastSegment hwhole hfront hlegal, Option.bind_some, String.toList_ofList,
      Text.splitLastDot_append hdot]
    dsimp only
    by_cases hnil : last = []
    · rw [if_pos hnil, if_pos hnil]
    · rw [if_neg hnil, if_neg hnil, String.ofList_toList]
  rw [hends]
  constructor
  · intro hname
    rw [hfile, if_neg hname]
  · intro hname
    rw [hfile, if_pos (not_not.1 hname)]

end Path

/-! ## Completed requests -/

namespace Dialect

variable {d : Dialect}

/-- The extension is one that a file can have: it has no dots and no slashes. -/
def OneExtension (d : Dialect) : Prop :=
  '.' ∉ d.extension.toList ∧ '/' ∉ d.extension.toList

/-- What a request completed with the extension shows behind its last dot, but for quotes at its
end. -/
def shownExtension (d : Dialect) : String :=
  (Text.afterLastDot? (Text.trimQuotes ("." ++ d.extension))).getD ""

/-- A request completed with the extension is complete: it shows the extension, or that of a plain
stylesheet. -/
def Completes (d : Dialect) : Prop :=
  '/' ∉ d.shownExtension.toList ∧
    (d.shownExtension = d.extension ∨ d.isLiteralExtension d.shownExtension = true)

/-- A character in front of the letters is its own lower case, and that of no other. -/
theorem toLower_eq_iff {x c : Char} (hc : c.val < 'A'.val) : x.toLower = c ↔ x = c := by
  unfold Char.toLower
  by_cases hupper : 'A'.val ≤ x.val ∧ x.val ≤ 'Z'.val
  · rw [dif_pos hupper]
    constructor
    · rintro rfl
      have hfirst := UInt32.le_iff_toNat_le.1 hupper.1
      have hlast := UInt32.le_iff_toNat_le.1 hupper.2
      have hless := UInt32.lt_iff_toNat_lt.1 hc
      have hA : 'A'.val.toNat = 65 := rfl
      have hZ : 'Z'.val.toNat = 90 := rfl
      have hshift : ('a'.val - 'A'.val).toNat = 32 := rfl
      simp only [UInt32.toNat_add] at hless
      omega
    · rintro rfl
      exact absurd hupper.1 (UInt32.not_le.2 hc)
  · rw [dif_neg hupper]

theorem notMem_of_equalFold {a b : String} (h : Text.equalFold a b = true) {c : Char}
    (hc : c.val < 'A'.val) (ha : c ∉ a.toList) : c ∉ b.toList := by
  intro hmem
  have hmap : a.toList.map Char.toLower = b.toList.map Char.toLower := of_decide_eq_true h
  have hlower : c ∈ b.toList.map Char.toLower :=
    List.mem_map.2 ⟨c, hmem, (toLower_eq_iff hc).2 rfl⟩
  rw [← hmap] at hlower
  obtain ⟨x, hx, hxc⟩ := List.mem_map.1 hlower
  exact ha ((toLower_eq_iff hc).1 hxc ▸ hx)

/-- A document of the dialect shows that the extension is one that a file can have. -/
theorem oneExtension_of_isDialectFile {p : Path} (h : d.isDialectFile p = true) :
    d.OneExtension := by
  obtain ⟨ext, hext, hfold⟩ := (Option.any_eq_true _ _).1 h
  obtain ⟨hdot, hslash⟩ := Path.notMem_of_extension hext
  exact ⟨notMem_of_equalFold hfold (by decide) hdot, notMem_of_equalFold hfold (by decide) hslash⟩

/-- A request completed with the extension names a document of the dialect exactly if the extension
is one that a file can have and the request ends in a name. -/
theorem isDialectFile_withExtension_iff (hne : d.extension ≠ "") (request : String) :
    d.isDialectFile ⟨d.withExtension request⟩ = true ↔
      d.OneExtension ∧ Text.EndsInName request := by
  constructor
  · intro h
    have hone := oneExtension_of_isDialectFile h
    refine ⟨hone, ?_⟩
    by_contra hname
    have hext := (Path.extension?_append hne hone.1 hone.2 request).2 hname
    unfold isDialectFile withExtension at h
    rw [hext] at h
    cases h
  · rintro ⟨hone, hname⟩
    have hext := (Path.extension?_append hne hone.1 hone.2 request).1 hname
    unfold isDialectFile withExtension
    rw [hext]
    exact Text.equalFold_self d.extension

theorem indexRequest_eq (d : Dialect) (request : String) :
    d.indexRequest request =
      d.withExtension (Text.trimSlashes request ++ "/" ++ d.indexFile) :=
  rfl

theorem isDialectFile_indexRequest_iff (hne : d.extension ≠ "") (request : String) :
    d.isDialectFile ⟨d.indexRequest request⟩ = true ↔
      d.OneExtension ∧ Text.EndsInName d.indexFile := by
  have hends : Text.EndsInName (Text.trimSlashes request ++ "/" ++ d.indexFile) ↔
      Text.EndsInName d.indexFile := by
    by_cases hindex : d.indexFile = ""
    · rw [hindex]
      constructor
      · rintro ⟨c, hc, hslash⟩
        rw [String.append_empty, String.toList_append] at hc
        have hlast : (Text.trimSlashes request).toList ++ ['/'] ≠ [] := by simp
        rw [show "/".toList = ['/'] from rfl, List.getLast?_concat] at hc
        exact absurd (Option.some.inj hc).symm hslash
      · rintro ⟨c, hc, -⟩
        cases hc
    · exact Text.endsInName_append hindex _
  rw [indexRequest_eq, isDialectFile_withExtension_iff hne, hends]

/-! ## Extensions that are shown -/

theorem trimQuotes_dot (ext : String) :
    (Text.trimQuotes ("." ++ ext)).toList = '.' :: (Text.trimQuotes ext).toList := by
  rw [Text.trimQuotes, Text.trimQuotes, Text.trimEndWhile, Text.trimEndWhile,
    String.toList_ofList, String.toList_ofList, String.toList_append]
  exact Text.dropEndWhile_cons_of_neg (by decide) ext.toList

/-- What is shown is the extension without the quotes at its end, or less if that has a dot. -/
theorem shownExtension_spec (d : Dialect) :
    Text.afterLastDot? (Text.trimQuotes ("." ++ d.extension)) = some d.shownExtension ∧
      ((d.shownExtension = Text.trimQuotes d.extension ∧
          '.' ∉ (Text.trimQuotes d.extension).toList) ∨
        '.' ∈ (Text.trimQuotes d.extension).toList ∧
          d.shownExtension.toList.length < (Text.trimQuotes d.extension).toList.length) := by
  have htext := trimQuotes_dot d.extension
  unfold shownExtension Text.afterLastDot?
  rw [htext]
  by_cases hdot : '.' ∈ (Text.trimQuotes d.extension).toList
  · obtain ⟨before, after, hcut, hafter⟩ := Text.exists_append_of_mem hdot
    rw [hcut, ← List.cons_append, Text.splitLastDot_append hafter]
    refine ⟨rfl, Or.inr ⟨by simp, ?_⟩⟩
    simp only [Option.map_some, Option.getD_some, String.toList_ofList, List.length_append,
      List.length_cons]
    omega
  · rw [← List.nil_append ('.' :: _), Text.splitLastDot_append hdot]
    refine ⟨rfl, Or.inl ⟨?_, hdot⟩⟩
    rw [Option.map_some, Option.getD_some, String.ofList_toList]

theorem trimQuotes_prefix (s : String) : (Text.trimQuotes s).toList <+: s.toList := by
  rw [Text.trimQuotes, Text.trimEndWhile, String.toList_ofList]
  exact Text.dropEndWhile_prefix _ s.toList

/-- The extension that is shown has the characters of the extension only if it is the extension. -/
theorem shownExtension_eq_of_length
    (h : d.shownExtension.toList.length = d.extension.toList.length) :
    d.shownExtension = d.extension ∧ Text.trimQuotes d.extension = d.extension ∧
      '.' ∉ d.extension.toList := by
  have hprefix := trimQuotes_prefix d.extension
  have hle := hprefix.length_le
  rcases d.shownExtension_spec.2 with ⟨hshown, hdot⟩ | ⟨-, hless⟩
  · rw [hshown] at h
    have hsame := String.toList_inj.1 (List.IsPrefix.eq_of_length hprefix h)
    rw [hsame] at hshown hdot
    exact ⟨hshown, hsame, hdot⟩
  · omega

/-- The extension is shown if it has no dots and does not end with a quote, and only then. -/
theorem shownExtension_eq_iff :
    d.shownExtension = d.extension ↔ '.' ∉ d.extension.toList ∧
      ∀ c, d.extension.toList.getLast? = some c → c ≠ '"' ∧ c ≠ '\'' := by
  have htrim : Text.trimQuotes d.extension = d.extension ↔
      ∀ c, d.extension.toList.getLast? = some c → c ≠ '"' ∧ c ≠ '\'' := by
    rw [← String.toList_inj, Text.trimQuotes, Text.trimEndWhile, String.toList_ofList,
      Text.dropEndWhile_eq_self_iff]
    simp
  rw [← htrim]
  constructor
  · intro h
    obtain ⟨-, hsame, hdot⟩ := shownExtension_eq_of_length (congrArg (·.toList.length) h)
    exact ⟨hdot, hsame⟩
  · rintro ⟨hdot, hsame⟩
    rcases d.shownExtension_spec.2 with ⟨hshown, -⟩ | ⟨hmem, -⟩
    · rw [hshown, hsame]
    · rw [hsame] at hmem
      exact absurd hmem hdot

theorem equalFold_shownExtension_iff :
    Text.equalFold d.shownExtension d.extension = true ↔ d.shownExtension = d.extension := by
  constructor
  · intro h
    have hmap : d.shownExtension.toList.map Char.toLower = d.extension.toList.map Char.toLower :=
      of_decide_eq_true h
    have hlength := congrArg List.length hmap
    rw [List.length_map, List.length_map] at hlength
    exact (shownExtension_eq_of_length hlength).1
  · intro h
    rw [h]
    exact Text.equalFold_self d.extension

/-- Whether a request completed with the extension is complete depends on the extension only. -/
theorem isLiteralRequest_withExtension_iff (d : Dialect) (request : String) :
    d.isLiteralRequest (d.withExtension request) = true ↔ d.Completes := by
  have hdot : '.' ∈ ("." ++ d.extension).toList := by
    rw [String.toList_append]
    exact List.mem_append_left _ (List.mem_singleton.2 rfl)
  have htrimmed : '.' ∈ (Text.trimQuotes ("." ++ d.extension)).toList := by
    rw [trimQuotes_dot]
    exact List.mem_cons_self
  have hshown : Text.afterLastDot? (Text.trimQuotes (d.withExtension request)) =
      some d.shownExtension := by
    rw [withExtension, String.append_assoc, Text.trimQuotes_append hdot,
      Text.afterLastDot?_append htrimmed]
    exact d.shownExtension_spec.1
  unfold isLiteralRequest Completes
  rw [hshown]
  dsimp only
  rw [Bool.and_eq_true, Bool.or_eq_true, equalFold_shownExtension_iff]
  simp

theorem isLiteralRequest_indexRequest_iff (d : Dialect) (request : String) :
    d.isLiteralRequest (d.indexRequest request) = true ↔ d.Completes := by
  rw [indexRequest_eq]
  exact d.isLiteralRequest_withExtension_iff _

theorem candidates_eq_singleton_iff {request : String} :
    d.candidates request = [request] ↔ d.isLiteralRequest request = true := by
  unfold candidates
  by_cases hliteral : d.isLiteralRequest request = true
  · rw [if_pos hliteral]
    exact iff_of_true rfl hliteral
  · rw [if_neg hliteral]
    exact iff_of_false (by simp) hliteral

end Dialect

end StyleWeave
