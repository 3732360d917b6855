import Mathlib.Data.List.DropRight
import CodeOverlay.Config.Basic

namespace CodeOverlay

/-!
# Under which names a parser is found

A language goes by several names, and a configuration may use any of them.  Its parser is filed
under the canonical name and as the configuration writes it, and the name that a document gives is
looked up as it is written.  So other spellings of a configured language find the fallback, if
anything.

* `normalLanguageName_normalLanguageName` — a canonical name is its own;
* `Languages.canonical?_of_canonical?` — so the language of a name goes by its canonical name;
* `Languages.Files`, `Config.filed?` — under which names a parser is filed, and for which language;
* `Config.language_addLanguage`, `Config.language_parserTable` — what one language adds to a table,
  and what is in the table of a configuration;
* `Config.find?_parserTable` — which names of a configured language find its parser;
* `Config.unfiled_alias` — not all of them do.
-/

/-! ### Small letters and blanks -/

/-- The letters that have another small form. -/
def capitals : List Char :=
  "ABCDEFGHIJKLMNOPQRSTUVWXYZ\u212A".toList

/-- A letter that is no capital is its own small form. -/
theorem smallLetter_of_not_mem {c : Char} (h : c ∉ capitals) : smallLetter c = c := by
  have hkelvin : c ≠ '\u212A' := by
    rintro rfl
    exact h (by decide)
  have hcapital : ¬('A'.val ≤ c.val ∧ c.val ≤ 'Z'.val) := by
    rintro ⟨hlower, hupper⟩
    have hlower : 65 ≤ c.toNat := UInt32.le_iff_toNat_le.mp hlower
    have hupper : c.toNat ≤ 90 := UInt32.le_iff_toNat_le.mp hupper
    have hletters : ∀ k ≤ 25, Char.ofNat (65 + k) ∈ capitals := by decide
    have hmem := hletters (c.toNat - 65) (by omega)
    rw [Nat.add_sub_cancel' hlower, Char.ofNat_toNat] at hmem
    exact h hmem
  rw [smallLetter, if_neg hkelvin]
  exact dif_neg hcapital

@[simp] theorem smallLetter_smallLetter (c : Char) :
    smallLetter (smallLetter c) = smallLetter c := by
  by_cases h : c ∈ capitals
  · have hcapitals : capitals.map (fun c => smallLetter (smallLetter c)) =
        capitals.map smallLetter := by decide
    exact List.map_inj_left.mp hcapitals c h
  · rw [smallLetter_of_not_mem h, smallLetter_of_not_mem h]

/-- The small form of a letter is blank just if the letter is. -/
@[simp] theorem isBlank_smallLetter (c : Char) : Text.isBlank (smallLetter c) = Text.isBlank c := by
  by_cases h : c ∈ capitals
  · have hcapitals : capitals.map (fun c => Text.isBlank (smallLetter c)) =
        capitals.map Text.isBlank := by decide
    exact List.map_inj_left.mp hcapitals c h
  · rw [smallLetter_of_not_mem h]

/-- What is cut at its end begins as it began. -/
theorem dropWhile_rdropWhile {α : Type} {p : α → Bool} {l : List α} (h : l.dropWhile p = l) :
    (l.rdropWhile p).dropWhile p = l.rdropWhile p := by
  obtain ⟨cut, hcut⟩ := List.rdropWhile_prefix p l
  cases hkept : l.rdropWhile p with
  | nil => rfl
  | cons a kept =>
    rw [hkept] at hcut
    subst hcut
    exact List.dropWhile_cons_of_neg (List.dropWhile_eq_self_iff.mp h (Nat.succ_pos _))

/-- Characters without the blanks at their ends. -/
def trimmed (chars : List Char) : List Char :=
  (chars.dropWhile Text.isBlank).rdropWhile Text.isBlank

theorem Text.toList_trim (text : String) : (trim text).toList = trimmed text.toList := by
  rw [trim, String.toList_ofList]
  rfl

@[simp] theorem trimmed_trimmed (chars : List Char) : trimmed (trimmed chars) = trimmed chars := by
  rw [trimmed, trimmed, dropWhile_rdropWhile (List.dropWhile_idempotent _ _),
    List.rdropWhile_idempotent]

/-- Whether blanks are cut before or after letters are made small is the same. -/
theorem trimmed_map_smallLetter (chars : List Char) :
    trimmed (chars.map smallLetter) = (trimmed chars).map smallLetter := by
  have hblank : Text.isBlank ∘ smallLetter = Text.isBlank := funext isBlank_smallLetter
  rw [trimmed, trimmed, List.rdropWhile, List.rdropWhile, List.dropWhile_map, hblank,
    ← List.map_reverse, List.dropWhile_map, hblank, List.map_reverse]

/-! ### Canonical names -/

/-- The name of a language without blanks around it and in small letters. -/
def plainName (name : String) : String :=
  .ofList ((Text.trim name).toList.map smallLetter)

@[simp] theorem plainName_plainName (name : String) :
    plainName (plainName name) = plainName name := by
  rw [plainName, plainName, Text.toList_trim, Text.toList_trim, String.toList_ofList,
    trimmed_map_smallLetter, trimmed_trimmed, List.map_map]
  congr 2
  exact funext smallLetter_smallLetter

/-- **A canonical name is its own.** -/
@[simp] theorem normalLanguageName_normalLanguageName (name : String) :
    normalLanguageName (normalLanguageName name) = normalLanguageName name := by
  have hname : ∀ name, normalLanguageName name =
      (languageAliases.lookup (plainName name)).getD (plainName name) := fun _ => rfl
  cases halias : languageAliases.lookup (plainName name) with
  | none =>
    have hplain : normalLanguageName name = plainName name := by
      rw [hname, halias, Option.getD_none]
    rw [hplain, hname, plainName_plainName, halias, Option.getD_none]
  | some canonical =>
    -- what other names stand for is in the table only as what it stands for
    have hcanonical : ∀ p ∈ languageAliases, normalLanguageName p.2 = p.2 := by decide
    have hmem : (plainName name, canonical) ∈ languageAliases := by
      obtain ⟨before, after, haliases, -⟩ := List.lookup_eq_some_iff.mp halias
      rw [haliases]
      exact List.mem_append_right _ List.mem_cons_self
    have hnormal : normalLanguageName name = canonical := by rw [hname, halias, Option.getD_some]
    rw [hnormal]
    exact hcanonical (plainName name, canonical) hmem

namespace Languages

variable {known : Languages} {name canonical key : String}

theorem canonical?_eq_some_iff :
    known.canonical? name = some canonical ↔
      normalLanguageName name = canonical ∧ canonical ∈ known.grammars := by
  rw [canonical?]
  by_cases h : normalLanguageName name ∈ known.grammars
  · rw [if_pos h, Option.some.injEq]
    exact ⟨fun heq => ⟨heq, heq ▸ h⟩, And.left⟩
  · rw [if_neg h]
    exact ⟨nofun, fun ⟨heq, hmem⟩ => absurd (heq ▸ hmem) h⟩

/-- **The language of a name** goes by its canonical name. -/
theorem canonical?_of_canonical? (h : known.canonical? name = some canonical) :
    known.canonical? canonical = some canonical := by
  obtain ⟨rfl, hmem⟩ := canonical?_eq_some_iff.mp h
  exact canonical?_eq_some_iff.mpr ⟨normalLanguageName_normalLanguageName name, hmem⟩

/-- The parser of a canonical name is one for that language. -/
theorem language_eq_of_ok {parser : GrammarParser} (hcanonical : known.canonical? name = some name)
    (h : known.parser name = .ok parser) : parser.language = name := by
  rw [Languages.parser, hcanonical] at h
  cases hgrammars : known.grammars? name with
  | none => simp [hgrammars] at h
  | some grammars =>
    simp only [hgrammars, GrammarParser.ofGrammars] at h
    split at h
    · cases h
      rfl
    · cases h

/-! ### What is filed -/

/-- Whether a language that a configuration names is filed under a key: under its canonical name and
    as the configuration writes it. -/
def Files (known : Languages) (name key : String) : Prop :=
  key = name ∨ known.canonical? name = some key

instance : Decidable (known.Files name key) :=
  inferInstanceAs (Decidable (_ ∨ _))

end Languages

/-- The language of the parser under a key. -/
def ParserTable.language? (table : ParserTable) (key : String) : Option String :=
  (table.parsers[key]?).map (·.language)

/-- The language of the parser that is found for a name. -/
theorem ParserTable.language_find? (table : ParserTable) (name : String) :
    (table.find? name).map (·.language) =
      (table.language? name).or (table.language? fallbackKey) := by
  rw [language?, language?, ← Option.map_or, find?, Option.orElse_eq_orElse, Option.orElse_eq_or]

namespace Config

variable {config : Config} {known : Languages} {table table' : ParserTable} {parser : Parser}
variable {name canonical key : String} {names : List String}

/-- The parser of a configured language is one for the language of that name. -/
theorem languageParser_eq_ok (h : languageParser known name = .ok (canonical, parser)) :
    known.canonical? name = some canonical ∧ parser.language = canonical := by
  rw [languageParser] at h
  cases hname : known.canonical? name with
  | none => simp [hname] at h
  | some language =>
    cases hparser : known.parser language with
    | error error => simp [hname, hparser] at h
    | ok found =>
      simp only [hname, hparser] at h
      cases h
      exact ⟨rfl, Languages.language_eq_of_ok (Languages.canonical?_of_canonical? hname) hparser⟩

/-- **What one language adds.**  Under the keys under which it is filed there is its parser, and
    under others there is what was there before. -/
theorem language_addLanguage (h : addLanguage known table name = .ok table') (key : String) :
    table'.language? key =
      if known.Files name key then known.canonical? key else table.language? key := by
  obtain ⟨⟨canonical, parser⟩, hparser, rfl⟩ := map_eq_ok_iff.mp h
  obtain ⟨hname, hlanguage⟩ := languageParser_eq_ok hparser
  have hfiles : known.Files name key ↔ key = name ∨ key = canonical := by
    rw [Languages.Files, hname, Option.some.injEq, eq_comm (a := canonical)]
  have hentry : (if name = canonical then table.insert canonical parser
      else (table.insert canonical parser).insert name parser).parsers[key]? =
        if known.Files name key then some parser else table.parsers[key]? := by
    by_cases hsame : name = canonical
    · rw [if_pos hsame, ParserTable.getElem?_insert, ← hsame]
      exact if_congr (by rw [hfiles, ← hsame, or_self]) rfl rfl
    · rw [if_neg hsame, ParserTable.getElem?_insert, ParserTable.getElem?_insert]
      by_cases hkey : key = name
      · rw [if_pos hkey, if_pos (hfiles.mpr (.inl hkey))]
      · rw [if_neg hkey]
        exact if_congr (by rw [hfiles, or_iff_right hkey]) rfl rfl
  show Option.map _ _ = _
  rw [hentry]
  -- under either key, the language is the one that the key itself stands for
  by_cases hkey : known.Files name key
  · rw [if_pos hkey, if_pos hkey, Option.map_some, hlanguage]
    rcases hfiles.mp hkey with rfl | rfl
    · exact hname.symm
    · exact (Languages.canonical?_of_canonical? hname).symm
  · rw [if_neg hkey, if_neg hkey]
    rfl

/-- **What several languages add**, one after the other. -/
theorem language_foldlM_addLanguage (h : names.foldlM (addLanguage known) table = .ok table')
    (key : String) :
    table'.language? key =
      if ∃ name ∈ names, known.Files name key then known.canonical? key
      else table.language? key := by
  induction names generalizing table with
  | nil =>
    cases h
    rw [if_neg]
    rintro ⟨_, hmem, -⟩
    cases hmem
  | cons name names ih =>
    rw [List.foldlM_cons] at h
    obtain ⟨next, hnext, hrest⟩ := bind_eq_ok_iff.mp h
    -- a later language may be filed under the same key, but then it is the same language
    rw [ih hrest, language_addLanguage hnext]
    by_cases hlater : ∃ name ∈ names, known.Files name key
    · rw [if_pos hlater, if_pos (List.exists_mem_cons_of_exists hlater)]
    · rw [if_neg hlater]
      refine if_congr ?_ rfl rfl
      rw [List.exists_mem_cons_iff, or_iff_left hlater]

/-- The language that a configuration files under a key.  The key of the fallback is that of the
    fallback alone, if there is one. -/
def filed? (config : Config) (known : Languages) (key : String) : Option String :=
  if key = fallbackKey ∧ config.fallback.isSome then config.fallback.bind known.canonical?
  else if ∃ name ∈ config.named known, known.Files name key then known.canonical? key
  else none

/-- **What is in the table of a configuration.** -/
theorem language_parserTable (h : config.parserTable known = .ok table) (key : String) :
    table.language? key = config.filed? known key := by
  obtain ⟨named, hnamed, hrest⟩ := bind_eq_ok_iff.mp h
  have hlanguages := language_foldlM_addLanguage hnamed key
  have hempty : ({} : ParserTable).language? key = none := by simp [ParserTable.language?]
  rw [hempty] at hlanguages
  cases hfallback : config.fallback with
  | none =>
    simp only [hfallback] at hrest
    cases hrest
    rw [filed?, hfallback, if_neg (fun h => Bool.false_ne_true h.2)]
    exact hlanguages
  | some name =>
    simp only [hfallback] at hrest
    obtain ⟨⟨canonical, parser⟩, hparser, hwith⟩ := bind_eq_ok_iff.mp hrest
    cases hwith
    obtain ⟨hname, hlanguage⟩ := languageParser_eq_ok hparser
    show Option.map _ _ = _
    -- the fallback is put into the table last
    rw [ParserTable.withFallback, ParserTable.getElem?_insert, filed?, hfallback]
    by_cases hkey : key = fallbackKey
    · rw [if_pos hkey, if_pos ⟨hkey, rfl⟩, Option.map_some, hlanguage]
      exact hname.symm
    · rw [if_neg hkey, if_neg (fun h => hkey h.1)]
      exact hlanguages

/-- If no language goes by the key of the fallback, what is under it is the fallback. -/
theorem filed?_fallbackKey (hfree : known.canonical? fallbackKey = none) :
    config.filed? known fallbackKey = config.fallback.bind known.canonical? := by
  rw [filed?, hfree, ite_self]
  cases config.fallback with
  | none => rfl
  | some name => exact if_pos ⟨rfl, rfl⟩

/-- **Which names of a configured language find its parser.**  The canonical one does, and so does
    any that the configuration names, the key of the fallback apart.  All others find what is under
    that key, which is the parser of the fallback, if there is one. -/
theorem find?_parserTable (h : config.parserTable known = .ok table)
    (hname : known.canonical? name = some canonical)
    (hconfigured : ∃ other ∈ config.named known, known.canonical? other = some canonical) :
    (name = canonical ∨ name ∈ config.named known → name ≠ fallbackKey →
      ∃ parser, table.find? name = some parser ∧ parser.language = canonical) ∧
    (name ≠ canonical → name ∉ config.named known →
      (table.find? name).map (·.language) = config.filed? known fallbackKey) ∧
    (known.canonical? fallbackKey = none →
      config.filed? known fallbackKey = config.fallback.bind known.canonical?) := by
  have hfound := table.language_find? name
  rw [language_parserTable h, language_parserTable h] at hfound
  refine ⟨fun hfiled hkey => ?_, fun hne hnot => ?_, filed?_fallbackKey⟩
  · have hfiles : ∃ other ∈ config.named known, known.Files other name := by
      rcases hfiled with rfl | hmem
      · obtain ⟨other, hmem, hother⟩ := hconfigured
        exact ⟨other, hmem, .inr hother⟩
      · exact ⟨name, hmem, .inl rfl⟩
    have hlanguage : config.filed? known name = some canonical := by
      rw [filed?, if_neg (fun h => hkey h.1), if_pos hfiles, hname]
    rw [hlanguage, Option.some_or] at hfound
    exact Option.map_eq_some_iff.mp hfound
  · by_cases hkey : name = fallbackKey
    · rw [hfound, hkey, Option.or_self]
    have hfiles : ¬∃ other ∈ config.named known, known.Files other name := by
      rintro ⟨other, hmem, rfl | hother⟩
      · exact hnot hmem
      · -- a canonical name is its own, so `name` would be the canonical one
        have hself := Languages.canonical?_of_canonical? hother
        rw [hname, Option.some.injEq] at hself
        exact hne hself.symm
    have hlanguage : config.filed? known name = none := by
      rw [filed?, if_neg (fun h => hkey h.1), if_neg hfiles]
    rw [hfound, hlanguage, Option.none_or]

/-- The usual languages, with grammars that give up. -/
def silentLanguages : Languages :=
  .standard fun _ => { parse := fun _ _ _ => none }

/-- A configuration for one language, by a short name. -/
def shortName : Config :=
  { languages := ["js"], fallback := some "json" }

/-- The short name finds the parser, and so does the canonical one.  Another short name finds the
    fallback. -/
theorem find?_parserTable_shortName :
    ∃ table, shortName.parserTable silentLanguages = .ok table ∧
      (∃ parser, table.find? "js" = some parser ∧ parser.language = "javascript") ∧
      (∃ parser, table.find? "javascript" = some parser ∧ parser.language = "javascript") ∧
      (table.find? "mjs").map (·.language) = some "json" := by
  obtain ⟨table, h⟩ : ∃ table, shortName.parserTable silentLanguages = .ok table := ⟨_, rfl⟩
  have hconfigured : ∃ other ∈ shortName.named silentLanguages,
      silentLanguages.canonical? other = some "javascript" := by decide +kernel
  have hname : ∀ name ∈ ["js", "javascript", "mjs"],
      silentLanguages.canonical? name = some "javascript" := by decide +kernel
  obtain ⟨hjs, -⟩ := find?_parserTable h (hname "js" (by decide)) hconfigured
  obtain ⟨hjavascript, -⟩ := find?_parserTable h (hname "javascript" (by decide)) hconfigured
  obtain ⟨-, hmjs, hfallback⟩ := find?_parserTable h (hname "mjs" (by decide)) hconfigured
  refine ⟨table, h, hjs (.inr (by decide)) (by decide), hjavascript (.inl rfl) (by decide), ?_⟩
  rw [hmjs (by decide) (by decide), hfallback (by decide +kernel)]
  decide +kernel

/-- **Not all names of a configured language find its parser.**  The short name finds none if the
    configuration uses the canonical one, and the fallback if there is any, even when all languages
    are configured. -/
theorem unfiled_alias :
    silentLanguages.canonical? "js" = some "javascript" ∧
      (∃ config : Config, ∃ table, "javascript" ∈ config.named silentLanguages ∧
        config.parserTable silentLanguages = .ok table ∧ table.find? "js" = none) ∧
      ∃ config : Config, ∃ table, "javascript" ∈ config.named silentLanguages ∧
        config.parserTable silentLanguages = .ok table ∧
        (table.find? "js").map (·.language) = some "json" := by
  refine ⟨by decide +kernel, ⟨{ languages := ["javascript"] }, _, by decide, rfl, ?_⟩,
    { fallback := some "json" }, _, by decide +kernel, rfl, by decide +kernel⟩
  exact Option.map_eq_none_iff.mp (by decide +kernel : Option.map Parser.language _ = none)

end Config

end CodeOverlay
