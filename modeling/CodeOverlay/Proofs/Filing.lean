import CodeOverlay.Proofs.Naming

namespace CodeOverlay

/-!
# What a configuration files

A configuration names languages in any way and any order, repeatedly or not.  Each is filed under
its canonical name and as it is written, and a later one may take the place of an earlier one.  No
parser ends up under a key that stands for another language.

* `Languages.Ready` — known languages of which each goes by its own name and has a parser;
* `ready_empty`, `ready_standard` — no languages, and the usual ones;
* `ParserTable.Genuine` — under each key is the parser of the language for which the key stands;
* `genuine_addLanguage`, `genuine_foldlM` — this stays so with each language, and with all;
* `parserTable_eq_error_iff` — the first unknown name is what is wrong;
* `exists_parserTable_iff` — there is a table if no name is unknown;
* `mem_parserTable_iff` — the keys of a table;
* `parserTable_filed` — when a table is built, and what is in it.
-/

/-- All queries of a language are queries for their grammars. -/
def LanguageGrammars.Compiles (grammars : LanguageGrammars) : Prop :=
  grammars.primary.compiles = true ∧ grammars.inline.all (·.grammar.compiles) = true

namespace Languages

/-- Known languages that are ready for use. -/
structure Ready (known : Languages) : Prop where
  /-- Each language goes by the name under which it is known. -/
  named : ∀ name ∈ known.grammars, known.canonical? name = some name
  /-- Each language has a parser. -/
  compiles : ∀ (name : String) (grammars : LanguageGrammars),
    known.grammars[name]? = some grammars → grammars.Compiles
  /-- No language goes by the key of the fallback. -/
  free : known.canonical? fallbackKey = none

variable {known : Languages} {name canonical key : String}

/-! ### The usual languages -/

theorem ready_empty : empty.Ready where
  named name h := by simp [empty] at h
  compiles name grammars h := by simp [empty] at h
  free := by simp [empty, canonical?]

/-- The names of the usual languages. -/
def standardNames : List String :=
  "markdown" :: plainLanguages

/-- What is under a name after several are put in with one grammar each. -/
theorem getElem?_foldl_insert (grammar : String → Grammar) (names : List String)
    (known : Std.ExtTreeMap String LanguageGrammars) (name : String) :
    (names.foldl (fun known name => known.insert name { primary := grammar name }) known)[name]? =
      if name ∈ names then some ({ primary := grammar name } : LanguageGrammars)
      else known[name]? := by
  induction names generalizing known with
  | nil => rfl
  | cons other names ih =>
    rw [List.foldl_cons, ih, Std.ExtTreeMap.getElem?_insert]
    by_cases hmem : name ∈ names
    · rw [if_pos hmem, if_pos (List.mem_cons_of_mem _ hmem)]
    · rw [if_neg hmem]
      by_cases hname : other = name
      · subst hname
        rw [if_pos Std.ReflCmp.compare_self, if_pos List.mem_cons_self]
      · rw [if_neg (fun h => hname (Std.LawfulEqCmp.eq_of_compare h)),
          if_neg (by rw [List.mem_cons, not_or]; exact ⟨fun h => hname h.symm, hmem⟩)]

/-- A usual language has grammars of the given ones. -/
theorem mem_and_compiles_standard {grammar : String → Grammar} {grammars : LanguageGrammars}
    (hgrammar : ∀ name, (grammar name).compiles = true)
    (h : (standard grammar).grammars[name]? = some grammars) :
    name ∈ standardNames ∧ grammars.Compiles := by
  rw [standard, Std.ExtTreeMap.getElem?_insert, getElem?_foldl_insert] at h
  split at h
  · rename_i hname
    cases h
    exact ⟨Std.LawfulEqCmp.eq_of_compare hname ▸ List.mem_cons_self, hgrammar _, hgrammar _⟩
  · split at h
    · rename_i hname
      cases h
      exact ⟨List.mem_cons_of_mem _ hname, hgrammar _, rfl⟩
    · simp at h

theorem ready_standard {grammar : String → Grammar}
    (hgrammar : ∀ name, (grammar name).compiles = true) : (standard grammar).Ready where
  named name h := by
    have hnormal : ∀ name ∈ standardNames, normalLanguageName name = name := by decide +kernel
    obtain ⟨grammars, hgrammars⟩ := Option.isSome_iff_exists.mp
      (Std.ExtTreeMap.isSome_getElem?_iff_mem.mpr h)
    exact canonical?_eq_some_iff.mpr
      ⟨hnormal name (mem_and_compiles_standard hgrammar hgrammars).1, h⟩
  compiles name grammars h := (mem_and_compiles_standard hgrammar h).2
  free := by
    rw [Option.eq_none_iff_forall_ne_some]
    intro name h
    obtain ⟨hnormal, hmem⟩ := canonical?_eq_some_iff.mp h
    obtain ⟨grammars, hgrammars⟩ := Option.isSome_iff_exists.mp
      (Std.ExtTreeMap.isSome_getElem?_iff_mem.mpr hmem)
    have hname := (mem_and_compiles_standard hgrammar hgrammars).1
    rw [← hnormal] at hname
    exact absurd hname (by decide +kernel)

/-! ### Parsers -/

/-- A name and its canonical name have the same parser. -/
theorem parser_eq_of_canonical? (h : known.canonical? name = some canonical) :
    known.parser name = known.parser canonical := by
  rw [parser, parser, grammars?, grammars?, canonical?_of_canonical? h, h, Option.bind_some]
  cases hgrammars : known.grammars[canonical]? with
  | none =>
    have hmem := (canonical?_eq_some_iff.mp h).2
    rw [← Std.ExtTreeMap.isSome_getElem?_iff_mem, hgrammars] at hmem
    cases hmem
  | some grammars => rfl

theorem Ready.exists_parser (hknown : known.Ready) (h : known.canonical? name = some canonical) :
    ∃ parser, known.parser name = .ok parser := by
  obtain ⟨-, hmem⟩ := canonical?_eq_some_iff.mp h
  obtain ⟨grammars, hgrammars⟩ := Option.isSome_iff_exists.mp
    (Std.ExtTreeMap.isSome_getElem?_iff_mem.mpr hmem)
  obtain ⟨hprimary, hinline⟩ := hknown.compiles canonical grammars hgrammars
  refine ⟨⟨canonical, grammars⟩, ?_⟩
  rw [parser, grammars?, h, Option.bind_some, hgrammars]
  exact if_pos (Bool.and_eq_true_iff.mpr ⟨hprimary, hinline⟩)

/-- Whether a name stands for no language. -/
def lacks (known : Languages) (name : String) : Bool :=
  (known.canonical? name).isNone

end Languages

/-- Under each key is the parser of the language for which the key stands. -/
def ParserTable.Genuine (known : Languages) (table : ParserTable) : Prop :=
  ∀ (key : String) (parser : Parser), table.parsers[key]? = some parser →
    ∃ p, known.parser key = .ok p ∧ p.toParser = parser

namespace Config

open Languages

variable {config : Config} {known : Languages} {table table' : ParserTable}
variable {name key : String} {names : List String} {error : ConfigError}

/-- What is filed for a name is the parser of its language. -/
theorem languageParser_eq_ok_iff {canonical : String} {parser : Parser} :
    languageParser known name = .ok (canonical, parser) ↔
      known.canonical? name = some canonical ∧ ∃ p, known.parser name = .ok p ∧
        p.toParser = parser := by
  rw [languageParser]
  cases hname : known.canonical? name with
  | none => simp
  | some found =>
    simp only [parser_eq_of_canonical? hname]
    cases known.parser found with
    | error error => simp
    | ok p => simp

theorem genuine_addLanguage (htable : table.Genuine known)
    (h : addLanguage known table name = .ok table') : table'.Genuine known := by
  obtain ⟨⟨canonical, parser⟩, hparser, rfl⟩ := map_eq_ok_iff.mp h
  obtain ⟨hname, p, hp, rfl⟩ := languageParser_eq_ok_iff.mp hparser
  -- the parser is the one for either name
  have hp' : known.parser canonical = .ok p := (parser_eq_of_canonical? hname).symm.trans hp
  have hcanonical : (table.insert canonical p.toParser).Genuine known := by
    intro key found hfound
    rw [ParserTable.getElem?_insert] at hfound
    split at hfound
    · rename_i hkey
      cases hfound
      exact ⟨p, hkey ▸ hp', rfl⟩
    · exact htable key found hfound
  by_cases hsame : name = canonical
  · simp only [if_pos hsame]
    exact hcanonical
  · simp only [if_neg hsame]
    intro key found hfound
    rw [ParserTable.getElem?_insert] at hfound
    split at hfound
    · rename_i hkey
      cases hfound
      exact ⟨p, hkey ▸ hp, rfl⟩
    · exact hcanonical key found hfound

theorem genuine_foldlM (htable : table.Genuine known)
    (h : names.foldlM (addLanguage known) table = .ok table') : table'.Genuine known := by
  induction names generalizing table with
  | nil =>
    cases h
    exact htable
  | cons name names ih =>
    rw [List.foldlM_cons] at h
    obtain ⟨next, hnext, hrest⟩ := bind_eq_ok_iff.mp h
    exact ih (genuine_addLanguage htable hnext) hrest

/-! ### The first unknown name -/

theorem languageParser_eq_error_iff (hknown : known.Ready) :
    languageParser known name = .error error ↔
      known.lacks name = true ∧ .unknownLanguage name = error := by
  rw [languageParser, lacks]
  cases hname : known.canonical? name with
  | none => simp
  | some canonical =>
    obtain ⟨parser, hparser⟩ := hknown.exists_parser (canonical?_of_canonical? hname)
    simp [hparser]

theorem exists_of_not_lacks (hknown : known.Ready) (hlacks : ¬known.lacks name = true) :
    ∃ found, languageParser known name = .ok found := by
  cases hparser : languageParser known name with
  | error error => exact absurd ((languageParser_eq_error_iff hknown).mp hparser).1 hlacks
  | ok found => exact ⟨found, rfl⟩

/-- **The first unknown name** of several languages is reported. -/
theorem foldlM_addLanguage_eq_error_iff (hknown : known.Ready) :
    names.foldlM (addLanguage known) table = .error error ↔
      (names.find? known.lacks).map .unknownLanguage = some error := by
  induction names generalizing table with
  | nil => exact ⟨nofun, nofun⟩
  | cons name names ih =>
    have hadd : addLanguage known table name = .error error ↔
        known.lacks name = true ∧ .unknownLanguage name = error :=
      map_eq_error_iff.trans (languageParser_eq_error_iff hknown)
    rw [List.foldlM_cons]
    refine bind_eq_error_iff.trans ?_
    rw [hadd]
    by_cases hlacks : known.lacks name = true
    · rw [List.find?_cons_of_pos hlacks, Option.map_some, Option.some.injEq]
      constructor
      · rintro (⟨-, herror⟩ | ⟨next, hnext, -⟩)
        · exact herror
        · obtain ⟨found, hfound, -⟩ := map_eq_ok_iff.mp hnext
          rw [(languageParser_eq_error_iff hknown).mpr ⟨hlacks, rfl⟩] at hfound
          cases hfound
      · exact fun herror => .inl ⟨hlacks, herror⟩
    · obtain ⟨found, hfound⟩ := exists_of_not_lacks hknown hlacks
      rw [List.find?_cons_of_neg hlacks]
      constructor
      · rintro (⟨h, -⟩ | ⟨next, -, hrest⟩)
        · exact absurd h hlacks
        · exact ih.mp hrest
      · exact fun herror => .inr ⟨_, map_eq_ok_iff.mpr ⟨found, hfound, rfl⟩, ih.mpr herror⟩

theorem exists_foldlM_addLanguage (hknown : known.Ready) (hnone : names.find? known.lacks = none) :
    ∃ table', names.foldlM (addLanguage known) table = .ok table' := by
  cases htable : names.foldlM (addLanguage known) table with
  | error error =>
    have herror := (foldlM_addLanguage_eq_error_iff hknown).mp htable
    rw [hnone] at herror
    cases herror
  | ok table' => exact ⟨table', rfl⟩

/-- The names that a configuration uses, in the order in which they are looked up. -/
def used (config : Config) : List String :=
  config.languages ++ config.fallback.toList

/-- If no language is configured all known ones are, and none of these is unknown. -/
theorem find?_named (hknown : known.Ready) :
    (config.named known).find? known.lacks = config.languages.find? known.lacks := by
  rw [named]
  split
  · rename_i hempty
    rw [List.isEmpty_iff.mp hempty, List.find?_nil, List.find?_eq_none]
    intro name hmem
    rw [lacks, hknown.named name (Std.ExtTreeMap.mem_keys.mp hmem)]
    exact Bool.false_ne_true
  · rfl

/-- **When there is no table**: the first unknown name that the configuration uses is reported. -/
theorem parserTable_eq_error_iff (hknown : known.Ready) :
    config.parserTable known = .error error ↔
      (config.used.find? known.lacks).map .unknownLanguage = some error := by
  rw [used, List.find?_append, ← find?_named hknown]
  refine bind_eq_error_iff.trans ?_
  rw [foldlM_addLanguage_eq_error_iff hknown]
  cases hfind : (config.named known).find? known.lacks with
  | some name =>
    rw [Option.some_or]
    refine or_iff_left ?_
    rintro ⟨table, htable, -⟩
    rw [(foldlM_addLanguage_eq_error_iff hknown).mpr (congrArg _ hfind)] at htable
    cases htable
  | none =>
    obtain ⟨table, htable⟩ := exists_foldlM_addLanguage hknown hfind
    rw [Option.none_or, Option.map_none, htable]
    -- so it is up to the fallback, if there is one
    cases config.fallback with
    | none =>
      refine ⟨?_, nofun⟩
      rintro (h | ⟨_, -, h⟩)
      · cases h
      · cases h
    | some name =>
      have hparser : languageParser known name = .error error ↔
          known.lacks name = true ∧ .unknownLanguage name = error :=
        languageParser_eq_error_iff hknown
      constructor
      · rintro (h | ⟨_, -, h⟩)
        · cases h
        · rcases bind_eq_error_iff.mp h with h | ⟨_, -, h⟩
          · obtain ⟨hlacks, herror⟩ := hparser.mp h
            rw [Option.toList_some, List.find?_cons_of_pos hlacks, Option.map_some, herror]
          · cases h
      · intro h
        by_cases hlacks : known.lacks name = true
        · rw [Option.toList_some, List.find?_cons_of_pos hlacks, Option.map_some,
            Option.some.injEq] at h
          exact .inr ⟨table, rfl, bind_eq_error_iff.mpr (.inl (hparser.mpr ⟨hlacks, h⟩))⟩
        · rw [Option.toList_some, List.find?_cons_of_neg hlacks] at h
          cases h

/-- **When there is a table**: if each name that the configuration uses stands for a language. -/
theorem exists_parserTable_iff (hknown : known.Ready) :
    (∃ table, config.parserTable known = .ok table) ↔
      ∀ name ∈ config.used, (known.canonical? name).isSome = true := by
  have hlacks : (∀ name ∈ config.used, (known.canonical? name).isSome = true) ↔
      config.used.find? known.lacks = none := by
    simp [List.find?_eq_none, lacks, Option.isSome_iff_ne_none]
  rw [hlacks]
  constructor
  · rintro ⟨table, htable⟩
    cases hfind : config.used.find? known.lacks with
    | none => rfl
    | some name =>
      rw [(parserTable_eq_error_iff hknown).mpr (congrArg _ hfind)] at htable
      cases htable
  · intro hnone
    cases htable : config.parserTable known with
    | ok table => exact ⟨table, rfl⟩
    | error error =>
      have herror := (parserTable_eq_error_iff hknown).mp htable
      rw [hnone] at herror
      cases herror

/-! ### What is in a table -/

/-- The parser of a table that is under a key other than that of the fallback is the one for the
    language of the key. -/
theorem parser_parserTable {parser : Parser} (h : config.parserTable known = .ok table)
    (hkey : key ≠ fallbackKey) (hparser : table.parsers[key]? = some parser) :
    ∃ p, known.parser key = .ok p ∧ p.toParser = parser := by
  obtain ⟨named, hnamed, hrest⟩ := bind_eq_ok_iff.mp h
  have hgenuine : named.Genuine known := genuine_foldlM (fun _ _ h => by simp at h) hnamed
  cases hfallback : config.fallback with
  | none =>
    simp only [hfallback] at hrest
    cases hrest
    exact hgenuine key parser hparser
  | some name =>
    simp only [hfallback] at hrest
    obtain ⟨⟨canonical, other⟩, -, hwith⟩ := bind_eq_ok_iff.mp hrest
    cases hwith
    rw [ParserTable.withFallback, ParserTable.getElem?_insert, if_neg hkey] at hparser
    exact hgenuine key parser hparser

/-- The parser under the key of the fallback is the one for the fallback. -/
theorem parser_fallback (h : config.parserTable known = .ok table)
    (hfallback : config.fallback = some name) :
    ∃ p, known.parser name = .ok p ∧ table.parsers[fallbackKey]? = some p.toParser := by
  obtain ⟨named, -, hrest⟩ := bind_eq_ok_iff.mp h
  simp only [hfallback] at hrest
  obtain ⟨⟨canonical, parser⟩, hparser, hwith⟩ := bind_eq_ok_iff.mp hrest
  cases hwith
  obtain ⟨p, hp, rfl⟩ := (languageParser_eq_ok_iff.mp hparser).2
  exact ⟨p, hp, by rw [ParserTable.withFallback, ParserTable.getElem?_insert, if_pos rfl]⟩

/-- Each language that is filed is known. -/
theorem isSome_of_mem_named (hknown : known.Ready) (h : config.parserTable known = .ok table)
    (hname : name ∈ config.named known) : (known.canonical? name).isSome = true := by
  rw [named] at hname
  split at hname
  · rw [hknown.named name (Std.ExtTreeMap.mem_keys.mp hname)]
    rfl
  · exact (exists_parserTable_iff hknown).mp ⟨table, h⟩ name (List.mem_append_left _ hname)

/-- **What the keys are**: those under which a language is filed that the configuration names, and
    that of the fallback if there is one. -/
theorem mem_parserTable_iff (hknown : known.Ready) (h : config.parserTable known = .ok table) :
    key ∈ table.parsers ↔
      (∃ name ∈ config.named known, known.Files name key) ∨
        (key = fallbackKey ∧ config.fallback.isSome = true) := by
  have hkey : key ∈ table.parsers ↔ (config.filed? known key).isSome = true := by
    rw [← language_parserTable h, ParserTable.language?, Option.isSome_map,
      Std.ExtTreeMap.isSome_getElem?_iff_mem]
  rw [hkey, filed?]
  by_cases hfallback : key = fallbackKey ∧ config.fallback.isSome = true
  · obtain ⟨name, hname⟩ := Option.isSome_iff_exists.mp hfallback.2
    have hused : name ∈ config.used :=
      List.mem_append_right _ (Option.mem_toList.mpr hname)
    rw [if_pos hfallback, hname, Option.bind_some]
    exact iff_of_true ((exists_parserTable_iff hknown).mp ⟨table, h⟩ name hused)
      (.inr ⟨hfallback.1, rfl⟩)
  · rw [if_neg hfallback, or_iff_left hfallback]
    by_cases hfiles : ∃ name ∈ config.named known, known.Files name key
    · rw [if_pos hfiles]
      refine iff_of_true ?_ hfiles
      obtain ⟨name, hname, rfl | hcanonical⟩ := hfiles
      · exact isSome_of_mem_named hknown h hname
      · rw [canonical?_of_canonical? hcanonical]
        rfl
    · rw [if_neg hfiles]
      exact iff_of_false Bool.false_ne_true hfiles

/-- **When a table is built, and what is in it.**  The configuration names languages in any way.  If
    one of these names stands for no known language, the first such name is reported.  Otherwise
    there is a table.  Under each key other than that of the fallback is the parser of the language
    for which the key stands, and the keys are the names and their canonical names.  Under the key
    of the fallback is its parser, which is found for all other names, or else nothing is. -/
theorem parserTable_filed (config : Config) (known : Languages)
    (hknown : known = .empty ∨
      ∃ grammar : String → Grammar, (∀ name, (grammar name).compiles = true) ∧
        known = .standard grammar) :
    ((∃ table, config.parserTable known = .ok table) ↔
      ∀ name ∈ config.languages ++ config.fallback.toList,
        (known.canonical? name).isSome = true) ∧
    (∀ error, config.parserTable known = .error error ↔
      ∃ name, (config.languages ++ config.fallback.toList).find?
          (fun name => (known.canonical? name).isNone) = some name ∧
        error = .unknownLanguage name) ∧
    ∀ table, config.parserTable known = .ok table →
      (∀ key parser, key ≠ fallbackKey → table.parsers[key]? = some parser →
        known.canonical? key = some parser.language ∧
          ∃ p, known.parser key = .ok p ∧ parser = p.toParser) ∧
      (∀ key, key ∈ table.parsers ↔
        key ∈ config.named known ∨
          (∃ name ∈ config.named known, known.canonical? name = some key) ∨
          (key = fallbackKey ∧ config.fallback.isSome = true)) ∧
      (∀ name, config.fallback = some name →
        ∃ parser, table.parsers[fallbackKey]? = some parser ∧
          known.canonical? name = some parser.language ∧
          ∃ p, known.parser name = .ok p ∧ parser = p.toParser) ∧
      (config.fallback = none → table.parsers[fallbackKey]? = none) ∧
      ∀ key, key ∉ table.parsers → table.find? key = table.parsers[fallbackKey]? := by
  have hready : known.Ready := by
    rcases hknown with rfl | ⟨grammar, hgrammar, rfl⟩
    · exact ready_empty
    · exact ready_standard hgrammar
  refine ⟨exists_parserTable_iff hready, fun error => ?_, fun table h =>
    ⟨fun key parser hkey hparser => ⟨?_, ?_⟩, fun key => ?_, fun name hname => ?_, fun hnone => ?_,
      fun key hkey => ?_⟩⟩
  · rw [parserTable_eq_error_iff hready, Option.map_eq_some_iff]
    exact exists_congr fun name => and_congr_right' eq_comm
  · have hlanguage : table.language? key = some parser.language := by
      rw [ParserTable.language?, hparser, Option.map_some]
    rw [language_parserTable h, filed?, if_neg fun hfallback => hkey hfallback.1] at hlanguage
    split at hlanguage
    · exact hlanguage
    · cases hlanguage
  · obtain ⟨p, hp, hparser⟩ := parser_parserTable h hkey hparser
    exact ⟨p, hp, hparser.symm⟩
  · have hfiles : (∃ name ∈ config.named known, known.Files name key) ↔
        key ∈ config.named known ∨
          ∃ name ∈ config.named known, known.canonical? name = some key := by
      simp only [Files, and_or_left, exists_or, exists_eq_right']
    rw [mem_parserTable_iff hready h, hfiles, or_assoc]
  · obtain ⟨p, hp, hparser⟩ := parser_fallback h hname
    have hlanguage : table.language? fallbackKey = some p.toParser.language := by
      rw [ParserTable.language?, hparser, Option.map_some]
    rw [language_parserTable h, filed?_fallbackKey hready.free, hname, Option.bind_some]
      at hlanguage
    exact ⟨p.toParser, hparser, hlanguage, p, hp, rfl⟩
  · have hlanguage := language_parserTable h fallbackKey
    rw [filed?_fallbackKey hready.free, hnone, Option.bind_none, ParserTable.language?,
      Option.map_eq_none_iff] at hlanguage
    exact hlanguage
  · rw [ParserTable.find?, Std.ExtTreeMap.getElem?_eq_none hkey]
    rfl

/-- A configuration that names one language twice, in capitals with a blank and by an ending, and
    another one as the fallback. -/
def padded : Config :=
  { languages := ["JS ", "mjs"], fallback := some " Json" }

/-- Both names and the canonical one find the parser, other names find the fallback, and a name that
    stands for nothing is reported. -/
theorem parserTable_filed_padded :
    (∃ table, padded.parserTable silentLanguages = .ok table ∧
      (∀ key ∈ ["JS ", "mjs", "javascript"], ∃ parser, table.parsers[key]? = some parser ∧
        parser.language = "javascript") ∧
      (table.find? "js").map (·.language) = some "json") ∧
    ({ padded with fallback := some "cobol" } : Config).parserTable silentLanguages =
      .error (.unknownLanguage "cobol") := by
  have hknown : silentLanguages = .empty ∨ ∃ grammar : String → Grammar,
      (∀ name, (grammar name).compiles = true) ∧ silentLanguages = .standard grammar :=
    .inr ⟨_, fun _ => rfl, rfl⟩
  obtain ⟨htable, -, hin⟩ := parserTable_filed padded silentLanguages hknown
  obtain ⟨-, herror, -⟩ :=
    parserTable_filed { padded with fallback := some "cobol" } silentLanguages hknown
  have hnames : ∀ name ∈ ["JS ", "mjs", "javascript"],
      silentLanguages.canonical? name = some "javascript" := by decide +kernel
  have hfallback : silentLanguages.canonical? " Json" = some "json" := by decide +kernel
  obtain ⟨table, h⟩ := htable.mpr (by decide +kernel)
  obtain ⟨hparsers, hkeys, hjson, -, hother⟩ := hin table h
  refine ⟨⟨table, h, fun key hkey => ?_, ?_⟩, (herror _).mpr ⟨"cobol", by decide +kernel, rfl⟩⟩
  · have hne : key ≠ fallbackKey := by
      rintro rfl
      exact absurd hkey (by decide)
    have hmem : key ∈ table.parsers := by
      rw [hkeys]
      have hcases : key ∈ ["JS ", "mjs"] ∨ key = "javascript" := by simpa [or_assoc] using hkey
      rcases hcases with hnamed | rfl
      · exact .inl hnamed
      · exact .inr (.inl ⟨"JS ", by decide, hnames _ (by decide)⟩)
    obtain ⟨parser, hparser⟩ := Option.isSome_iff_exists.mp
      (Std.ExtTreeMap.isSome_getElem?_iff_mem.mpr hmem)
    obtain ⟨hlanguage, -⟩ := hparsers key parser hne hparser
    exact ⟨parser, hparser, Option.some.inj (hlanguage.symm.trans (hnames key hkey))⟩
  · obtain ⟨parser, hparser, hlanguage, -⟩ := hjson " Json" rfl
    have hfree : "js" ∉ table.parsers := by
      rw [hkeys]
      decide +kernel
    rw [hother "js" hfree, hparser, Option.map_some, ← hlanguage, hfallback]

end Config

end CodeOverlay
