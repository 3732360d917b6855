import Std.Data.ExtTreeMap
import CodeOverlay.Overlay.LanguageRule
import CodeOverlay.Syntax.Parser

namespace CodeOverlay

/-!
# Parsers by language

* `ParserTable` — the parsers of an overlay, by the name of the language they are for;
* `ParserTable.find?` — the parser for a language, or else the fallback;
* `ParserTable.getElem?_insert` — what is in a table after one parser is put into it.
-/

/-- Parsers by the name of the language they are for. -/
structure ParserTable where
  /-- The parsers; the one under `fallbackKey` is for all other languages. -/
  parsers : Std.ExtTreeMap String Parser := ∅

namespace ParserTable

/-- The table with a parser put under `key`, in the place of an earlier one. -/
def insert (table : ParserTable) (key : String) (parser : Parser) : ParserTable :=
  ⟨table.parsers.insert key parser⟩

/-- The table with a parser for all other languages. -/
def withFallback (table : ParserTable) (parser : Parser) : ParserTable :=
  table.insert fallbackKey parser

/-- The parser for a language: the one under this very name, or else the fallback. -/
def find? (table : ParserTable) (language : String) : Option Parser :=
  table.parsers[language]? <|> table.parsers[fallbackKey]?

/-- Whether there is no parser at all. -/
def isEmpty (table : ParserTable) : Bool :=
  table.parsers.isEmpty

/-- The names under which there is a parser, in alphabetical order. -/
def keys (table : ParserTable) : List String :=
  table.parsers.keys

/-- The outline of a table: which parser stands under which name. -/
def describe (table : ParserTable) : Text.Description :=
  .table (table.parsers.toList.map fun (key, parser) => (key, .text parser.language))

/-- What is under a key after a parser is put under another one. -/
theorem getElem?_insert (table : ParserTable) (key other : String) (parser : Parser) :
    (table.insert key parser).parsers[other]? =
      if other = key then some parser else table.parsers[other]? := by
  simp only [insert, Std.ExtTreeMap.getElem?_insert, Std.LawfulEqCmp.compare_eq_iff_eq,
    @eq_comm _ key]

/-- A parser of a table into which one was put is that one, or was there before. -/
theorem eq_or_of_getElem?_insert {table : ParserTable} {key other : String} {parser found : Parser}
    (h : (table.insert key parser).parsers[other]? = some found) :
    found = parser ∨ table.parsers[other]? = some found := by
  rw [getElem?_insert] at h
  by_cases hkey : other = key
  · rw [if_pos hkey, Option.some.injEq] at h
    exact .inl h.symm
  · rw [if_neg hkey] at h
    exact .inr h

end ParserTable

end CodeOverlay
