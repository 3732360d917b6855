import CodeOverlay.Syntax.Tree

namespace CodeOverlay

/-!
# Grammars and languages

The grammars themselves are given from outside: all that is known of a grammar is what it
answers for a text.

* `Grammar` — a grammar with the query that names what is to be highlighted;
* `LanguageGrammars` — the grammar of a language, and the one for its inline layer if it has
  any;
* `ParserError` — why a parser cannot be built or cannot parse.
-/

/-- A grammar together with its highlight query. -/
structure Grammar where
  /-- Whether the query is one for this grammar. -/
  compiles : Bool := true
  /-- Parses the given ranges of a text, or all of it if there are none, starting from an
      earlier layer if one is given.  A grammar may give up. -/
  parse : (text : String) → (ranges : List ByteRange) → (prior : Option Layer) → Option Layer

/-- A second grammar, for ranges found by the first. -/
structure InlineGrammar where
  /-- The grammar of the ranges. -/
  grammar : Grammar
  /-- The kind of the nodes whose ranges it parses. -/
  host : String

/-- The grammars of a language. -/
structure LanguageGrammars where
  /-- The grammar for the whole text. -/
  primary : Grammar
  /-- The grammar for parts of it. -/
  inline : Option InlineGrammar := none

/-- Why a parser cannot be built or cannot parse.  Grammars are taken to be ones that load, and the
    ranges of hosts, which are in order and apart, to be ones that a grammar accepts. -/
inductive ParserError where
  /-- A highlight query of the language is not one for its grammar. -/
  | badQuery (language : String)
  /-- A grammar of the language gave up. -/
  | gaveUp (language : String)
  /-- No language goes by this name. -/
  | unknown (name : String)
deriving DecidableEq, Repr

/-- The text shown for a parser that cannot be built or cannot parse. -/
def ParserError.message : ParserError → String
  | .badQuery language => s!"highlight query for {language} failed to compile"
  | .gaveUp language => s!"parser for {language} produced no tree"
  | .unknown name => s!"unknown language: {name}"

end CodeOverlay
