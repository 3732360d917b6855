import CodeOverlay.Syntax.Grammar

namespace CodeOverlay

/-!
# Parsers

* `Parser` — whatever parses texts of a language, possibly starting from an earlier tree;
* `GrammarParser` — the parser for a language given by its grammars;
* `GrammarParser.seed?` — the earlier tree that a parse starts from;
* `GrammarParser.parse` — the primary layer, then the inline layer over its hosts.
-/

/-- A parser for one language. -/
structure Parser where
  /-- The language of the parser. -/
  language : String
  /-- Parses a text.  An earlier tree is given to save work. -/
  parse : (text : String) → (prior : Option SyntaxTree) → Except ParserError SyntaxTree

/-- A parser for a language that is given by its grammars. -/
structure GrammarParser where
  /-- The name under which the parser reports its language. -/
  language : String
  /-- The grammars. -/
  grammars : LanguageGrammars

namespace GrammarParser

/-- The parser for a language, provided that its queries compile. -/
def ofGrammars (language : String) (grammars : LanguageGrammars) :
    Except ParserError GrammarParser :=
  if grammars.primary.compiles && grammars.inline.all (·.grammar.compiles) then
    .ok ⟨language, grammars⟩
  else .error (.badQuery language)

/-- The tree that a parse of `text` starts from.  A tree of another language is of no use, and
    one of another text is told about the difference first. -/
def seed? (p : GrammarParser) (text : String) (prior : Option SyntaxTree) : Option SyntaxTree :=
  (prior.filter (·.language == p.language)).map fun tree =>
    if tree.source = text then tree else tree.seedFor text

/-- Lets a grammar parse, with its failure reported for the language. -/
def layer (p : GrammarParser) (grammar : Grammar) (text : String) (ranges : List ByteRange)
    (prior : Option Layer) : Except ParserError Layer :=
  match grammar.parse text ranges prior with
  | some layer => .ok layer
  | none => .error (.gaveUp p.language)

/-- The inline layer over a primary one, if the language has any and there is a host for it.
    Without a host the grammar is not asked, since no ranges would stand for the whole
    text. -/
def inlineLayer (p : GrammarParser) (text : String) (primary : Layer) (prior : Option Layer) :
    Except ParserError (Option Layer) :=
  match p.grammars.inline with
  | none => .ok none
  | some second =>
    match primary.root.hosts second.host with
    | [] => .ok none
    | ranges => (p.layer second.grammar text ranges prior).map some

/-- Parses a text, starting from an earlier tree if it is of use. -/
def parse (p : GrammarParser) (text : String) (prior : Option SyntaxTree) :
    Except ParserError SyntaxTree := do
  let seed := p.seed? text prior
  let primary ← p.layer p.grammars.primary text [] (seed.map (·.primary))
  let inline ← p.inlineLayer text primary (seed.bind (·.inline))
  return { language := p.language, source := text, primary, inline }

/-- The parser, with its grammars out of sight. -/
def toParser (p : GrammarParser) : Parser :=
  ⟨p.language, p.parse⟩

/-- The outline of a parser. -/
def describe (p : GrammarParser) : Text.Description :=
  .record "TreeSitterParser"
    [("language", .text p.language), ("inline", .ofBool p.grammars.inline.isSome)]

end GrammarParser

end CodeOverlay
