import CodeOverlay.Overlay.Pass
import CodeOverlay.Syntax.Languages

namespace CodeOverlay

/-!
# Configured overlays

Most overlays need no code of the host: it is enough to say which nodes are highlighted, in
which languages, and what is kept.

* `Config` — such a description;
* `Config.parserTable` — the parsers for the languages of a configuration;
* `Config.toOverlay` — the overlay that a configuration describes.
-/

/-- The description of an overlay. -/
structure Config where
  /-- The kinds of nodes that are highlighted. -/
  kinds : List String := ["code_block"]
  /-- Where the language of a node is looked for. -/
  hints : List LanguageHint := LanguageHint.standard
  /-- The languages for which there are parsers; if none is named, all known languages. -/
  languages : List String := []
  /-- The language of nodes for whose language there is no parser. -/
  fallback : Option String := none
  /-- What is kept for later passes. -/
  policy : KeepPolicy := .both
deriving DecidableEq, Repr

/-- Why there is no overlay for a configuration. -/
inductive ConfigError where
  /-- A parser cannot be built. -/
  | parser (error : ParserError)
  /-- A configured language is not known. -/
  | unknownLanguage (name : String)
deriving DecidableEq, Repr

/-- The text shown when there is no overlay for a configuration. -/
def ConfigError.message : ConfigError → String
  | .parser error => error.message
  | .unknownLanguage name =>
    "configured language " ++ Text.quoted name ++ " is not in the language registry"

namespace Config

/-- The canonical name of a configured language and its parser. -/
def languageParser (known : Languages) (name : String) :
    Except ConfigError (String × Parser) :=
  match known.canonical? name with
  | none => .error (.unknownLanguage name)
  | some canonical =>
    match known.parser canonical with
    | .error error => .error (.parser error)
    | .ok parser => .ok (canonical, parser.toParser)

/-- Puts the parser of a configured language into a table, under its canonical name and as the
    configuration names it. -/
def addLanguage (known : Languages) (table : ParserTable) (name : String) :
    Except ConfigError ParserTable :=
  (languageParser known name).map fun (canonical, parser) =>
    let table := table.insert canonical parser
    if name = canonical then table else table.insert name parser

/-- The names of the languages for which there are parsers. -/
def named (config : Config) (known : Languages) : List String :=
  if config.languages.isEmpty then known.names else config.languages

/-- The parsers for the languages of a configuration, and the fallback if it names one. -/
def parserTable (config : Config) (known : Languages) :
    Except ConfigError ParserTable := do
  let table ← (config.named known).foldlM (addLanguage known) {}
  match config.fallback with
  | none => return table
  | some name =>
    let (_, parser) ← languageParser known name
    return table.withFallback parser

/-- The overlay that a configuration describes. -/
def toOverlay (config : Config) (known : Languages) : Except ConfigError Overlay :=
  (config.parserTable known).map fun parsers =>
    { parsers
      kinds := Std.ExtTreeSet.ofList config.kinds
      rule := some (.hints config.hints)
      policy := config.policy }

end Config

end CodeOverlay
