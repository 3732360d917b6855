import Std.Data.ExtTreeMap
import CodeOverlay.Syntax.Parser
import CodeOverlay.Text.Blank

namespace CodeOverlay

/-!
# Known languages

A document names the language of its code the way people do: by the usual name, by a short
form or by the ending of a file's name, in small or capital letters.

* `Languages` — the known languages by canonical name;
* `Languages.canonical?` — the canonical name of what a document says;
* `Languages.parser` — the parser for a named language;
* `Languages.standard` — the fourteen usual languages.
-/

/-- The known languages. -/
structure Languages where
  /-- The grammars of each language, by its canonical name. -/
  grammars : Std.ExtTreeMap String LanguageGrammars := ∅

/-- Other names of languages, each with the canonical one. -/
def languageAliases : List (String × String) :=
  [("rs", "rust"), ("py", "python"), ("js", "javascript"), ("jsx", "javascript"),
   ("mjs", "javascript"), ("ts", "typescript"), ("sh", "bash"), ("shell", "bash"),
   ("zsh", "bash"), ("c++", "cpp"), ("cc", "cpp"), ("cxx", "cpp"), ("hpp", "cpp"), ("h", "cpp"),
   ("golang", "go"), ("md", "markdown"), ("htm", "html")]

/-- The small form of a letter, as far as it can be part of a language's name: of the letters
    outside ASCII, only the Kelvin sign has a small form inside. -/
def smallLetter (c : Char) : Char :=
  if c = '\u212A' then 'k' else c.toLower

/-- A language's name without blanks around it, in small letters, and with other names replaced
    by the canonical one. -/
def normalLanguageName (name : String) : String :=
  let plain := String.ofList ((Text.trim name).toList.map smallLetter)
  (languageAliases.lookup plain).getD plain

namespace Languages

/-- No known language. -/
def empty : Languages := {}

/-- The canonical name of the language that `name` stands for, if it is known. -/
def canonical? (known : Languages) (name : String) : Option String :=
  let canonical := normalLanguageName name
  if canonical ∈ known.grammars then some canonical else none

/-- The grammars of the language that `name` stands for, if it is known. -/
def grammars? (known : Languages) (name : String) : Option LanguageGrammars :=
  (known.canonical? name).bind (known.grammars[·]?)

/-- The canonical names in alphabetical order. -/
def names (known : Languages) : List String :=
  known.grammars.keys

/-- The parser for the language that `name` stands for. -/
def parser (known : Languages) (name : String) : Except ParserError GrammarParser :=
  match known.canonical? name, known.grammars? name with
  | some canonical, some grammars => GrammarParser.ofGrammars canonical grammars
  | _, _ => .error (.unknown name)

/-! ### The usual languages -/

/-- The usual languages with a single grammar. -/
def plainLanguages : List String :=
  ["bash", "c", "cpp", "css", "go", "html", "javascript", "json", "python", "rust", "toml",
   "tsx", "typescript"]

/-- The usual languages, with the grammars that `grammar` gives for their names.  Markdown has
    a second grammar, for the text of its paragraphs and headings. -/
def standard (grammar : String → Grammar) : Languages where
  grammars :=
    (plainLanguages.foldl (fun known name => known.insert name { primary := grammar name })
      (∅ : Std.ExtTreeMap String LanguageGrammars)).insert "markdown"
        { primary := grammar "markdown"
          inline := some { grammar := grammar "markdown_inline", host := "inline" } }

end Languages

end CodeOverlay
