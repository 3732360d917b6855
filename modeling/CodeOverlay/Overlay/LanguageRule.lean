import CodeOverlay.Document.Node
import CodeOverlay.Text.Blank
import CodeOverlay.Text.Description

namespace CodeOverlay

/-!
# The language of a node

A node says its language in its attributes: a language found by inspecting the code, or the
first word of the line that opens a block of code.

* `LanguageHint` — one place to look for the language;
* `LanguageRule` — how the language of a node is found;
* `LanguageRule.key` — the key under which a parser for the node is looked up.
-/

/-- The key of the parser for all nodes that no other parser is for. -/
def fallbackKey : String := "*"

/-- A place to look for the language of a node. -/
inductive LanguageHint where
  /-- The whole value of an attribute. -/
  | attribute (name : String)
  /-- The first word of the value of an attribute. -/
  | firstWord (name : String)
deriving DecidableEq, Repr

namespace LanguageHint

/-- The language that the hint gives for a node.  A blank attribute gives none. -/
def language? (n : Node) : LanguageHint → Option String
  | .attribute name => ((n.attr? name).map Text.trim).filter (· ≠ "")
  | .firstWord name => (n.attr? name).bind Text.firstWord?

/-- The usual hints: the language found by inspection, then the one the author wrote. -/
def standard : List LanguageHint :=
  [.attribute "detectedHighlightLanguage", .firstWord "params"]

/-- The outline of a hint. -/
def describe : LanguageHint → Text.Description
  | .attribute name => .apply "Attr" [.text name]
  | .firstWord name => .apply "FirstToken" [.text name]

end LanguageHint

/-- How the language of a node is found. -/
inductive LanguageRule where
  /-- By the first of several hints that gives one. -/
  | hints (all : List LanguageHint)
  /-- By a function of the host. -/
  | custom (find : Node → Option String)

namespace LanguageRule

/-- The rule that follows the usual hints. -/
def standard : LanguageRule := .hints LanguageHint.standard

/-- The language of a node, if the rule finds one. -/
def language? (n : Node) : LanguageRule → Option String
  | .hints all => all.findSome? (·.language? n)
  | .custom find => (find n).filter (· ≠ "")

/-- The key under which a parser for the node is looked up. -/
def key (rule : LanguageRule) (n : Node) : String :=
  (rule.language? n).getD fallbackKey

/-- The outline of a rule. -/
def describe : LanguageRule → Text.Description
  | .hints all => .apply "Strategies" [.list (all.map (·.describe))]
  | .custom _ => .word "Custom(..)"

end LanguageRule

end CodeOverlay
