import Std.Data.ExtTreeMap

namespace CodeOverlay

/-!
# Styles of captures

The name of a capture says what it is, and a style says how that is painted.  Names are dotted,
the more special part last: what has no style of its own has that of the more general name.

* `Styling` — whatever gives names their styles;
* `dottedPrefixes` — a name and the more general ones, the most special first;
* `StyleTable` — styles given by a table;
* `StyleTable.standard` — the usual table.
-/

/-- Gives the style for the name of a capture, or `none` to leave the capture unstyled.  A style
    is written as one class or more, separated by blanks. -/
abbrev Styling := String → Option String

/-- The proper beginnings of a name that end just before a dot, the longest first. -/
def properPrefixes : List Char → List (List Char)
  | [] => []
  | c :: cs => (properPrefixes cs).map (c :: ·) ++ if c = '.' then [[]] else []

/-- A name and its beginnings that end just before a dot, the longest first. -/
def dottedPrefixes (name : String) : List String :=
  name :: (properPrefixes name.toList).map String.ofList

/-- Styles by name. -/
structure StyleTable where
  /-- The style given to each name. -/
  styles : Std.ExtTreeMap String String := ∅

namespace StyleTable

/-- The table without any name. -/
def empty : StyleTable := {}

/-- The table with the style of a name set to `style`. -/
def set (table : StyleTable) (name style : String) : StyleTable :=
  ⟨table.styles.insert name style⟩

/-- The style for a name: that of the longest of its dotted beginnings in the table. -/
def styleOf? (table : StyleTable) : Styling := fun name =>
  (dottedPrefixes name).findSome? (table.styles[·]?)

/-- The names of the usual table with their styles. -/
def standardStyles : List (String × String) :=
  [("keyword", "tok-keyword"),
   ("conditional", "tok-keyword"),
   ("repeat", "tok-keyword"),
   ("include", "tok-keyword"),
   -- functions
   ("function", "tok-function"),
   ("function.macro", "tok-macroName"),
   ("constructor", "tok-className"),
   -- types
   ("type", "tok-typeName"),
   ("type.builtin", "tok-typeName tok-standard"),
   -- strings
   ("string", "tok-string"),
   ("string.special", "tok-string2"),
   ("string.escape", "tok-string2"),
   ("escape", "tok-string2"),
   ("character", "tok-string"),
   -- constants
   ("constant", "tok-atom"),
   ("constant.builtin", "tok-bool"),
   ("boolean", "tok-bool"),
   ("number", "tok-number"),
   ("float", "tok-number"),
   -- comments
   ("comment", "tok-comment"),
   -- variables and properties
   ("variable", "tok-variableName"),
   ("variable.builtin", "tok-variableName tok-standard"),
   ("variable.parameter", "tok-variableName tok-definition"),
   ("property", "tok-propertyName"),
   ("label", "tok-labelName"),
   ("namespace", "tok-namespace"),
   ("module", "tok-namespace"),
   ("tag", "tok-typeName"),
   ("attribute", "tok-meta"),
   -- punctuation
   ("punctuation", "tok-punctuation"),
   ("operator", "tok-operator"),
   -- markup
   ("text.title", "tok-heading"),
   ("text.literal", "tok-literal"),
   ("text.uri", "tok-url"),
   ("text.reference", "tok-link"),
   ("text.emphasis", "tok-emphasis"),
   ("text.strong", "tok-strong")]

/-- The usual table. -/
def standard : StyleTable :=
  standardStyles.foldl (fun table (name, style) => table.set name style) empty

end StyleTable

end CodeOverlay
