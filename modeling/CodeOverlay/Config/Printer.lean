import CodeOverlay.Config.Basic
import CodeOverlay.Json.Text

namespace CodeOverlay.Config

/-!
# Written configurations

A configuration is written as an object with one member for each of its parts.

* `hintNames`, `policyNames` — how the alternatives are named;
* `Config.render` — a configuration as it is written, on one line and without blanks.
-/

open Json (writeText)

/-- The names of the kinds of hints. -/
def hintNames : List (String × (String → LanguageHint)) :=
  [("attr", .attribute), ("first_token", .firstWord)]

/-- The names of what may be kept. -/
def policyNames : List (String × KeepPolicy) :=
  [("parse_state", .tree), ("ranges", .strokes), ("both", .both)]

/-- Written items as a list. -/
def writeList (items : List String) : String :=
  "[" ++ ",".intercalate items ++ "]"

/-- Written members as an object. -/
def writeObject (members : List (String × String)) : String :=
  "\x7b" ++ ",".intercalate (members.map fun (name, value) => writeText name ++ ":" ++ value) ++
    "\x7d"

/-- A hint as it is written: its kind and the attribute it looks at. -/
def writeHint (hint : LanguageHint) : String :=
  let (kind, name) :=
    match hint with
    | .attribute name => ("attr", name)
    | .firstWord name => ("first_token", name)
  writeObject [("kind", writeText kind), ("attr", writeText name)]

/-- What is kept, as it is written. -/
def writePolicy : KeepPolicy → String
  | .tree => writeText "parse_state"
  | .strokes => writeText "ranges"
  | .both => writeText "both"

/-- The members of a written configuration. -/
def members (config : Config) : List (String × String) :=
  [("target_types", writeList (config.kinds.map writeText)),
   ("language_sources", writeList (config.hints.map writeHint)),
   ("languages", writeList (config.languages.map writeText)),
   ("fallback_language", (config.fallback.map writeText).getD "null"),
   ("artifact_policy", writePolicy config.policy)]

/-- A configuration as it is written. -/
def render (config : Config) : String :=
  writeObject config.members

end CodeOverlay.Config
