import CodeOverlay.Config.Printer
import CodeOverlay.Json.Value

namespace CodeOverlay.Config

/-!
# Reading configurations

A configuration is an object whose members may come in any order and may be missing, or a list
of their values in the order in which they are written.  Members of other names are passed
over, but no member may be given twice.

* `readNamed`, `readVariant` — one of several named alternatives;
* `HintDraft`, `readHint` — where the language of a node is looked for;
* `Draft`, `readMember` — the members of a configuration;
* `Config.ofJson` — a configuration as it is written.

Reading ends at the first problem from the left.
-/

open Json

variable {α : Type}

/-! ### Parts -/

/-- The problem of a name that is none of the alternatives. -/
def chooseNamed (names : List (String × α)) (name : String) : Except Problem α :=
  match names.lookup name with
  | some a => .ok a
  | none => .error .unfit

/-- Reads the word for nothing. -/
def readNull (cs : List Char) : Except Problem (List Char) :=
  match skipBlanks cs with
  | 'n' :: rest => expectWord ['u', 'l', 'l'] rest
  | cs => .error (refuse cs)

/-- Reads the name of one of several alternatives. -/
def readNamed (names : List (String × α)) (cs : List Char) : Except Problem (α × List Char) := do
  let (name, rest) ← readString cs
  return (← chooseNamed names name, rest)

/-- Reads one of several alternatives: its name, or an object with that name and nothing to
    it. -/
def readVariant (names : List (String × α)) (cs : List Char) : Except Problem (α × List Char) :=
  match skipBlanks cs with
  | [] => .error .unfinished
  | '"' :: rest => do
    let (name, rest) ← readText true rest
    return (← chooseNamed names name, rest)
  | '\x7b' :: rest => do
    let (name, rest) ← readText true (← expect '"' rest)
    let a ← chooseNamed names name
    let rest ← expect ':' rest
    let rest ← readNull rest
    return (a, ← expect '\x7d' rest)
  | _ => .error .malformed

/-- Reads a list. -/
def readList (item : List Char → Except Problem (α × List Char)) (cs : List Char) :
    Except Problem (List α × List Char) :=
  match skipBlanks cs with
  | '[' :: rest =>
    readItems (fun items cs => (item cs).map fun (a, rest) => (items ++ [a], rest)) [] rest
  | cs => .error (refuse cs)

/-- Reads a text, or the word for nothing. -/
def readOptional (cs : List Char) : Except Problem (Option String × List Char) :=
  match skipBlanks cs with
  | 'n' :: rest => (expectWord ['u', 'l', 'l'] rest).map (none, ·)
  | cs => (readString cs).map fun (text, rest) => (some text, rest)

/-- Passes over a member that has no meaning. -/
def skipMember (cs : List Char) : Except Problem (List Char) :=
  (expect ':' cs).bind (skipValue .little)

/-! ### Hints -/

/-- How many brackets may be open inside the attribute of a hint. -/
def attributeDepth : Nat := 124

/-- What is known of a hint. -/
inductive HintDraft where
  /-- Nothing. -/
  | blank
  /-- Its kind. -/
  | kind (make : String → LanguageHint)
  /-- Its attribute, which may turn out not to be a text. -/
  | attribute (name : Option String)
  /-- All of it. -/
  | complete (hint : LanguageHint)

/-- Reads an attribute while the kind of the hint is not known.  Any value will do for now. -/
def readAttribute (cs : List Char) : Except Problem (Option String × List Char) :=
  match skipBlanks cs with
  | '"' :: rest => (readText true rest).map fun (name, rest) => (some name, rest)
  | cs => (skipValue (.full attributeDepth) cs).map (none, ·)

/-- Reads a member of a hint. -/
def readHintMember (draft : HintDraft) (name : String) (cs : List Char) :
    Except Problem (HintDraft × List Char) :=
  if name = "kind" then
    match draft with
    | .blank => do
      let (make, rest) ← readVariant hintNames (← expect ':' cs)
      return (.kind make, rest)
    | .attribute name => do
      let (make, rest) ← readVariant hintNames (← expect ':' cs)
      match name with
      | some name => return (.complete (make name), rest)
      | none => .error .unfit
    | _ => .error .unfit
  else if name = "attr" then
    match draft with
    | .blank => do
      let (name, rest) ← readAttribute (← expect ':' cs)
      return (.attribute name, rest)
    | .kind make => do
      let (name, rest) ← readString (← expect ':' cs)
      return (.complete (make name), rest)
    | _ => .error .unfit
  else (skipMember cs).map (draft, ·)

/-- Reads a hint given by a list of its kind, which is a plain name here, and its attribute. -/
def readHintItems (cs : List Char) : Except Problem (LanguageHint × List Char) := do
  match ← nextItem true cs with
  | none => .error .unfit
  | some cs =>
    let (make, cs) ← readNamed hintNames cs
    match ← nextItem false cs with
    | none => .error .unfit
    | some cs =>
      let (name, cs) ← readString cs
      return (make name, ← expect ']' cs)

/-- Reads a hint. -/
def readHint (cs : List Char) : Except Problem (LanguageHint × List Char) :=
  match skipBlanks cs with
  | '[' :: rest => readHintItems rest
  | '\x7b' :: rest => do
    match ← readMembers true readHintMember .blank rest with
    | (.complete hint, rest) => return (hint, rest)
    | _ => .error .unfit
  | cs => .error (refuse cs)

/-! ### Configurations -/

/-- What is known of a configuration. -/
structure Draft where
  /-- The kinds of nodes. -/
  kinds : Option (List String) := none
  /-- Where languages are looked for. -/
  hints : Option (List LanguageHint) := none
  /-- The languages. -/
  languages : Option (List String) := none
  /-- The language that stands for others. -/
  fallback : Option (Option String) := none
  /-- What is kept. -/
  policy : Option KeepPolicy := none
deriving DecidableEq, Repr

/-- The configuration in which everything that is not known is as usual. -/
def Draft.complete (draft : Draft) : Config :=
  let usual : Config := {}
  { kinds := draft.kinds.getD usual.kinds
    hints := draft.hints.getD usual.hints
    languages := draft.languages.getD usual.languages
    fallback := draft.fallback.getD usual.fallback
    policy := draft.policy.getD usual.policy }

/-- Reads the value of a member, unless it was given before. -/
def readOnce (known : Option α) (read : List Char → Except Problem (α × List Char))
    (cs : List Char) : Except Problem (α × List Char) :=
  if known.isSome then .error .unfit else (expect ':' cs).bind read

/-- Reads a member of a configuration. -/
def readMember (draft : Draft) (name : String) (cs : List Char) :
    Except Problem (Draft × List Char) :=
  if name = "target_types" then
    (readOnce draft.kinds (readList readString) cs).map fun (kinds, rest) =>
      ({ draft with kinds := some kinds }, rest)
  else if name = "language_sources" then
    (readOnce draft.hints (readList readHint) cs).map fun (hints, rest) =>
      ({ draft with hints := some hints }, rest)
  else if name = "languages" then
    (readOnce draft.languages (readList readString) cs).map fun (languages, rest) =>
      ({ draft with languages := some languages }, rest)
  else if name = "fallback_language" then
    (readOnce draft.fallback readOptional cs).map fun (fallback, rest) =>
      ({ draft with fallback := some fallback }, rest)
  else if name = "artifact_policy" then
    (readOnce draft.policy (readVariant policyNames) cs).map fun (policy, rest) =>
      ({ draft with policy := some policy }, rest)
  else (skipMember cs).map (draft, ·)

/-- Reads the next item of a list, if it does not end here. -/
def readNext (first : Bool) (read : List Char → Except Problem (α × List Char))
    (cs : List Char) : Except Problem (Option α × List Char) := do
  match ← nextItem first cs with
  | none => return (none, cs)
  | some cs => (read cs).map fun (a, rest) => (some a, rest)

/-- Reads a configuration given by a list of its parts, which may end before any of them. -/
def readParts (cs : List Char) : Except Problem (Draft × List Char) := do
  let (kinds, cs) ← readNext true (readList readString) cs
  let (hints, cs) ← readNext false (readList readHint) cs
  let (languages, cs) ← readNext false (readList readString) cs
  let (fallback, cs) ← readNext false readOptional cs
  let (policy, cs) ← readNext false (readVariant policyNames) cs
  return (⟨kinds, hints, languages, fallback, policy⟩, ← expect ']' cs)

/-- Reads a configuration. -/
def readConfig (cs : List Char) : Except Problem (Config × List Char) :=
  match skipBlanks cs with
  | '[' :: rest => (readParts rest).map fun (draft, rest) => (draft.complete, rest)
  | '\x7b' :: rest =>
    (readMembers true readMember {} rest).map fun (draft, rest) => (draft.complete, rest)
  | cs => .error (refuse cs)

/-- The configuration that is written in a text.  Only blanks may follow it. -/
def ofJson (text : String) : Except Problem Config :=
  match readConfig text.toList with
  | .error e => .error e
  | .ok (config, rest) => if skipBlanks rest = [] then .ok config else .error .malformed

end CodeOverlay.Config
