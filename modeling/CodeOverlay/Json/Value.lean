import CodeOverlay.Json.Number

namespace CodeOverlay.Json

/-!
# Written values

* `skipBlanks`, `expect`, `expectWord` — what stands between and around values;
* `nextItem`, `readItems` — the items of a list;
* `readMembers` — the members of an object;
* `Care`, `skipValue` — passes over any value;
* `refuse` — the problem of a value that is not what is wanted.
-/

variable {α β : Type}

/-! ### Between values -/

/-- The four characters that may stand between values. -/
def isBlank (c : Char) : Bool :=
  c == ' ' || c == '\n' || c == '\t' || c == '\r'

/-- What is left after blanks. -/
def skipBlanks (cs : List Char) : List Char :=
  cs.dropWhile isBlank

/-- Reads a mark after blanks. -/
def expect (mark : Char) (cs : List Char) : Except Problem (List Char) :=
  match skipBlanks cs with
  | [] => .error .unfinished
  | c :: rest => if c = mark then .ok rest else .error .malformed

/-- Reads the remaining letters of a word. -/
def expectWord : List Char → List Char → Except Problem (List Char)
  | [], cs => .ok cs
  | _ :: _, [] => .error .unfinished
  | w :: word, c :: cs => if c = w then expectWord word cs else .error .malformed

/-- The remaining letters of the word that starts with the given one, if there is such a
    word. -/
def wordRest? (c : Char) : Option (List Char) :=
  if c = 'n' then some ['u', 'l', 'l']
  else if c = 't' then some ['r', 'u', 'e']
  else if c = 'f' then some ['a', 'l', 's', 'e']
  else none

/-! ### Lists -/

/-- What is left before the next item of a list, or `none` if the list ends here; its closing
    bracket is not taken.  Between two items there is a comma, and none after the last. -/
def nextItem (first : Bool) (cs : List Char) : Except Problem (Option (List Char)) :=
  match skipBlanks cs with
  | [] => .error .unfinished
  | c :: rest =>
    if c = ']' then .ok none
    else if first then .ok (some (c :: rest))
    else if c = ',' then
      match skipBlanks rest with
      | [] => .error .unfinished
      | d :: rest => if d = ']' then .error .malformed else .ok (some (d :: rest))
    else .error .malformed

/-- Reads the items of a list after its opening bracket.  Each step takes a character at
    least. -/
def readItemsIn (read : β → List Char → Except Problem (β × List Char)) :
    Nat → Bool → β → List Char → Except Problem (β × List Char)
  | 0, _, _, _ => .error .unfinished
  | steps + 1, first, acc, cs =>
    match nextItem first cs with
    | .error e => .error e
    | .ok none => (expect ']' cs).map fun rest => (acc, rest)
    | .ok (some cs) =>
      match read acc cs with
      | .error e => .error e
      | .ok (acc, rest) => readItemsIn read steps false acc rest

/-- Reads the items of a list after its opening bracket, each of them together with what the
    items before it came to. -/
def readItems (read : β → List Char → Except Problem (β × List Char)) (start : β)
    (cs : List Char) : Except Problem (β × List Char) :=
  readItemsIn read (cs.length + 1) true start cs

/-! ### Objects -/

/-- What is left after the quote that opens the next name of an object, or `none` if the object
    ends here; its closing brace is not taken. -/
def nextName (first : Bool) (cs : List Char) : Except Problem (Option (List Char)) :=
  match skipBlanks cs with
  | [] => .error .unfinished
  | c :: rest =>
    if c = '}' then .ok none
    else if first then if c = '"' then .ok (some rest) else .error .malformed
    else if c = ',' then (expect '"' rest).map some
    else .error .malformed

/-- Reads the members of an object after its opening brace.  Each step takes a character at
    least. -/
def readMembersIn (halves : Bool)
    (read : β → String → List Char → Except Problem (β × List Char)) :
    Nat → Bool → β → List Char → Except Problem (β × List Char)
  | 0, _, _, _ => .error .unfinished
  | steps + 1, first, acc, cs =>
    match nextName first cs with
    | .error e => .error e
    | .ok none => (expect '}' cs).map fun rest => (acc, rest)
    | .ok (some cs) =>
      match readText halves cs with
      | .error e => .error e
      | .ok (name, cs) =>
        match read acc name cs with
        | .error e => .error e
        | .ok (acc, rest) => readMembersIn halves read steps false acc rest

/-- Reads the members of an object after its opening brace.  Of each member `read` gets the
    name, what the members before it came to, and what is left before the colon. -/
def readMembers (halves : Bool)
    (read : β → String → List Char → Except Problem (β × List Char))
    (start : β) (cs : List Char) : Except Problem (β × List Char) :=
  readMembersIn halves read (cs.length + 1) true start cs

/-! ### Any value -/

/-- How carefully a value is passed over. -/
inductive Care where
  /-- The value is of no interest: halves of characters need no partner, and numbers may be of
      any size. -/
  | little
  /-- The value may yet be used.  It may not be nested deeper than `depth`. -/
  | full (depth : Nat)
deriving DecidableEq, Repr

namespace Care

/-- Whether halves of characters have to come in pairs. -/
def halves : Care → Bool
  | .little => false
  | .full _ => true

/-- The problem of a number that ends where a digit is missing. -/
def numberEnd : Care → Problem
  | .little => .malformed
  | .full _ => .unfinished

/-- The care inside a bracket, unless that is too deep. -/
def enter : Care → Except Problem Care
  | .little => .ok .little
  | .full 0 => .error .malformed
  | .full (depth + 1) => .ok (.full depth)

end Care

/-- Passes over a number after its sign. -/
def skipNumber (care : Care) (cs : List Char) : Except Problem (List Char) :=
  match readDecimal care.numberEnd cs with
  | .error e => .error e
  | .ok (d, rest) => if care.halves && !d.isFinite then .error .malformed else .ok rest

/-- Passes over a value that starts with `c` and is neither a list nor an object. -/
def skipScalar (care : Care) (c : Char) (rest : List Char) : Except Problem (List Char) :=
  match wordRest? c with
  | some word => expectWord word rest
  | none =>
    if c = '-' then skipNumber care rest
    else if c.isDigit then skipNumber care (c :: rest)
    else if c = '"' then (readText care.halves rest).map (·.2)
    else .error .malformed

/-- Passes over a value that is nested less than `levels` deep. -/
def skipWithin : Nat → Care → List Char → Except Problem (List Char)
  | 0, _, _ => .error .unfinished
  | levels + 1, care, cs =>
    match skipBlanks cs with
    | [] => .error .unfinished
    | c :: rest =>
      if c = '[' then
        match care.enter with
        | .error e => .error e
        | .ok inner =>
          (readItems (fun _ cs => (skipWithin levels inner cs).map ((), ·)) () rest).map (·.2)
      else if c = '{' then
        match care.enter with
        | .error e => .error e
        | .ok inner =>
          (readMembers care.halves
            (fun _ _ cs => (expect ':' cs).bind fun cs =>
              (skipWithin levels inner cs).map ((), ·)) () rest).map (·.2)
      else skipScalar care c rest

/-- Passes over a value.  It is not nested deeper than it is long. -/
def skipValue (care : Care) (cs : List Char) : Except Problem (List Char) :=
  skipWithin (cs.length + 1) care cs

/-- The problem of a value that is not what is wanted.  Lists and objects are refused unread,
    while anything else has to be well written first. -/
def refuse (cs : List Char) : Problem :=
  match skipBlanks cs with
  | [] => .unfinished
  | c :: rest =>
    if c = '[' ∨ c = '{' then .unfit
    else
      match skipScalar (.full 0) c rest with
      | .error e => e
      | .ok _ => .unfit

/-- Reads a value that is a text. -/
def readString (cs : List Char) : Except Problem (String × List Char) :=
  match skipBlanks cs with
  | '"' :: rest => readText true rest
  | cs => .error (refuse cs)

end CodeOverlay.Json
