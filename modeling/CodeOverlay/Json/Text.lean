import CodeOverlay.Measured

namespace CodeOverlay.Json

/-!
# Written texts

A text is written between quotes, with a backslash in front of what cannot stand there by
itself.

* `Problem` — what is wrong with something written;
* `encode` — the characters of a text as they are written;
* `readText` — the text that is written up to the next quote, and what follows it.

Reading goes from left to right and ends at the first problem.
-/

/-- What is wrong with something written. -/
inductive Problem where
  /-- It is not written as it should be. -/
  | malformed
  /-- It ends too early. -/
  | unfinished
  /-- It is well written but not what is wanted. -/
  | unfit
deriving DecidableEq, Repr

/-! ### Writing -/

/-- The mark before and after a text. -/
def quoteMark : Char := '"'

/-- A hexadecimal digit in its small form. -/
def hexDigit (n : Nat) : Char :=
  if n < 10 then Char.ofNat ('0'.toNat + n) else Char.ofNat ('a'.toNat + (n - 10))

/-- A character as it is written: the quote, the backslash and the control characters are
    escaped, by a letter if they have one and by their number if not. -/
def encodeChar (c : Char) : List Char :=
  if c = '"' then ['\\', '"']
  else if c = '\\' then ['\\', '\\']
  else if c = '\x08' then ['\\', 'b']
  else if c = '\t' then ['\\', 't']
  else if c = '\n' then ['\\', 'n']
  else if c = '\x0c' then ['\\', 'f']
  else if c = '\r' then ['\\', 'r']
  else if c.toNat < 0x20 then
    ['\\', 'u', '0', '0', hexDigit (c.toNat / 16), hexDigit (c.toNat % 16)]
  else [c]

/-- The characters of a text as they are written. -/
def encode (cs : List Char) : List Char :=
  cs.flatMap encodeChar

/-- A text as it is written, between quotes. -/
def writeText (text : String) : String :=
  String.ofList (quoteMark :: encode text.toList ++ [quoteMark])

/-! ### Reading -/

/-- The value of a hexadecimal digit. -/
def hexValue? (c : Char) : Option Nat :=
  if '0' ≤ c ∧ c ≤ '9' then some (c.toNat - '0'.toNat)
  else if 'a' ≤ c ∧ c ≤ 'f' then some (c.toNat - 'a'.toNat + 10)
  else if 'A' ≤ c ∧ c ≤ 'F' then some (c.toNat - 'A'.toNat + 10)
  else none

/-- Reads four hexadecimal digits.  The next four bytes are taken before they are looked at, so
    that fewer bytes mean an early end whatever they are. -/
def readQuad : List Char → Except Problem (Nat × List Char)
  | a :: b :: c :: d :: rest =>
    match hexValue? a, hexValue? b, hexValue? c, hexValue? d with
    | some w, some x, some y, some z => .ok (((w * 16 + x) * 16 + y) * 16 + z, rest)
    | _, _, _, _ => .error .malformed
  | cs => .error (if extent Char.utf8Size cs < 4 then .unfinished else .malformed)

/-- The numbers that stand for the first half of a character. -/
def isLead (n : Nat) : Bool := 0xD800 ≤ n && n ≤ 0xDBFF

/-- The numbers that stand for the second half of a character. -/
def isTrail (n : Nat) : Bool := 0xDC00 ≤ n && n ≤ 0xDFFF

/-- Reads the second half of a character whose first half was `lead`. -/
def readTrail (lead : Nat) : List Char → Except Problem (Char × List Char)
  | [] => .error .unfinished
  | ['\\'] => .error .unfinished
  | '\\' :: 'u' :: rest =>
    match readQuad rest with
    | .error e => .error e
    | .ok (trail, rest) =>
      if isTrail trail then
        .ok (Char.ofNat (0x10000 + (lead - 0xD800) * 0x400 + (trail - 0xDC00)), rest)
      else .error .malformed
  | _ => .error .malformed

/-- Reads a character given by its number.  A character outside the first plane is written in
    two halves; if `halves` do not matter, each counts as a character of its own. -/
def readNumbered (halves : Bool) (cs : List Char) : Except Problem (Char × List Char) :=
  match readQuad cs with
  | .error e => .error e
  | .ok (n, rest) =>
    if !isLead n && !isTrail n then .ok (Char.ofNat n, rest)
    else if !halves then .ok ('\uFFFD', rest)
    else if isLead n then readTrail n rest
    else .error .malformed

/-- What the letter after a backslash stands for. -/
def escapes : List (Char × Char) :=
  [('"', '"'), ('\\', '\\'), ('/', '/'), ('b', '\x08'), ('f', '\x0c'), ('n', '\n'), ('r', '\r'),
   ('t', '\t')]

/-- Reads what follows a backslash. -/
def readEscape (halves : Bool) : List Char → Except Problem (Char × List Char)
  | [] => .error .unfinished
  | c :: rest =>
    if c = 'u' then readNumbered halves rest
    else
      match escapes.lookup c with
      | some d => .ok (d, rest)
      | none => .error .malformed

/-- Reads characters up to the next quote.  Each step takes a character at least, so there are
    no more steps than characters, and one for the end. -/
def readChars (halves : Bool) : Nat → List Char → Except Problem (List Char × List Char)
  | 0, _ => .error .unfinished
  | _ + 1, [] => .error .unfinished
  | steps + 1, c :: cs =>
    if c = '"' then .ok ([], cs)
    else if c = '\\' then
      match readEscape halves cs with
      | .error e => .error e
      | .ok (d, rest) => (readChars halves steps rest).map fun (ds, rest) => (d :: ds, rest)
    else if c.toNat < 0x20 then .error .malformed
    else (readChars halves steps cs).map fun (ds, rest) => (c :: ds, rest)

/-- Reads a text after its opening quote.  Halves of characters have to come in pairs if
    `halves` is set. -/
def readText (halves : Bool) (cs : List Char) : Except Problem (String × List Char) :=
  (readChars halves (cs.length + 1) cs).map fun (ds, rest) => (String.ofList ds, rest)

end CodeOverlay.Json
