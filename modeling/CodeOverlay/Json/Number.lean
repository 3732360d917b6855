import CodeOverlay.Json.Text

namespace CodeOverlay.Json

/-!
# Written numbers

* `Decimal` — a number as it is written, without its sign;
* `readDecimal` — reads one;
* `Decimal.isFinite` — whether it is within the range of a number of double precision.

Numbers are never asked for: they matter only in so far as one that is not well written, or too
large, is another problem than one that is merely not wanted.
-/

/-- A number as it is written, without its sign. -/
structure Decimal where
  /-- The digits before the point. -/
  whole : List Char
  /-- The digits after the point. -/
  fraction : List Char := []
  /-- The exponent of ten. -/
  exponent : Int := 0
deriving DecidableEq

/-! ### Reading -/

/-- Reads one digit or more.  If nothing is left, the problem is `atEnd`. -/
def readDigits (atEnd : Problem) : List Char → Except Problem (List Char × List Char)
  | [] => .error atEnd
  | c :: cs =>
    if c.isDigit then .ok (c :: cs.takeWhile Char.isDigit, cs.dropWhile Char.isDigit)
    else .error .malformed

/-- Reads the digits before the point.  No digit may follow a zero in front. -/
def readWhole (atEnd : Problem) (cs : List Char) : Except Problem (List Char × List Char) :=
  match readDigits atEnd cs with
  | .ok ('0' :: _ :: _, _) => .error .malformed
  | result => result

/-- Reads the digits after the point, if there is a point. -/
def readFraction (atEnd : Problem) : List Char → Except Problem (List Char × List Char)
  | '.' :: rest => readDigits atEnd rest
  | cs => .ok ([], cs)

/-- The number that digits stand for. -/
def natOfDigits (digits : List Char) : Nat :=
  digits.foldl (fun n c => n * 10 + (c.toNat - '0'.toNat)) 0

/-- Reads the exponent, if there is one. -/
def readExponent (atEnd : Problem) : List Char → Except Problem (Int × List Char)
  | [] => .ok (0, [])
  | c :: rest =>
    if c = 'e' ∨ c = 'E' then
      let (negative, rest) :=
        match rest with
        | '+' :: rest => (false, rest)
        | '-' :: rest => (true, rest)
        | rest => (false, rest)
      (readDigits atEnd rest).map fun (digits, rest) =>
        ((if negative then -(natOfDigits digits : Int) else natOfDigits digits), rest)
    else .ok (0, c :: rest)

/-- Reads a number after its sign. -/
def readDecimal (atEnd : Problem) (cs : List Char) : Except Problem (Decimal × List Char) := do
  let (whole, cs) ← readWhole atEnd cs
  let (fraction, cs) ← readFraction atEnd cs
  let (exponent, cs) ← readExponent atEnd cs
  return (⟨whole, fraction, exponent⟩, cs)

/-! ### Range -/

/-- Takes leading digits as long as the number they stand for fits into 64 bits.  Answers with
    that number and with how many digits are left. -/
def takeWord (n : Nat) : List Char → Nat × Nat
  | [] => (n, 0)
  | c :: cs =>
    let m := n * 10 + (c.toNat - '0'.toNat)
    if m < 2 ^ 64 then takeWord m cs else (n, cs.length + 1)

/-- The number with 53 significant bits that is nearest; a tie goes to the even one. -/
def nearest53 (n : Nat) : Nat :=
  let unit := Nat.pow 2 (n.log2 + 1 - 53)
  let low := n / unit
  let excess := n % unit
  if unit < 2 * excess ∨ unit = 2 * excess ∧ low % 2 = 1 then (low + 1) * unit else low * unit

/-- Whether the number is within the range of a number of double precision.  The digits count
    as far as they fit into 64 bits, and both they and the power of ten are rounded before
    they are multiplied. -/
def Decimal.isFinite (d : Decimal) : Bool :=
  let (head, skipped) := takeWord 0 d.whole
  let (significand, unused) := takeWord head d.fraction
  let exponent : Int := skipped - (d.fraction.length - unused : Nat) + d.exponent
  significand = 0 || exponent < 0 ||
    (exponent ≤ 308 &&
      nearest53 significand * nearest53 (Nat.pow 10 exponent.toNat) <
        Nat.pow 2 1024 - Nat.pow 2 970)

end CodeOverlay.Json
