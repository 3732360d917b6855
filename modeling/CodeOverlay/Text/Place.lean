import CodeOverlay.Text.Bytes

namespace CodeOverlay.Text

/-!
# Rows and columns

A `Place` names a place in a text by its line and by the bytes from the start of that line.

* `Place.after` — the place reached after reading some bytes;
* `placeAt` — the place at a byte offset of a text.
-/

/-- A place in a text: a line, counted from zero, and an offset within it in bytes. -/
structure Place where
  /-- The number of line breaks before the place. -/
  row : Nat
  /-- The number of bytes between the start of the line and the place. -/
  column : Nat
deriving DecidableEq, Repr

/-- The byte that ends a line. -/
def lineBreak : UInt8 := 0x0A

/-- The place reached by reading `before` from the start of a text: its line breaks are
    counted, and the bytes after the last of them. -/
def Place.after (before : List UInt8) : Place where
  row := before.count lineBreak
  column := (before.reverse.takeWhile (· != lineBreak)).length

/-- The place at byte `offset` of a text.  Offsets past the end stand for the end. -/
def placeAt (source : String) (offset : Nat) : Place :=
  Place.after ((bytes source).take offset)

end CodeOverlay.Text
