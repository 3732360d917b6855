import CodeOverlay.Text.Place

namespace CodeOverlay.Text

/-!
# The difference between two texts

A document hands over whole texts, not keystrokes.  The one region that changed between two
texts is what is left of them after their common beginning and their common end.

* `commonStart` — the longest common beginning of two sequences;
* `Difference` — a replaced region, by bytes and by lines;
* `Difference.of?` — the region whose replacement turns one text into another.

The trimming goes character by character, so every bound of the region lies between two
characters of each text it refers to.
-/

/-- The longest common beginning of two sequences. -/
def commonStart {α : Type} [DecidableEq α] : List α → List α → List α
  | a :: as, b :: bs => if a = b then a :: commonStart as bs else []
  | _, _ => []

/-- A region of a text that was replaced. -/
structure Difference where
  /-- The byte offset at which the region starts, in both texts. -/
  start : Nat
  /-- The byte offset at which the region ends in the old text. -/
  oldEnd : Nat
  /-- The byte offset at which the region ends in the new text. -/
  newEnd : Nat
  /-- The place of `start`. -/
  startPlace : Place
  /-- The place of `oldEnd` in the old text. -/
  oldEndPlace : Place
  /-- The place of `newEnd` in the new text. -/
  newEndPlace : Place
deriving DecidableEq, Repr

/-- The region whose replacement turns `old` into `new`, or `none` if the texts are equal.  The
    common end is sought in what the common beginning leaves, so the two never overlap. -/
def Difference.of? (old new : String) : Option Difference :=
  if old = new then none
  else
    let head := commonStart old.toList new.toList
    let tail := commonStart (old.toList.drop head.length).reverse
      (new.toList.drop head.length).reverse
    let start := extent Char.utf8Size head
    let oldEnd := old.utf8ByteSize - extent Char.utf8Size tail
    let newEnd := new.utf8ByteSize - extent Char.utf8Size tail
    some
      { start, oldEnd, newEnd
        startPlace := placeAt old start
        oldEndPlace := placeAt old oldEnd
        newEndPlace := placeAt new newEnd }

end CodeOverlay.Text
