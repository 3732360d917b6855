import CodeOverlay.Highlight.StyleTable
import CodeOverlay.Syntax.Tree

namespace CodeOverlay

/-!
# Painting a text by its captures

The captures of a text may lie inside one another, overlap, or cover the same bytes.  A byte
is painted in the style of the innermost capture over it: the one that starts last, among
those the one that ends first, among those the one that the query yields first.

* `Stroke` — a range painted in a style;
* `styledCaptures` — the captures that have a style, in query order;
* `outerFirst` — the order in which they are opened;
* `sweep` — the strokes found by going through the text once with a stack of the captures that
  are open;
* `joinTouching` — strokes of one style that touch become one;
* `SyntaxTree.strokes` — all of this for a syntax tree.
-/

/-- A range painted in a style. -/
@[ext]
structure Stroke where
  /-- Where the range starts. -/
  start : Nat
  /-- Where the range ends. -/
  stop : Nat
  /-- The style. -/
  style : String
deriving DecidableEq, Repr

/-- The stroke, further on by `offset`. -/
def Stroke.shift (offset : Nat) (s : Stroke) : Stroke :=
  ⟨s.start + offset, s.stop + offset, s.style⟩

/-! ### Which captures count -/

/-- A capture in its style.  Empty captures do not count, and neither do those without a
    style, so that what lies around such a capture shows through. -/
def Capture.styled? (styling : Styling) (c : Capture) : Option Stroke :=
  if c.start < c.stop then (styling c.name).map (⟨c.start, c.stop, ·⟩) else none

/-- The captures of a tree that have a style, those of the primary layer first. -/
def styledCaptures (styling : Styling) (tree : SyntaxTree) : List Stroke :=
  tree.layers.flatMap fun layer => layer.captures.filterMap (·.styled? styling)

/-- The order of captures from the outside to the inside: by start, the longer one first. -/
def opensBefore (r s : Stroke) : Bool :=
  r.start < s.start || (r.start == s.start && s.stop ≤ r.stop)

/-- Captures from the outside to the inside.  Of captures of the same bytes the one yielded
    first comes last, as the innermost. -/
def outerFirst (captures : List Stroke) : List Stroke :=
  captures.reverse.mergeSort opensBefore

/-! ### Going through the text -/

/-- Paints from `cursor` up to `limit`, each part in the style of the innermost of the open
    captures, which come first to last from the inside to the outside.  Answers with the
    strokes and with the captures that may still be open. -/
def paintTo (limit : Nat) : List Stroke → Nat → List Stroke × List Stroke
  | [], _ => ([], [])
  | top :: below, cursor =>
    if limit ≤ cursor then ([], top :: below)
    else if top.stop ≤ cursor then paintTo limit below cursor
    else if limit ≤ top.stop then ([⟨cursor, limit, top.style⟩], top :: below)
    else
      let (strokes, left) := paintTo limit below top.stop
      (⟨cursor, top.stop, top.style⟩ :: strokes, left)

/-- Paints from `cursor` on until no capture is open any more. -/
def paintRest : List Stroke → Nat → List Stroke
  | [], _ => []
  | top :: below, cursor =>
    if top.stop ≤ cursor then paintRest below cursor
    else ⟨cursor, top.stop, top.style⟩ :: paintRest below top.stop

/-- Paints from `cursor` on.  At the start of each capture, what was open is painted up to
    there, and the capture is opened on top. -/
def sweep : List Stroke → List Stroke → Nat → List Stroke
  | [], opened, cursor => paintRest opened cursor
  | c :: captures, opened, cursor =>
    let (strokes, left) := paintTo c.start opened cursor
    strokes ++ sweep captures (c :: left) c.start

/-- Puts a stroke in front of others, as one with the first of them if the two touch and have
    the same style. -/
def joinFront (s : Stroke) : List Stroke → List Stroke
  | [] => [s]
  | t :: rest =>
    if s.stop = t.start ∧ s.style = t.style then ⟨s.start, t.stop, s.style⟩ :: rest
    else s :: t :: rest

/-- Joins consecutive strokes that touch and have the same style. -/
def joinTouching (strokes : List Stroke) : List Stroke :=
  strokes.foldr joinFront []

/-- The strokes for captures in query order: ascending, apart, and as few as can be. -/
def paint (captures : List Stroke) : List Stroke :=
  joinTouching (sweep (outerFirst captures) [] 0)

/-- The strokes for a syntax tree, in bytes of its text. -/
def SyntaxTree.strokes (styling : Styling) (tree : SyntaxTree) : List Stroke :=
  paint (styledCaptures styling tree)

end CodeOverlay
