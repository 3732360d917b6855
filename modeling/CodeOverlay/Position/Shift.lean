namespace CodeOverlay

/-!
# Positions across one replacement

Replacing a range of positions by new ones moves every position after the range.  A
position inside the range, or at a place where something is inserted, goes to one side of
what was put in, and a bias chooses the side.

The positions of a document are counted as whole numbers, however large it is.  A shift may also
come without a document and name any machine words, and then sums and differences are cut down to
words.  Both lead to the same positions as long as these are not too large.

* `Bias`, `Landing` — the side to stick to, and where a position went;
* `Shift` — how one replacement, or none, moves positions;
* `Shift.land`, `Shift.landWord` — where a position goes and whether what was around it is gone, in
  whole numbers and in machine words;
* `Shift.changes`, `Shift.changesWord` — the replaced range, before and after;
* `Shift.inverse` — how the replacement that undoes this one moves them.
-/

/-- The side to which a position sticks when content is put in at the position. -/
inductive Bias where
  /-- Before what is put in. -/
  | left
  /-- After what is put in. -/
  | right
deriving DecidableEq, Repr

/-- Where a position went. -/
structure Landing where
  /-- The new position. -/
  pos : Nat
  /-- Whether the position was inside replaced content. -/
  deleted : Bool
deriving DecidableEq, Repr

/-- A replaced range: the positions from `oldStart` to `oldStop` of the old document became
    those from `newStart` to `newStop` of the new one. -/
structure Change where
  /-- The start of the range in the old document. -/
  oldStart : Nat
  /-- The end of the range in the old document. -/
  oldStop : Nat
  /-- The start of the range in the new document. -/
  newStart : Nat
  /-- The end of the range in the new document. -/
  newStop : Nat
deriving DecidableEq, Repr

/-- How a single step moves positions. -/
inductive Shift where
  /-- No position moves. -/
  | keep
  /-- The `removed` positions from `start` on give way to `inserted` new ones. -/
  | splice (start removed inserted : Nat)
deriving DecidableEq, Repr

namespace Shift

/-- How replacing the range from `start` to `stop` by `size` positions moves the others.
    Replacing nothing by nothing moves none. -/
def replace (start stop size : Nat) : Shift :=
  if start = stop ∧ size = 0 then .keep else .splice start (stop - start) size

/-- Whether no position moves. -/
def isEmpty : Shift → Bool
  | .keep => true
  | .splice .. => false

/-- The side to which a position of the replaced range goes: the ends of a range that is
    not empty go to their own side, and everything else follows the bias. -/
def side (start removed pos : Nat) (bias : Bias) : Bias :=
  if removed = 0 then bias
  else if pos = start then .left
  else if pos = start + removed then .right
  else bias

/-- Where a position goes.  It counts as deleted if it went to a side at which it was not
    before. -/
def land (s : Shift) (pos : Nat) (bias : Bias) : Landing :=
  match s with
  | .keep => ⟨pos, false⟩
  | .splice start removed inserted =>
    if pos < start then ⟨pos, false⟩
    else if pos ≤ start + removed then
      match side start removed pos bias with
      | .left => ⟨start, pos != start⟩
      | .right => ⟨start + inserted, pos != start + removed⟩
    else ⟨pos + inserted - removed, false⟩

/-- The new position, whatever became of the content around it. -/
def carry (s : Shift) (pos : Nat) (bias : Bias) : Nat :=
  (s.land pos bias).pos

/-- The replaced range; there is none if no position moves. -/
def changes : Shift → List Change
  | .keep => []
  | .splice start removed inserted => [⟨start, start + removed, start, start + inserted⟩]

/-- How the replacement that undoes this one moves positions. -/
def inverse : Shift → Shift
  | .keep => .keep
  | .splice start removed inserted => .splice start inserted removed

end Shift

/-! ### In machine words -/

/-- The first number that is not a machine word. -/
def wordLimit : Nat := 0x10000000000000000

/-- The machine word that is left of a whole number.  Words are read as signed and as unsigned
    numbers by turns, which leaves their 64 digits as they are. -/
def toWord (n : Int) : Nat :=
  (n % wordLimit).toNat

namespace Shift

/-- Where a position goes if the machine computes it. -/
def landWord (s : Shift) (pos : Nat) (bias : Bias) : Landing :=
  match s with
  | .keep => ⟨pos, false⟩
  | .splice start removed inserted =>
    let stop := toWord (start + removed)
    if pos < start then ⟨pos, false⟩
    else if pos ≤ stop then
      match side start removed pos bias with
      | .left => ⟨start, pos != start⟩
      | .right => ⟨toWord (start + inserted), pos != stop⟩
    else ⟨toWord (pos + inserted - removed), false⟩

/-- The new position if the machine computes it, whatever became of the content around it. -/
def carryWord (s : Shift) (pos : Nat) (bias : Bias) : Nat :=
  (s.landWord pos bias).pos

/-- The replaced range if the machine computes its ends. -/
def changesWord : Shift → List Change
  | .keep => []
  | .splice start removed inserted =>
    [⟨start, toWord (start + removed), start, toWord (start + inserted)⟩]

end Shift

end CodeOverlay
