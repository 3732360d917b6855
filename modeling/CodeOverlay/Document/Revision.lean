import CodeOverlay.Document.Replacement
import CodeOverlay.Position.Route

namespace CodeOverlay

/-!
# Revisions

A revision takes a document through a sequence of replacements.  The positions of each are
those of the document that the replacements before it lead to.

* `Revision` — the document before, the document so far, and the route between them;
* `Step`, `Revision.apply` — one step, and what it leads to;
* `Revision.run` — a sequence of steps, going on after those that are refused.
-/

/-- A selected range, from where it was begun to where it is held. -/
structure Selection where
  /-- The position at which the selection was begun. -/
  anchor : Nat
  /-- The position at which the selection is held. -/
  head : Nat
deriving DecidableEq, Repr

/-- A document on its way through a sequence of replacements. -/
structure Revision where
  /-- The document before the first step. -/
  before : Node
  /-- The document after the steps so far. -/
  doc : Node
  /-- Where positions of `before` went in `doc`. -/
  route : Route := {}
  /-- The selection last set. -/
  selection : Option Selection := none
deriving DecidableEq

/-- One step of a revision. -/
inductive Step where
  /-- Replaces the range from `start` to `stop`. -/
  | replace (start stop : Nat) (new : Replacement)
  /-- Sets the selection. -/
  | select (anchor head : Nat)
deriving DecidableEq

namespace Step

/-- Inserts nodes between two children. -/
def insert (pos : Nat) (inserted : List Node) : Step :=
  .replace pos pos (.nodes inserted)

/-- Inserts text into a text. -/
def insertText (pos : Nat) (inserted : String) : Step :=
  .replace pos pos (.text inserted)

/-- Deletes a range. -/
def delete (start stop : Nat) : Step :=
  .replace start stop .empty

end Step

namespace Revision

/-- The revision of `doc` without any step yet. -/
def start (doc : Node) : Revision :=
  { before := doc, doc }

/-- Replaces a range.  A replacement of nothing by nothing is checked like any other, but
    leaves the revision as it is. -/
def replace (r : Revision) (start stop : Nat) (new : Replacement) :
    Except EditError Revision :=
  match r.doc.replace new start stop with
  | .error e => .error e
  | .ok doc =>
    let shift := Shift.replace start stop new.size
    .ok (if shift.isEmpty then r else { r with doc, route := r.route.push shift })

/-- Sets the selection; the document stays. -/
def select (r : Revision) (anchor head : Nat) : Revision :=
  { r with selection := some ⟨anchor, head⟩ }

/-- The revision after one more step, or why the step is refused. -/
def apply (r : Revision) : Step → Except EditError Revision
  | .replace start stop new => r.replace start stop new
  | .select anchor head => .ok (r.select anchor head)

/-- The revision after a step, unchanged if the step is refused. -/
def attempt (r : Revision) (step : Step) : Revision :=
  match r.apply step with
  | .ok next => next
  | .error _ => r

/-- The revision after a sequence of steps.  A step that is refused is passed over. -/
def run (r : Revision) (steps : List Step) : Revision :=
  steps.foldl attempt r

/-- Whether any step replaced something. -/
def changesDocument (r : Revision) : Bool :=
  !r.route.shifts.isEmpty

end Revision

/-- A revision carries the positions of a document, which are counted as whole numbers.  The machine
    carries them to the same places as long as no document on the way is too large for it. -/
instance : Carrier Revision where
  land r := r.route.land
  changes r := r.route.changes
  changesDocument := Revision.changesDocument

end CodeOverlay
