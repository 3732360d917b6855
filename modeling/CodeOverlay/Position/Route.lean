import CodeOverlay.Position.Shift

namespace CodeOverlay

/-!
# Positions across several replacements

* `Carrier` — whatever carries positions from one version of a document to a later one: where
  each position goes, which ranges changed, and whether anything did;
* `Route` — consecutive shifts;
* `Route.land`, `Route.landWord` — where they lead a position, in whole numbers and in machine words;
* `Route.changes`, `Route.changesWord` — the ranges that they changed, in positions of the first and
  of the last document.
-/

/-- Carries positions from a document before a change to the document after it. -/
class Carrier (μ : Type) where
  /-- Where a position goes. -/
  land : μ → Nat → Bias → Landing
  /-- The changed ranges. -/
  changes : μ → List Change
  /-- Whether the document changed at all. -/
  changesDocument : μ → Bool := fun m => !(changes m).isEmpty

/-- The new position, whatever became of the content around it. -/
def Carrier.carry {μ : Type} [Carrier μ] (m : μ) (pos : Nat) (bias : Bias) : Nat :=
  (land m pos bias).pos

/-- A shift comes without a document, so the machine carries any word through it. -/
instance : Carrier Shift where
  land := Shift.landWord
  changes := Shift.changesWord

/-- Consecutive shifts.  Each starts from the positions that those before it lead to. -/
structure Route where
  /-- The shifts, the first one first. -/
  shifts : List Shift := []
deriving DecidableEq, Repr

namespace Route

/-- The route with one more shift at its end. -/
def push (r : Route) (shift : Shift) : Route :=
  ⟨r.shifts ++ [shift]⟩

/-! ### One shift after the other -/

/-- Where a position goes through consecutive shifts, each of which leads it on by `land`.  It is
    deleted if any of them deletes it. -/
def landThroughBy (land : Shift → Nat → Bias → Landing) : List Shift → Nat → Bias → Landing
  | [], pos, _ => ⟨pos, false⟩
  | shift :: later, pos, bias =>
    let first := land shift pos bias
    let rest := landThroughBy land later first.pos bias
    ⟨rest.pos, first.deleted || rest.deleted⟩

section Carrying

variable (carry : Shift → Nat → Bias → Nat)

/-- Carries a position through consecutive shifts. -/
def forwardBy (shifts : List Shift) (bias : Bias) (pos : Nat) : Nat :=
  shifts.foldl (fun p shift => carry shift p bias) pos

/-- Carries a position back through shifts, the latest one first. -/
def backwardBy (shifts : List Shift) (bias : Bias) (pos : Nat) : Nat :=
  shifts.foldl (fun p shift => carry shift.inverse p bias) pos

/-- A range changed by one shift, seen from the first and the last document: the shifts before
    it, the latest one first, are undone on one side, and those after it applied on the other.
    Ends move outwards, so the range still covers all that it covered. -/
def widenBy (earlier later : List Shift) (range : Change) : Change :=
  let newStart := forwardBy carry later .left range.newStart
  let newStop := forwardBy carry later .right range.newStop
  { oldStart := backwardBy carry earlier .left range.oldStart
    oldStop := backwardBy carry earlier .right range.oldStop
    newStart
    newStop := max newStop newStart }

/-- The ranges changed by further shifts, after the shifts `earlier`, the latest one first. -/
def changesAfterBy (changes : Shift → List Change) (earlier : List Shift) :
    List Shift → List Change
  | [] => []
  | shift :: later =>
    (changes shift).map (widenBy carry earlier later) ++
      changesAfterBy changes (shift :: earlier) later

end Carrying

/-- The order of changed ranges in the last document, by start and then by end. -/
def precedes (r s : Change) : Bool :=
  r.newStart < s.newStart || (r.newStart == s.newStart && r.newStop ≤ s.newStop)

/-! ### In whole numbers -/

/-- Where a position goes through consecutive shifts. -/
def landThrough (shifts : List Shift) (pos : Nat) (bias : Bias) : Landing :=
  landThroughBy Shift.land shifts pos bias

@[simp] theorem landThrough_nil (pos : Nat) (bias : Bias) : landThrough [] pos bias = ⟨pos, false⟩ :=
  rfl

@[simp] theorem landThrough_cons (shift : Shift) (later : List Shift) (pos : Nat) (bias : Bias) :
    landThrough (shift :: later) pos bias =
      ⟨(landThrough later (shift.land pos bias).pos bias).pos,
        (shift.land pos bias).deleted ||
          (landThrough later (shift.land pos bias).pos bias).deleted⟩ :=
  rfl

/-- Where a position goes. -/
def land (r : Route) (pos : Nat) (bias : Bias) : Landing :=
  landThrough r.shifts pos bias

/-- Carries a position through consecutive shifts. -/
def forward (shifts : List Shift) (bias : Bias) (pos : Nat) : Nat :=
  forwardBy Shift.carry shifts bias pos

/-- Carries a position back through shifts, the latest one first. -/
def backward (shifts : List Shift) (bias : Bias) (pos : Nat) : Nat :=
  backwardBy Shift.carry shifts bias pos

/-- A range changed by one shift, seen from the first and the last document. -/
def widen (earlier later : List Shift) (range : Change) : Change :=
  widenBy Shift.carry earlier later range

/-- The ranges changed by further shifts. -/
def changesAfter (earlier shifts : List Shift) : List Change :=
  changesAfterBy Shift.carry Shift.changes earlier shifts

/-- The ranges that the route changed, in their order in the last document. -/
def changes (r : Route) : List Change :=
  (changesAfter [] r.shifts).mergeSort precedes

/-! ### In machine words -/

/-- Where a position goes if the machine computes it. -/
def landWord (r : Route) (pos : Nat) (bias : Bias) : Landing :=
  landThroughBy Shift.landWord r.shifts pos bias

/-- The ranges that the route changed if the machine computes their ends, in the order of the
    places computed. -/
def changesWord (r : Route) : List Change :=
  (changesAfterBy Shift.carryWord Shift.changesWord [] r.shifts).mergeSort precedes

end Route

/-- A route comes without a document, so the machine carries any word through it. -/
instance : Carrier Route where
  land := Route.landWord
  changes := Route.changesWord

end CodeOverlay
