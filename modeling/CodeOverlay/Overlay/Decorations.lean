import CodeOverlay.Highlight.Painting
import CodeOverlay.Position.Route

namespace CodeOverlay

/-!
# Decorations

The strokes of a document, in document positions and in the order of their starts.

* `Stroke.follow` — a stroke that goes along with its node;
* `Stroke.carry?` — what a change leaves of a stroke;
* `Decorations` — strokes in order;
* `Decorations.carry` — what a change leaves of them.
-/

/-- The stroke after its node moved from `old` to `new` with the same content.  What would come
    to lie before the first position comes to lie at it.  The stroke lies in the document before and
    `new` in the one after, so the sum is a machine word unless one of the two documents fills half
    of the words. -/
def Stroke.follow (old new : Nat) (s : Stroke) : Stroke :=
  ⟨s.start + new - old, s.stop + new - old, s.style⟩

/-- The stroke after a change, if anything is left of it.  What is put in at either end is not
    part of it. -/
def Stroke.carry? {μ : Type} [Carrier μ] (carrier : μ) (s : Stroke) : Option Stroke :=
  let start := Carrier.carry carrier s.start .right
  let stop := Carrier.carry carrier s.stop .left
  if start < stop then some ⟨start, stop, s.style⟩ else none

/-- Strokes in the order of their starts. -/
@[ext]
structure Decorations where
  /-- The strokes. -/
  strokes : List Stroke
  /-- No stroke starts before an earlier one. -/
  ordered : strokes.Pairwise (·.start ≤ ·.start)
deriving DecidableEq

namespace Decorations

/-- No decorations. -/
def empty : Decorations := ⟨[], .nil⟩

/-- The decorations with the given strokes.  Those with the same start stay in their order. -/
def ofStrokes (strokes : List Stroke) : Decorations where
  strokes := strokes.mergeSort fun s t => s.start ≤ t.start
  ordered :=
    (List.pairwise_mergeSort (fun a b c h k => by simp only [decide_eq_true_eq] at *; omega)
      (fun a b => by simp only [Bool.or_eq_true, decide_eq_true_eq]; omega) strokes).imp
      (by simp)

/-- The decorations after a change. -/
def carry {μ : Type} [Carrier μ] (carrier : μ) (d : Decorations) : Decorations :=
  ofStrokes (d.strokes.filterMap (·.carry? carrier))

end Decorations

end CodeOverlay
