import CodeOverlay.Proofs.Cells
import CodeOverlay.Proofs.Tracking

namespace CodeOverlay

open Node

/-!
# Positions keep their order

Replacements move positions, but none past another one.  So the ends of a document bound where its
positions lead, and its own two ends lead to the ends of the last document.  Only positions that are
too large for a machine word lose their order.

* `Route.carry_mono` — positions that stick to the same side keep their order;
* `Shift.deleted_iff`, `Shift.deleted_landWord_iff` — which positions one replacement deletes;
* `Node.carry_revise_contentSize`, `Node.carry_revise_le` — where the end of a document leads, and
  that no position leads past it;
* `positions_keep_order` — all of it together.
-/

variable {shifts : List Shift} {p q pos start stop size : Nat} {bias : Bias}

/-! ### One step -/

namespace Shift

variable {s : Shift}

/-- The first position stays the first one if it sticks to the left. -/
theorem carry_zero (s : Shift) : s.carry 0 .left = 0 := by
  cases s with
  | keep => rfl
  | splice start removed inserted =>
    simp only [carry, land, side]
    grind

/-- **Which positions are deleted.**  A replacement deletes those strictly inside its range, to
    whichever side they stick. -/
theorem deleted_iff (hle : start ≤ stop) :
    ((Shift.replace start stop size).land pos bias).deleted = true ↔ start < pos ∧ pos < stop := by
  constructor
  · intro hdeleted
    unfold Shift.replace at hdeleted
    by_cases hkeep : start = stop ∧ size = 0
    · rw [if_pos hkeep] at hdeleted
      cases hdeleted
    rw [if_neg hkeep] at hdeleted
    simp only [land] at hdeleted
    by_cases hbefore : pos < start
    · rw [if_pos hbefore] at hdeleted
      cases hdeleted
    rw [if_neg hbefore] at hdeleted
    by_cases hin : pos ≤ start + (stop - start)
    · rw [if_pos hin] at hdeleted
      -- an end of a range that is not empty goes to its own side, which does not delete it
      cases hside : side start (stop - start) pos bias with
      | left =>
        rw [hside] at hdeleted
        have hne : pos ≠ start := bne_iff_ne.mp hdeleted
        refine ⟨by omega, Nat.lt_of_le_of_ne (by omega) fun hstop => ?_⟩
        rw [side, if_neg (by omega), if_neg hne, if_pos (by omega)] at hside
        cases hside
      | right =>
        rw [hside] at hdeleted
        have hne : pos ≠ start + (stop - start) := bne_iff_ne.mp hdeleted
        refine ⟨Nat.lt_of_le_of_ne (by omega) fun hstart => ?_, by omega⟩
        rw [side, if_neg (by omega), if_pos hstart.symm] at hside
        cases hside
    · rw [if_neg hin] at hdeleted
      cases hdeleted
  · rintro ⟨hstart, hstop⟩
    exact deleted_of_lt_of_lt hstart hstop

/-- **In machine words** a replacement deletes the same positions, as long as the end of its range
    is a word. -/
theorem deleted_landWord_iff (hle : start ≤ stop) (hstop : stop < wordLimit) :
    ((Shift.replace start stop size).landWord pos bias).deleted = true ↔
      start < pos ∧ pos < stop := by
  rw [← deleted_iff hle]
  unfold Shift.replace
  by_cases hkeep : start = stop ∧ size = 0
  · rw [if_pos hkeep]
    rfl
  rw [if_neg hkeep]
  have hend : toWord (start + (stop - start : Nat)) = start + (stop - start) :=
    toWord_add (by omega)
  -- the machine may cut down where the position goes, but not to which side it goes
  simp only [landWord, land, hend]
  by_cases hbefore : pos < start
  · rw [if_pos hbefore, if_pos hbefore]
  rw [if_neg hbefore, if_neg hbefore]
  by_cases hin : pos ≤ start + (stop - start)
  · rw [if_pos hin, if_pos hin]
    cases side start (stop - start) pos bias with
    | left => rfl
    | right => rfl
  · rw [if_neg hin, if_neg hin]

end Shift

/-! ### Several steps -/

namespace Route

/-- The first position stays the first one if it sticks to the left. -/
theorem forward_zero (shifts : List Shift) : forward shifts .left 0 = 0 := by
  induction shifts with
  | nil => rfl
  | cons s later ih =>
    show forward later .left (s.carry 0 .left) = 0
    rw [s.carry_zero, ih]

/-- A route keeps the order of positions that stick to the same side and fit. -/
theorem carry_mono {r : Route} (hfit : Fits r.shifts bias q) (h : p ≤ q) :
    Carrier.carry r p bias ≤ Carrier.carry r q bias := by
  rw [carry_eq_forward hfit, carry_eq_forward (hfit.of_le h)]
  exact forward_mono h

/-- A position that sticks to the left goes no further than if it sticks to the right and fits. -/
theorem carry_left_le_right {r : Route} (hfit : Fits r.shifts .right p) :
    Carrier.carry r p .left ≤ Carrier.carry r p .right := by
  rw [carry_eq_forward hfit, carry_eq_forward (hfit.left_of_le (Nat.le_refl p))]
  exact forward_le_forward (Nat.le_refl p)

end Route

/-! ### Revisions -/

namespace Node

variable {doc : Node} {steps : List Step}

/-- A revision carries positions where its steps carry them one after the other. -/
theorem carry_revise (doc : Node) (steps : List Step) (pos : Nat) (bias : Bias) :
    Carrier.carry (doc.revise steps) pos bias =
      Route.forward (doc.revise steps).route.shifts bias pos :=
  Route.landThrough_pos _ _ _

theorem carry_revise_zero (doc : Node) (steps : List Step) :
    Carrier.carry (doc.revise steps) 0 .left = 0 := by
  rw [carry_revise, Route.forward_zero]

/-- **The end of a document** leads to the end of the revised one. -/
theorem carry_revise_contentSize (doc : Node) (steps : List Step) :
    Carrier.carry (doc.revise steps) doc.contentSize .right =
      (doc.revise steps).doc.contentSize := by
  rw [carry_revise]
  exact (Revision.revised_run doc steps).forward_contentSize

/-- No position of a document leads past the end of the revised one. -/
theorem carry_revise_le (h : pos ≤ doc.contentSize) :
    Carrier.carry (doc.revise steps) pos bias ≤ (doc.revise steps).doc.contentSize := by
  rw [← carry_revise_contentSize, carry_revise, carry_revise]
  cases bias with
  | left => exact Route.forward_le_forward h
  | right => exact Route.forward_mono h

end Node

/-- **Positions keep their order.**  Steps carry no position past another one that sticks to the
    same side, and none that sticks to the left past where it goes if it sticks to the right, as long
    as no number met on the way is too large.  The ends of a document lead to the ends of the one
    after a revision, and what lies between them stays there; the machine carries it there as long
    as no document on the way is too large.  One step deletes the positions strictly inside its range,
    and no others. -/
theorem positions_keep_order :
    (∀ (r : Route) (p q : Nat) (bias : Bias), Route.Fits r.shifts bias q → p ≤ q →
      Carrier.carry r p bias ≤ Carrier.carry r q bias) ∧
    (∀ (r : Route) (p : Nat), Route.Fits r.shifts .right p →
      Carrier.carry r p .left ≤ Carrier.carry r p .right) ∧
    (∀ (doc : Node) (steps : List Step),
      Carrier.carry (doc.revise steps) 0 .left = 0 ∧
        Carrier.carry (doc.revise steps) doc.contentSize .right =
          (doc.revise steps).doc.contentSize ∧
        (∀ p bias, p ≤ doc.contentSize →
          Carrier.carry (doc.revise steps) p bias ≤ (doc.revise steps).doc.contentSize) ∧
        (doc.FitsWords steps → ∀ p bias, p ≤ doc.contentSize →
          Carrier.land (doc.revise steps).route p bias = Carrier.land (doc.revise steps) p bias)) ∧
    ∀ (start stop size pos : Nat) (bias : Bias), start ≤ stop → stop < wordLimit →
      ((Carrier.land (Shift.replace start stop size) pos bias).deleted = true ↔
        start < pos ∧ pos < stop) := by
  refine ⟨fun r p q bias hfit h => Route.carry_mono hfit h,
    fun r p hfit => Route.carry_left_le_right hfit, fun doc steps => ?_,
    fun start stop size pos bias => Shift.deleted_landWord_iff⟩
  exact ⟨doc.carry_revise_zero steps, doc.carry_revise_contentSize steps,
    fun p bias hp => Node.carry_revise_le hp, fun hfit p bias hp => hfit.land_route hp⟩

/-- Two positions of which the first step deletes one, the end of a document that grows by two
    steps, and a position in a range that gives way to less. -/
theorem positions_keep_order_quoted :
    (Route.Fits overlapping.shifts .right 4 ∧ 3 ≤ 4 ∧
        Carrier.carry overlapping 3 .right ≤ Carrier.carry overlapping 4 .right ∧
        Carrier.carry overlapping 4 .left ≤ Carrier.carry overlapping 4 .right) ∧
      (10 ≤ (quoted "cd").contentSize ∧
        Carrier.carry ((quoted "cd").revise quotedSteps) 10 .left ≤ 15 ∧
        (quoted "cd").FitsWords quotedSteps ∧
        Carrier.land ((quoted "cd").revise quotedSteps).route 10 .left =
          Carrier.land ((quoted "cd").revise quotedSteps) 10 .left) ∧
      (4 ≤ 10 ∧ 10 < wordLimit ∧
        (Carrier.land (Shift.replace 4 10 1) 5 .left).deleted = true) := by
  obtain ⟨hmono, hsides, hrevise, hdeleted⟩ := positions_keep_order
  obtain ⟨-, -, hbound, hroute⟩ := hrevise (quoted "cd") quotedSteps
  have hfit : Route.Fits overlapping.shifts .right 4 := by decide
  have hwords : (quoted "cd").FitsWords quotedSteps := by decide +kernel
  exact ⟨⟨hfit, by decide, hmono overlapping 3 4 .right hfit (by decide), hsides overlapping 4 hfit⟩,
    ⟨by decide, hbound 10 .left (by decide), hwords, hroute hwords 10 .left (by decide)⟩,
    by decide, by decide, (hdeleted 4 10 1 5 .left (by decide) (by decide)).mpr (by decide)⟩

/-- **A position that wraps around.**  The one at which the first insertion puts something in goes to
    the beginning if it sticks to the right.  That is before where it goes if it sticks to the left,
    and before where an earlier position goes. -/
theorem positions_out_of_order_wrapping :
    Carrier.carry wrapping 0x4000000000000000 .left = 0x4000000000000000 ∧
      Carrier.carry wrapping 0x4000000000000000 .right = 0 ∧
      Carrier.carry wrapping 1 .right = 1 := by
  decide

end CodeOverlay
