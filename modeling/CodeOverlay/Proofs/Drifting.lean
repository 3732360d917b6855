import CodeOverlay.Overlay.Decorations
import CodeOverlay.Proofs.Ordering
import CodeOverlay.Proofs.Sweeping

namespace CodeOverlay

/-!
# Decorations through changes

Both ends of a stroke go through the steps of a route, the start on the right of what is put in
there and the end on the left.  So the two can meet but never part again, and no stroke passes
another one, unless an end is too large for a machine word.

* `Stroke.Fits`, `Decorations.Fits` — no end is too large on its way;
* `Stroke.through` — where the two ends lead in whole numbers;
* `Route.Spares` — each step leaves a range outside of what it changes;
* `Stroke.carry?_append` — a stroke goes through two routes, one after the other, as through one;
* `Stroke.Disjoint.of_carry?` — strokes apart from each other stay so;
* `Stroke.carry?_of_spares` — a stroke outside of each change stays as long as it is;
* `Decorations.Fits.strokes_carry` — what is left of decorations is in order already;
* `decorations_carry` — all of it together.
-/

variable {r r' : Route} {s t s' t' : Stroke} {a b : Nat}

/-! ### One stroke -/

/-- The steps of one route and then those of another. -/
instance : Append Route :=
  ⟨fun r r' => ⟨r.shifts ++ r'.shifts⟩⟩

/-- Each step leaves the range from `a` to `b` outside of what it changes: before it, or after it.
    The range goes through the steps as a stroke does. -/
def Route.Spares : List Shift → Nat → Nat → Prop
  | [], _, _ => True
  | s :: later, a, b =>
    (∀ c ∈ s.changes, c.oldStop ≤ a ∨ b ≤ c.oldStart) ∧
      Spares later (s.carry a .right) (s.carry b .left)

/-- The two strokes have no position in common. -/
def Stroke.Disjoint (s t : Stroke) : Prop :=
  ∀ pos, ¬(s.Covers pos ∧ t.Covers pos)

namespace Stroke

/-- No number met when the ends of a stroke go through a route is too large. -/
def Fits (s : Stroke) (r : Route) : Prop :=
  Route.Fits r.shifts .right s.start ∧ Route.Fits r.shifts .left s.stop

instance : Decidable (s.Fits r) :=
  inferInstanceAs (Decidable (_ ∧ _))

/-- Where a route leads the two ends of a stroke, whether or not they meet. -/
def through (s : Stroke) (r : Route) : Stroke :=
  ⟨Route.forward r.shifts .right s.start, Route.forward r.shifts .left s.stop, s.style⟩

theorem through_append (s : Stroke) (r r' : Route) :
    s.through (r ++ r') = (s.through r).through r' :=
  Stroke.ext (Route.forward_append r.shifts r'.shifts .right s.start)
    (Route.forward_append r.shifts r'.shifts .left s.stop) rfl

/-- Ends that have met or passed each other do not part again. -/
theorem lt_of_through (h : (s.through r).start < (s.through r).stop) : s.start < s.stop := by
  by_contra hle
  exact Nat.not_le_of_lt h (Route.forward_le_forward (Nat.le_of_not_lt hle))

/-- A stroke that fits through two routes fits through the first one, and where that leads fits
    through the second one. -/
theorem Fits.append (h : s.Fits (r ++ r')) : s.Fits r ∧ (s.through r).Fits r' := by
  obtain ⟨hstart, hstart'⟩ := Route.fits_append.mp h.1
  obtain ⟨hstop, hstop'⟩ := Route.fits_append.mp h.2
  exact ⟨⟨hstart, hstop⟩, hstart', hstop'⟩

/-- What is left of a stroke is not empty. -/
theorem lt_of_carry? (h : s.carry? r = some t) : t.start < t.stop := by
  simp only [carry?, Option.ite_none_right_eq_some, Option.some.injEq] at h
  obtain ⟨hlt, rfl⟩ := h
  exact hlt

/-- What is left of a stroke goes from where its start leads to where its end leads, if these are
    in order. -/
theorem Fits.carry?_eq_some_iff (h : s.Fits r) :
    s.carry? r = some t ↔ (s.through r).start < (s.through r).stop ∧ s.through r = t := by
  simp only [carry?, Route.carry_eq_forward h.1, Route.carry_eq_forward h.2]
  rw [Option.ite_none_right_eq_some, Option.some.injEq]
  rfl

/-- **Two routes, one after the other.**  A stroke goes through both as through one, since nothing
    can be left at the end of what was dropped on the way. -/
theorem carry?_append (hfit : s.Fits (r ++ r')) :
    s.carry? (r ++ r') = (s.carry? r).bind (·.carry? r') := by
  obtain ⟨hfirst, hsecond⟩ := hfit.append
  refine Option.ext fun t => ?_
  rw [Option.bind_eq_some_iff, hfit.carry?_eq_some_iff, through_append]
  constructor
  · rintro ⟨hlt, ht⟩
    exact ⟨s.through r, hfirst.carry?_eq_some_iff.mpr ⟨lt_of_through hlt, rfl⟩,
      hsecond.carry?_eq_some_iff.mpr ⟨hlt, ht⟩⟩
  · rintro ⟨mid, hmid, h⟩
    obtain ⟨-, rfl⟩ := hfirst.carry?_eq_some_iff.mp hmid
    exact hsecond.carry?_eq_some_iff.mp h

/-- **Strokes that have no position in common** have none in common later on. -/
theorem Disjoint.of_carry? (h : s.Disjoint t) (hle : s.start ≤ t.start) (hsfit : s.Fits r)
    (htfit : t.Fits r) (hs : s.carry? r = some s') (ht : t.carry? r = some t') :
    s'.Disjoint t' := by
  obtain ⟨hslt, rfl⟩ := hsfit.carry?_eq_some_iff.mp hs
  obtain ⟨htlt, rfl⟩ := htfit.carry?_eq_some_iff.mp ht
  -- none of the two is empty, so the first one ends before the second one starts
  have hbefore : s.stop ≤ t.start := by
    by_contra hover
    exact h t.start ⟨⟨hle, Nat.lt_of_not_le hover⟩, Nat.le_refl _, lt_of_through htlt⟩
  have hends : (s.through r).stop ≤ (t.through r).start := Route.forward_le_forward hbefore
  rintro pos ⟨⟨-, hlt⟩, hge, -⟩
  omega

end Stroke

/-- A range outside of what a step changes stays as long as it is. -/
theorem Shift.carry_spared {s : Shift} (h : ∀ c ∈ s.changes, c.oldStop ≤ a ∨ b ≤ c.oldStart)
    (hab : a < b) : s.carry b .left = s.carry a .right + (b - a) := by
  cases s with
  | keep => show b = a + (b - a); omega
  | splice start removed inserted =>
    have hout := h _ (List.mem_singleton_self _)
    simp only [carry, land, side]
    grind

/-- A range outside of what each step changes stays as long as it is. -/
theorem Route.forward_spared {shifts : List Shift} (h : Spares shifts a b) (hab : a < b) :
    forward shifts .left b = forward shifts .right a + (b - a) := by
  induction shifts generalizing a b with
  | nil => show b = a + (b - a); omega
  | cons s later ih =>
    have hstep := Shift.carry_spared h.1 hab
    have hrest := ih h.2 (by omega)
    show forward later .left (s.carry b .left) = forward later .right (s.carry a .right) + _
    omega

/-- **A stroke outside of each change** is left as long as it is, and in its style. -/
theorem Stroke.carry?_of_spares (hfit : s.Fits r) (hlt : s.start < s.stop)
    (h : Route.Spares r.shifts s.start s.stop) :
    ∃ t, s.carry? r = some t ∧ t.stop - t.start = s.stop - s.start ∧ t.style = s.style := by
  have hlength : (s.through r).stop = (s.through r).start + (s.stop - s.start) :=
    Route.forward_spared h hlt
  exact ⟨s.through r, hfit.carry?_eq_some_iff.mpr ⟨by omega, rfl⟩, by omega, rfl⟩

/-! ### Decorations -/

namespace Decorations

variable {d : Decorations}

/-- No number met when the strokes go through a route is too large. -/
def Fits (d : Decorations) (r : Route) : Prop :=
  ∀ s ∈ d.strokes, s.Fits r

instance : Decidable (d.Fits r) :=
  inferInstanceAs (Decidable (∀ s ∈ d.strokes, s.Fits r))

theorem Fits.init (h : d.Fits (r ++ r')) : d.Fits r :=
  fun s hs => (h s hs).append.1

/-- What is left of the strokes is what is left of each of them. -/
theorem mem_carry_iff : t ∈ (d.carry r).strokes ↔ ∃ s ∈ d.strokes, s.carry? r = some t := by
  show t ∈ (d.strokes.filterMap (·.carry? r)).mergeSort _ ↔ _
  rw [List.mem_mergeSort, List.mem_filterMap]

/-- **What is left** of the strokes is in order already, each in its place among the others. -/
theorem Fits.strokes_carry (hfit : d.Fits r) :
    (d.carry r).strokes = d.strokes.filterMap (·.carry? r) := by
  refine List.mergeSort_of_pairwise ?_
  rw [List.pairwise_filterMap]
  refine d.ordered.imp_of_mem fun {s t} hsmem htmem hle s' hs t' ht => decide_eq_true ?_
  obtain ⟨-, rfl⟩ := (hfit s hsmem).carry?_eq_some_iff.mp hs
  obtain ⟨-, rfl⟩ := (hfit t htmem).carry?_eq_some_iff.mp ht
  exact Route.forward_mono hle

/-- What is left of decorations that fit through two routes fits through the second one. -/
theorem Fits.carry (hfit : d.Fits (r ++ r')) : (d.carry r).Fits r' := by
  intro t ht
  obtain ⟨s, hs, hcarry⟩ := mem_carry_iff.mp ht
  obtain ⟨hfirst, hsecond⟩ := (hfit s hs).append
  obtain ⟨-, rfl⟩ := hfirst.carry?_eq_some_iff.mp hcarry
  exact hsecond

/-- **Two routes, one after the other**, lead decorations where one route through both leads. -/
theorem Fits.carry_append (hfit : d.Fits (r ++ r')) :
    d.carry (r ++ r') = (d.carry r).carry r' := by
  refine Decorations.ext ?_
  rw [hfit.strokes_carry, hfit.carry.strokes_carry, hfit.init.strokes_carry,
    List.filterMap_filterMap]
  exact List.filterMap_congr fun s hs => Stroke.carry?_append (hfit s hs)

/-- Strokes that pairwise have no position in common have none in common later on. -/
theorem Fits.pairwise_disjoint_carry (hfit : d.Fits r) (h : d.strokes.Pairwise Stroke.Disjoint) :
    (d.carry r).strokes.Pairwise Stroke.Disjoint := by
  rw [hfit.strokes_carry, List.pairwise_filterMap]
  refine (d.ordered.and h).imp_of_mem ?_
  rintro s t hsmem htmem ⟨hle, hdisjoint⟩ s' hs t' ht
  exact hdisjoint.of_carry? hle (hfit s hsmem) (hfit t htmem) hs ht

end Decorations

/-- **Decorations through changes.**  What is left of them is in order and not empty.  If no number
    met on the way is too large, to go through the steps of two routes at once is to go through those
    of one and then of the other, what is left is what is left of each stroke in the place of the
    stroke, and strokes without a common position still have none.  A stroke that each step leaves
    outside of what it changes stays as long as it is, and in its style. -/
theorem decorations_carry (d : Decorations) (r : Route) :
    (d.carry r).strokes.Pairwise (·.start ≤ ·.start) ∧
      (∀ t ∈ (d.carry r).strokes, t.start < t.stop) ∧
      (∀ r' : Route, d.Fits (r ++ r') → d.carry (r ++ r') = (d.carry r).carry r') ∧
      (d.Fits r →
        (d.carry r).strokes = d.strokes.filterMap (·.carry? r) ∧
          (d.strokes.Pairwise Stroke.Disjoint → (d.carry r).strokes.Pairwise Stroke.Disjoint)) ∧
      ∀ s ∈ d.strokes, s.Fits r → s.start < s.stop → Route.Spares r.shifts s.start s.stop →
        ∃ t ∈ (d.carry r).strokes, s.carry? r = some t ∧ t.stop - t.start = s.stop - s.start ∧
          t.style = s.style := by
  refine ⟨(d.carry r).ordered, fun t ht => ?_, fun r' hfit => hfit.carry_append,
    fun hfit => ⟨hfit.strokes_carry, hfit.pairwise_disjoint_carry⟩, fun s hs hfit hlt hspares => ?_⟩
  · obtain ⟨s, -, h⟩ := Decorations.mem_carry_iff.mp ht
    exact Stroke.lt_of_carry? h
  · obtain ⟨t, h, hlength, hstyle⟩ := Stroke.carry?_of_spares hfit hlt hspares
    exact ⟨t, Decorations.mem_carry_iff.mpr ⟨s, hs, h⟩, h, hlength, hstyle⟩

/-- Three strokes of which the first two touch. -/
def threeStrokes : Decorations :=
  ⟨[⟨0, 1, "keyword"⟩, ⟨1, 3, "string"⟩, ⟨5, 7, "number"⟩], by decide⟩

theorem pairwise_disjoint_threeStrokes : threeStrokes.strokes.Pairwise Stroke.Disjoint := by
  simp only [threeStrokes, List.pairwise_cons, Stroke.Disjoint, Stroke.Covers]
  grind

/-- Of the three strokes the one in the middle is dropped, and the last one moves as it is.  They go
    through the two steps twice as through all four. -/
theorem decorations_carry_overlapping :
    threeStrokes.Fits (overlapping ++ overlapping) ∧
      threeStrokes.carry (overlapping ++ overlapping) =
        (threeStrokes.carry overlapping).carry overlapping ∧
      threeStrokes.Fits overlapping ∧ threeStrokes.strokes.Pairwise Stroke.Disjoint ∧
      (threeStrokes.carry overlapping).strokes.Pairwise Stroke.Disjoint ∧
      ⟨5, 7, "number"⟩ ∈ threeStrokes.strokes ∧ 5 < 7 ∧ Route.Spares overlapping.shifts 5 7 ∧
      ⟨4, 6, "number"⟩ ∈ (threeStrokes.carry overlapping).strokes := by
  obtain ⟨-, -, happend, hkept, hspared⟩ := decorations_carry threeStrokes overlapping
  have hboth : threeStrokes.Fits (overlapping ++ overlapping) := by decide
  have hfit : threeStrokes.Fits overlapping := by decide
  have hmem : ⟨5, 7, "number"⟩ ∈ threeStrokes.strokes := by decide
  have hspares : Route.Spares overlapping.shifts 5 7 := ⟨by decide, by decide, trivial⟩
  obtain ⟨t, ht, hcarry, -⟩ := hspared _ hmem (hfit _ hmem) (by decide) hspares
  obtain rfl : (⟨4, 6, "number"⟩ : Stroke) = t := Option.some.inj hcarry
  exact ⟨hboth, happend overlapping hboth, hfit, pairwise_disjoint_threeStrokes,
    (hkept hfit).2 pairwise_disjoint_threeStrokes, hmem, by decide, hspares, ht⟩

/-- A stroke from the place of the first insertion of `wrapping` to that of the second one. -/
def farStroke : Decorations :=
  ⟨[⟨0x4000000000000000, 0x6000000000000000, "keyword"⟩], by decide⟩

/-- The deletion of what `farStroke` covers. -/
def deleting : Route :=
  ⟨[.replace 0x4000000000000000 0x6000000000000000 0]⟩

/-- **A stroke that wraps around.**  Nothing is left of the stroke after the deletion, so nothing is
    left after two more insertions.  But through all three at once the start wraps around to the
    beginning, and the stroke is back. -/
theorem decorations_reopen_wrapping :
    ⟨0, 0x4000000000000000, "keyword"⟩ ∈ (farStroke.carry (deleting ++ wrapping)).strokes ∧
      ((farStroke.carry deleting).carry wrapping).strokes = [] := by
  constructor
  · exact Decorations.mem_carry_iff.mpr ⟨_, List.mem_singleton_self _, by decide⟩
  · rw [List.eq_nil_iff_forall_not_mem]
    intro t ht
    obtain ⟨s, hs, -⟩ := Decorations.mem_carry_iff.mp ht
    obtain ⟨s', hs', hdropped⟩ := Decorations.mem_carry_iff.mp hs
    obtain rfl := List.mem_singleton.mp hs'
    have hnone : Stroke.carry? deleting ⟨0x4000000000000000, 0x6000000000000000, "keyword"⟩ = none := by
      decide
    rw [hnone] at hdropped
    cases hdropped

end CodeOverlay
