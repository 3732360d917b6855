import CodeOverlay.Proofs.Tracking

namespace CodeOverlay

open Node

/-!
# Positions in machine words

The machine carries positions where whole numbers lead, as long as no number met on the way is too
large for a signed word.  Steps keep positions in order, so of several positions it is enough to
look at the last one, and within a document at its end.

* `Shift.carry_mono`, `Route.forward_mono` — whole numbers keep their order;
* `Route.Fits`, `Route.ChangesFit` — no number met on the way is too large;
* `Shift.landWord_eq`, `Route.landWord_eq`, `Route.changesWord_eq` — then the machine computes what
  whole numbers give;
* `Route.Room` — the steps stay within a document that is never too large;
* `Node.FitsWords.land_route`, `Node.FitsWords.changes_route` — so the machine carries the positions
  of documents where whole numbers lead.
-/

variable {shifts earlier later : List Shift} {a b p q pos start stop size : Nat} {bias : Bias}

/-! ### Order in whole numbers -/

namespace Shift

variable {s : Shift}

/-- A position before the range stays, one in it goes to one of the two ends of what was put in,
    and one after it moves as the cells after it do. -/
theorem carry_splice_cases (start removed inserted a : Nat) (bias : Bias) :
    (a < start ∧ (Shift.splice start removed inserted).carry a bias = a) ∨
      (start ≤ a ∧ a ≤ start + removed ∧
        ((Shift.splice start removed inserted).carry a bias = start ∨
          (Shift.splice start removed inserted).carry a bias = start + inserted)) ∨
      (start + removed < a ∧
        (Shift.splice start removed inserted).carry a bias = a + inserted - removed) := by
  simp only [carry, land]
  by_cases hbefore : a < start
  · rw [if_pos hbefore]
    exact .inl ⟨hbefore, rfl⟩
  rw [if_neg hbefore]
  by_cases hafter : a ≤ start + removed
  · rw [if_pos hafter]
    refine .inr (.inl ⟨by omega, hafter, ?_⟩)
    cases side start removed a bias with
    | left => exact .inl rfl
    | right => exact .inr rfl
  · rw [if_neg hafter]
    exact .inr (.inr ⟨by omega, rfl⟩)

/-- The ends of a range, moved outwards, stay in order. -/
theorem carry_le_carry (hab : a ≤ b) : s.carry a .left ≤ s.carry b .right := by
  cases s with
  | keep => exact hab
  | splice start removed inserted =>
    simp only [carry, land, side]
    grind

/-- In the replaced range nothing that goes to the left comes after what goes to the right. -/
theorem side_eq_right {removed : Nat} (hp : start ≤ p) (hpq : p ≤ q)
    (h : side start removed p bias = .right) (hq : q ≤ start + removed) :
    side start removed q bias = .right := by
  unfold side at h ⊢
  grind

/-- **One step** keeps the order of positions that stick to the same side. -/
theorem carry_mono (h : p ≤ q) : s.carry p bias ≤ s.carry q bias := by
  cases s with
  | keep => exact h
  | splice start removed inserted =>
    have hp := carry_splice_cases start removed inserted p bias
    have hq := carry_splice_cases start removed inserted q bias
    by_cases hin : start ≤ p ∧ q ≤ start + removed
    · -- only here both go to an end of what was put in, and it matters to which one
      obtain ⟨hpstart, hqstop⟩ := hin
      simp only [carry, land]
      rw [if_neg (by omega), if_pos (by omega), if_neg (by omega), if_pos hqstop]
      cases hside : side start removed p bias with
      | left =>
        cases side start removed q bias with
        | left => exact Nat.le_refl start
        | right => exact Nat.le_add_right start inserted
      | right =>
        refine Nat.le_of_eq ?_
        rw [side_eq_right hpstart h hside hqstop]
    · omega

end Shift

namespace Route

/-- The ends of a range, moved outwards, stay in order. -/
theorem forward_le_forward (hab : a ≤ b) :
    forward shifts .left a ≤ forward shifts .right b := by
  induction shifts generalizing a b with
  | nil => exact hab
  | cons s later ih => exact ih (Shift.carry_le_carry hab)

/-- **Several steps** keep the order of positions that stick to the same side. -/
theorem forward_mono (h : p ≤ q) : forward shifts bias p ≤ forward shifts bias q := by
  induction shifts generalizing p q with
  | nil => exact h
  | cons s later ih => exact ih (Shift.carry_mono h)

/-- A position is carried through the first steps and then through the others. -/
theorem forward_append (shifts later : List Shift) (bias : Bias) (pos : Nat) :
    forward (shifts ++ later) bias pos = forward later bias (forward shifts bias pos) :=
  List.foldl_append

/-- A position goes where the steps carry it one after the other. -/
theorem landThrough_pos (shifts : List Shift) (pos : Nat) (bias : Bias) :
    (landThrough shifts pos bias).pos = forward shifts bias pos := by
  induction shifts generalizing pos with
  | nil => rfl
  | cons s later ih => exact ih (s.carry pos bias)

end Route

/-! ### Numbers that fit -/

/-- The first number that does not fit in a signed machine word. -/
def signedLimit : Nat := 0x8000000000000000

theorem lt_wordLimit (h : a < signedLimit) : a < wordLimit := by
  simp only [signedLimit] at h
  simp only [wordLimit]
  omega

/-- A sum that is a word is the one that the machine computes. -/
theorem toWord_add (h : a + b < wordLimit) : toWord (a + b) = a + b := by
  simp only [wordLimit] at h
  simp only [toWord, wordLimit]
  omega

/-- What is left after taking away is what the machine computes, if it is a word. -/
theorem toWord_add_sub {c : Nat} (hle : c ≤ a + b) (h : a + b - c < wordLimit) :
    toWord (a + b - c) = a + b - c := by
  simp only [wordLimit] at h
  simp only [toWord, wordLimit]
  omega

/-- Neither the position nor the end of a range that starts before it or at it is too large. -/
def Shift.FitsAt (s : Shift) (pos : Nat) : Prop :=
  pos < signedLimit ∧ ∀ c ∈ s.changes, c.oldStart ≤ pos → c.oldStop < signedLimit

namespace Shift

variable {s : Shift}

instance : Decidable (s.FitsAt pos) :=
  inferInstanceAs (Decidable (_ ∧ _))

theorem FitsAt.of_le (h : s.FitsAt b) (hab : a ≤ b) : s.FitsAt a :=
  ⟨Nat.lt_of_le_of_lt hab h.1, fun c hc hstart => h.2 c hc (Nat.le_trans hstart hab)⟩

/-- **One step in machine words** leads a position where whole numbers lead it, if it fits before
    and after. -/
theorem landWord_eq (h : s.FitsAt pos) (hnew : s.carry pos bias < signedLimit) :
    s.landWord pos bias = s.land pos bias := by
  cases s with
  | keep => rfl
  | splice start removed inserted =>
    simp only [carry, land] at hnew
    simp only [landWord, land]
    by_cases hbefore : pos < start
    · rw [if_pos hbefore, if_pos hbefore]
    have hstop : toWord (start + removed) = start + removed :=
      toWord_add (lt_wordLimit (h.2 _ (List.mem_singleton_self _) (Nat.le_of_not_lt hbefore)))
    rw [if_neg hbefore] at hnew
    rw [if_neg hbefore, if_neg hbefore, hstop]
    by_cases hin : pos ≤ start + removed
    · rw [if_pos hin] at hnew
      rw [if_pos hin, if_pos hin]
      cases hside : side start removed pos bias with
      | left => rfl
      | right =>
        rw [hside] at hnew
        show (⟨toWord (start + inserted), _⟩ : Landing) = ⟨start + inserted, _⟩
        rw [toWord_add (lt_wordLimit hnew)]
    · rw [if_neg hin] at hnew
      rw [if_neg hin, if_neg hin, toWord_add_sub (by omega) (lt_wordLimit hnew)]

/-- The range of a step is what the machine computes, if its ends fit. -/
theorem changesWord_eq
    (h : ∀ c ∈ s.changes, c.newStop < signedLimit ∧ c.oldStop < signedLimit) :
    s.changesWord = s.changes := by
  cases s with
  | keep => rfl
  | splice start removed inserted =>
    obtain ⟨hnew, hold⟩ := h _ (List.mem_singleton_self _)
    rw [changesWord, changes, toWord_add (lt_wordLimit hold), toWord_add (lt_wordLimit hnew)]

end Shift

/-! ### Several steps -/

namespace Route

/-- No number met when a position goes through consecutive steps is too large. -/
def Fits : List Shift → Bias → Nat → Prop
  | [], _, pos => pos < signedLimit
  | s :: later, bias, pos => s.FitsAt pos ∧ Fits later bias (s.carry pos bias)

instance decidableFits : ∀ shifts bias pos, Decidable (Fits shifts bias pos)
  | [], _, pos => inferInstanceAs (Decidable (pos < signedLimit))
  | s :: later, bias, pos =>
    have := decidableFits later bias (s.carry pos bias)
    inferInstanceAs (Decidable (s.FitsAt pos ∧ Fits later bias (s.carry pos bias)))

theorem Fits.lt (h : Fits shifts bias pos) : pos < signedLimit := by
  cases shifts with
  | nil => exact h
  | cons s later => exact h.1.1

/-- If a position fits, so do those before it. -/
theorem Fits.of_le (h : Fits shifts bias b) (hab : a ≤ b) : Fits shifts bias a := by
  induction shifts generalizing a b with
  | nil => exact Nat.lt_of_le_of_lt hab h
  | cons s later ih => exact ⟨h.1.of_le hab, ih h.2 (Shift.carry_mono hab)⟩

/-- If a position fits that sticks to the right, so do those that stick to the left. -/
theorem Fits.left_of_le (h : Fits shifts .right b) (hab : a ≤ b) : Fits shifts .left a := by
  induction shifts generalizing a b with
  | nil => exact Nat.lt_of_le_of_lt hab h
  | cons s later ih => exact ⟨h.1.of_le hab, ih h.2 (Shift.carry_le_carry hab)⟩

theorem fits_append :
    Fits (shifts ++ later) bias pos ↔
      Fits shifts bias pos ∧ Fits later bias (forward shifts bias pos) := by
  induction shifts generalizing pos with
  | nil => exact ⟨fun h => ⟨h.lt, h⟩, fun h => h.2⟩
  | cons s shifts ih =>
    show s.FitsAt pos ∧ Fits (shifts ++ later) bias (s.carry pos bias) ↔ _
    rw [ih]
    exact and_assoc.symm

/-- **Several steps in machine words** lead a position where whole numbers lead it, if it fits. -/
theorem landThroughBy_landWord (h : Fits shifts bias pos) :
    landThroughBy Shift.landWord shifts pos bias = landThrough shifts pos bias := by
  induction shifts generalizing pos with
  | nil => rfl
  | cons s later ih =>
    have hlater : landThroughBy Shift.landWord later (s.land pos bias).pos bias =
        landThrough later (s.land pos bias).pos bias := ih h.2
    simp only [landThrough, landThroughBy] at hlater ⊢
    rw [Shift.landWord_eq h.1 h.2.lt, hlater]

theorem forwardBy_carryWord (h : Fits shifts bias pos) :
    forwardBy Shift.carryWord shifts bias pos = forward shifts bias pos := by
  induction shifts generalizing pos with
  | nil => rfl
  | cons s later ih =>
    have hstep : s.carryWord pos bias = s.carry pos bias :=
      congrArg Landing.pos (Shift.landWord_eq h.1 h.2.lt)
    show forwardBy Shift.carryWord later bias (s.carryWord pos bias) = _
    rw [hstep]
    exact ih h.2

/-- Steps are undone by going through the inverse steps. -/
theorem backwardBy_eq (carry : Shift → Nat → Bias → Nat) (shifts : List Shift) (bias : Bias)
    (pos : Nat) :
    backwardBy carry shifts bias pos = forwardBy carry (shifts.map Shift.inverse) bias pos := by
  rw [forwardBy, List.foldl_map]
  rfl

theorem backwardBy_carryWord (h : Fits (shifts.map Shift.inverse) bias pos) :
    backwardBy Shift.carryWord shifts bias pos = backward shifts bias pos := by
  rw [backward, backwardBy_eq, backwardBy_eq]
  exact forwardBy_carryWord h

/-- **A route in machine words** leads a position where whole numbers lead it, if it fits. -/
theorem landWord_eq {r : Route} (h : Fits r.shifts bias pos) : r.landWord pos bias = r.land pos bias :=
  landThroughBy_landWord h

/-- A position that fits is carried as whole numbers carry it. -/
theorem carry_eq_forward {r : Route} (h : Fits r.shifts bias pos) :
    Carrier.carry r pos bias = forward r.shifts bias pos := by
  rw [← landThrough_pos]
  exact congrArg Landing.pos (landWord_eq h)

/-! ### Changed ranges -/

/-- No number met is too large when the ranges changed by further steps are seen from the first and
    the last document.  The ends are the largest of them. -/
def ChangesFitAfter (earlier : List Shift) : List Shift → Prop
  | [] => True
  | s :: later =>
    (∀ c ∈ s.changes, Fits later .right c.newStop ∧
      Fits (earlier.map Shift.inverse) .right c.oldStop) ∧
      ChangesFitAfter (s :: earlier) later

instance decidableChangesFitAfter : ∀ earlier shifts, Decidable (ChangesFitAfter earlier shifts)
  | _, [] => inferInstanceAs (Decidable True)
  | earlier, s :: later =>
    have := decidableChangesFitAfter (s :: earlier) later
    inferInstanceAs (Decidable ((∀ c ∈ s.changes, Fits later .right c.newStop ∧
      Fits (earlier.map Shift.inverse) .right c.oldStop) ∧ ChangesFitAfter (s :: earlier) later))

/-- No number met when the changed ranges are worked out is too large. -/
def ChangesFit (r : Route) : Prop :=
  ChangesFitAfter [] r.shifts

instance (r : Route) : Decidable r.ChangesFit :=
  decidableChangesFitAfter [] r.shifts

end Route

/-- The changed range of a step goes from its start to its end. -/
theorem Shift.le_of_mem_changes {s : Shift} {c : Change} (hc : c ∈ s.changes) :
    c.oldStart ≤ c.oldStop ∧ c.newStart ≤ c.newStop := by
  cases s with
  | keep => cases hc
  | splice start removed inserted =>
    rw [changes, List.mem_singleton] at hc
    subst hc
    exact ⟨Nat.le_add_right _ _, Nat.le_add_right _ _⟩

namespace Route

/-- The machine widens a range as whole numbers do, if its ends fit. -/
theorem widenBy_carryWord {c : Change} (hc : c.oldStart ≤ c.oldStop ∧ c.newStart ≤ c.newStop)
    (hnew : Fits later .right c.newStop) (hold : Fits (earlier.map Shift.inverse) .right c.oldStop) :
    widenBy Shift.carryWord earlier later c = widen earlier later c := by
  simp only [widen, widenBy]
  rw [forwardBy_carryWord hnew, forwardBy_carryWord (hnew.left_of_le hc.2),
    backwardBy_carryWord hold, backwardBy_carryWord (hold.left_of_le hc.1)]
  rfl

theorem changesAfterBy_carryWord (h : ChangesFitAfter earlier shifts) :
    changesAfterBy Shift.carryWord Shift.changesWord earlier shifts =
      changesAfter earlier shifts := by
  induction shifts generalizing earlier with
  | nil => rfl
  | cons s later ih =>
    have hlater : changesAfterBy Shift.carryWord Shift.changesWord (s :: earlier) later =
        changesAfter (s :: earlier) later := ih h.2
    have hchanges : s.changesWord = s.changes :=
      Shift.changesWord_eq fun c hc => ⟨(h.1 c hc).1.lt, (h.1 c hc).2.lt⟩
    have hwiden : s.changes.map (widenBy Shift.carryWord earlier later) =
        s.changes.map (widen earlier later) :=
      List.map_congr_left fun c hc =>
        widenBy_carryWord (Shift.le_of_mem_changes hc) (h.1 c hc).1 (h.1 c hc).2
    rw [changesAfterBy, hchanges, hwiden, hlater]
    rfl

/-- **The changed ranges in machine words** are those in whole numbers, if they fit. -/
theorem changesWord_eq {r : Route} (h : r.ChangesFit) : r.changesWord = r.changes := by
  rw [changesWord, changes, changesAfterBy_carryWord h]

/-! ### Within a document -/

/-- The steps stay within a document of `size` positions, which is never too large. -/
def Room : List Shift → Nat → Prop
  | [], size => size < signedLimit
  | s :: later, size =>
    size < signedLimit ∧ (∀ c ∈ s.changes, c.oldStop ≤ size) ∧ Room later (s.carry size .right)

theorem Room.lt (h : Room shifts size) : size < signedLimit := by
  cases shifts with
  | nil => exact h
  | cons s later => exact h.1

/-- With enough room the end of the document fits. -/
theorem Room.fits_end (h : Room shifts size) : Fits shifts .right size := by
  induction shifts generalizing size with
  | nil => exact h
  | cons s later ih =>
    obtain ⟨hlt, hstop, hlater⟩ := h
    exact ⟨⟨hlt, fun c hc _ => Nat.lt_of_le_of_lt (hstop c hc) hlt⟩, ih hlater⟩

/-- With enough room every position of the document fits. -/
theorem Room.fits (h : Room shifts size) (hle : pos ≤ size) : Fits shifts bias pos := by
  cases bias with
  | left => exact h.fits_end.left_of_le hle
  | right => exact h.fits_end.of_le hle

theorem room_concat {s : Shift} :
    Room (shifts ++ [s]) size ↔
      Room shifts size ∧ (∀ c ∈ s.changes, c.oldStop ≤ forward shifts .right size) ∧
        s.carry (forward shifts .right size) .right < signedLimit := by
  induction shifts generalizing size with
  | nil => exact and_congr_right fun _ => Iff.rfl
  | cons t shifts ih =>
    show _ ∧ _ ∧ Room (shifts ++ [s]) (t.carry size .right) ↔ _
    rw [ih]
    exact ⟨fun ⟨hlt, hstop, hroom, h⟩ => ⟨⟨hlt, hstop, hroom⟩, h⟩,
      fun ⟨⟨hlt, hstop, hroom⟩, h⟩ => ⟨hlt, hstop, hroom, h⟩⟩

end Route

/-- The range of a replacement ends where it is said to. -/
theorem Shift.oldStop_replace (hle : start ≤ stop) {c : Change}
    (hc : c ∈ (Shift.replace start stop size).changes) : c.oldStop = stop := by
  unfold Shift.replace at hc
  by_cases hkeep : start = stop ∧ size = 0
  · rw [if_pos hkeep] at hc
    cases hc
  · rw [if_neg hkeep, changes, List.mem_singleton] at hc
    rw [hc]
    exact Nat.add_sub_cancel' hle

/-- A step within a document leads its end to the end of the next one: what was put in lies within
    it, and undoing the step leads back. -/
theorem Shift.carry_end {s : Shift} (h : ∀ c ∈ s.changes, c.oldStop ≤ size) :
    (∀ c ∈ s.changes, c.newStop ≤ s.carry size .right) ∧
      (∀ c ∈ s.inverse.changes, c.oldStop ≤ s.carry size .right) ∧
      s.inverse.carry (s.carry size .right) .right = size := by
  cases s with
  | keep => exact ⟨fun _ hc => (nomatch hc), fun _ hc => (nomatch hc), rfl⟩
  | splice start removed inserted =>
    have hstop : start + removed ≤ size := h _ (List.mem_singleton_self _)
    simp only [changes, inverse, List.mem_singleton, forall_eq, carry, land, side]
    grind

namespace Route

/-- With enough room, before and after, the changed ranges fit. -/
theorem Room.changesFitAfter (h : Room shifts size) (hback : Room (earlier.map Shift.inverse) size) :
    ChangesFitAfter earlier shifts := by
  induction shifts generalizing earlier size with
  | nil => trivial
  | cons s later ih =>
    obtain ⟨-, hstop, hlater⟩ := h
    obtain ⟨hnew, hold, hinverse⟩ := Shift.carry_end hstop
    refine ⟨fun c hc => ⟨hlater.fits (hnew c hc), hback.fits (hstop c hc)⟩, ih hlater ?_⟩
    show _ ∧ _ ∧ Room (earlier.map Shift.inverse) _
    rw [hinverse]
    exact ⟨hlater.lt, hold, hback⟩

end Route

/-! ### Revisions -/

namespace Node

variable {doc : Node} {steps : List Step}

/-- The last position leads to the last one if it sticks to the right. -/
theorem Revised.forward_contentSize {n n' : Node} (h : Revised n shifts n') :
    Route.forward shifts .right n.contentSize = n'.contentSize := by
  induction h with
  | refl => rfl
  | @snoc shifts new m m' start stop h hnew hshift ih =>
    obtain ⟨hle, hfits⟩ := hnew.range_le
    have hsize := hnew.contentSize_eq
    rw [Route.forward_append, ih]
    show ((Shift.replace start stop new.size).land m.contentSize .right).pos = m'.contentSize
    rw [Shift.land_of_le hle hfits]
    show start + new.size + (m.contentSize - stop) = m'.contentSize
    omega

/-- None of the documents that the steps lead through is too large for a signed word to count its
    positions. -/
def FitsWords (doc : Node) (steps : List Step) : Prop :=
  ∀ k ≤ steps.length, (doc.revise (steps.take k)).doc.contentSize < signedLimit

instance : Decidable (doc.FitsWords steps) :=
  Nat.decidableBallLE _ _

theorem FitsWords.init {step : Step} (h : doc.FitsWords (steps ++ [step])) :
    doc.FitsWords steps := by
  intro k hk
  have hsize := h k (by simp; omega)
  rwa [List.take_append_of_le_length hk] at hsize

/-- If none of the documents is too large, there is enough room in them. -/
theorem FitsWords.room (h : doc.FitsWords steps) :
    Route.Room (doc.revise steps).route.shifts doc.contentSize := by
  induction steps using List.reverseRecOn with
  | nil => exact h 0 (Nat.le_refl 0)
  | append_singleton steps step ih =>
    have hroom := ih h.init
    have hlast := h (steps.length + 1) (by simp)
    rw [List.take_of_length_le (by simp), revise_concat] at hlast
    rw [revise_concat]
    obtain ⟨selection, hr⟩ | ⟨start, stop, new, doc', -, hdoc, hshift, hr⟩ :=
      (doc.revise steps).attempt_cases step
    · rw [hr]
      exact hroom
    · rw [hr] at hlast ⊢
      have hnew := replaced_of_replace hdoc
      have hrevised := Revision.revised_run doc steps
      have hend := (hrevised.snoc hnew hshift).forward_contentSize
      rw [Route.forward_append] at hend
      refine Route.room_concat.mpr ⟨hroom, fun c hc => ?_, ?_⟩
      · rw [Shift.oldStop_replace hnew.range_le.1 hc, hrevised.forward_contentSize]
        exact hnew.range_le.2
      · calc Shift.carry _ _ .right = doc'.contentSize := hend
          _ < signedLimit := hlast

/-- **The machine carries the positions of documents** that are not too large where whole numbers
    lead. -/
theorem FitsWords.land_route (h : doc.FitsWords steps) (hpos : pos ≤ doc.contentSize) :
    Carrier.land (doc.revise steps).route pos bias = Carrier.land (doc.revise steps) pos bias :=
  Route.landWord_eq (h.room.fits hpos)

/-- **The machine finds the changed ranges of documents** that are not too large where whole numbers
    have them. -/
theorem FitsWords.changes_route (h : doc.FitsWords steps) :
    Carrier.changes (doc.revise steps).route = Carrier.changes (doc.revise steps) :=
  Route.changesWord_eq (h.room.changesFitAfter h.room.lt)

end Node

end CodeOverlay
