import CodeOverlay.Proofs.Words

namespace CodeOverlay

open Node

/-!
# Changed ranges, cell by cell

Between a position and the next one there is a cell, named by the first of the two.  A step
removes the cells of its range, puts in others and moves those after them.  The changed ranges of
a route hold the cells that some step removed and those that some step put in, and no others.

* `Shift.cell?`, `Route.cell?` — where a cell goes, unless it is removed;
* `Route.undo`, `Route.cell?_undo_iff` — the steps undone lead cells back;
* `Route.Removes`, `Route.Inserts` — whether some step removed or put in a cell;
* `Route.forward_le_iff` — a cell that is not removed stays on its side of any position;
* `mem_changes_iff` — the changed ranges are those of the steps, widened;
* `itemsAt_tokens` — the tokens that are not removed are those that were not put in;
* `changes_exact` — the changed ranges are exact.
-/

/-! ### Cells through one step -/

namespace Shift

/-- Where a cell goes, or `none` if it is removed. -/
def cell? : Shift → Nat → Option Nat
  | .keep, i => some i
  | .splice start removed inserted, i =>
    if i < start then some i
    else if i < start + removed then none
    else some (i + inserted - removed)

/-- Whether a cell after the step was put in by it. -/
def Fresh : Shift → Nat → Prop
  | .keep, _ => False
  | .splice start _ inserted, j => start ≤ j ∧ j < start + inserted

variable {s : Shift} {i j a b start stop size : Nat} {bias : Bias}

/-- Replacing a range removes the cells of the range and moves those after it. -/
theorem cell?_replace (hle : start ≤ stop) (i : Nat) :
    (Shift.replace start stop size).cell? i =
      if i < start then some i
      else if i < stop then none
      else some (start + size + (i - stop)) := by
  unfold Shift.replace
  by_cases hkeep : start = stop ∧ size = 0
  · rw [if_pos hkeep]
    show some i = _
    by_cases hi : i < start
    · rw [if_pos hi]
    · have hpos : i = start + size + (i - stop) := by omega
      rw [if_neg hi, if_neg (by omega), ← hpos]
  · rw [if_neg hkeep]
    simp only [cell?]
    have hstop : start + (stop - start) = stop := by omega
    rw [hstop]
    by_cases hi : i < start
    · rw [if_pos hi, if_pos hi]
    rw [if_neg hi, if_neg hi]
    by_cases hi' : i < stop
    · rw [if_pos hi', if_pos hi']
    · have hpos : i + size - (stop - start) = start + size + (i - stop) := by omega
      rw [if_neg hi', if_neg hi', hpos]

@[simp] theorem inverse_inverse (s : Shift) : s.inverse.inverse = s := by
  cases s <;> rfl

/-- Undoing the replacement of a range is the replacement of what was put in. -/
theorem inverse_replace (hle : start ≤ stop) :
    (Shift.replace start stop size).inverse =
      Shift.replace start (start + size) (stop - start) := by
  unfold Shift.replace
  by_cases hkeep : start = stop ∧ size = 0
  · rw [if_pos hkeep, if_pos (by omega)]
    rfl
  · have hsize : start + size - start = size := by omega
    rw [if_neg hkeep, if_neg (by omega), hsize]
    rfl

/-- Undoing a step leads the cells back that the step did not remove. -/
theorem cell?_inverse_iff : s.inverse.cell? j = some i ↔ s.cell? i = some j := by
  cases s with
  | keep => exact ⟨fun h => by cases h; rfl, fun h => by cases h; rfl⟩
  | splice start removed inserted =>
    simp only [inverse, cell?]
    split <;> split <;> grind

/-- What a step put in is what undoing it removes. -/
theorem fresh_iff : s.Fresh j ↔ s.inverse.cell? j = none := by
  cases s with
  | keep => simp [Fresh, inverse, cell?]
  | splice start removed inserted =>
    simp only [Fresh, inverse, cell?]
    split <;> grind

/-- A step removes just the cells of its changed range. -/
theorem cell?_eq_none_iff :
    s.cell? i = none ↔ ∃ c ∈ s.changes, c.oldStart ≤ i ∧ i < c.oldStop := by
  cases s with
  | keep => simp [cell?, changes]
  | splice start removed inserted =>
    simp only [cell?, changes, List.mem_singleton, exists_eq_left]
    split <;> grind

/-- A step puts in just the cells of its changed range. -/
theorem fresh_iff_changes :
    s.Fresh j ↔ ∃ c ∈ s.changes, c.newStart ≤ j ∧ j < c.newStop := by
  cases s with
  | keep => simp [Fresh, changes]
  | splice start removed inserted => simp [Fresh, changes]

/-- **A step does not move a cell across a position**, whichever side the position sticks to. -/
theorem carry_le_iff (h : s.cell? i = some j) : s.carry a bias ≤ j ↔ a ≤ i := by
  cases s with
  | keep =>
    cases h
    rfl
  | splice start removed inserted =>
    have hcarry := carry_splice_cases start removed inserted a bias
    simp only [cell?] at h
    by_cases hbefore : i < start
    · rw [if_pos hbefore, Option.some.injEq] at h
      omega
    rw [if_neg hbefore] at h
    by_cases hin : i < start + removed
    · rw [if_pos hin] at h
      cases h
    · rw [if_neg hin, Option.some.injEq] at h
      omega

end Shift

/-! ### Cells through several steps -/

namespace Route

variable {shifts earlier later : List Shift} {i j k a b : Nat} {bias : Bias}

/-- Where a cell goes through consecutive steps, or `none` if one of them removes it. -/
def cell? : List Shift → Nat → Option Nat
  | [], i => some i
  | s :: later, i => (s.cell? i).bind (cell? later)

/-- The steps that undo the given ones, the last one first. -/
def undo (shifts : List Shift) : List Shift :=
  (shifts.map Shift.inverse).reverse

/-- Some step removes the cell `i` of the first document. -/
def Removes (r : Route) (i : Nat) : Prop :=
  ∃ earlier s later k, r.shifts = earlier ++ s :: later ∧
    cell? earlier i = some k ∧ s.cell? k = none

/-- Some step puts in what becomes the cell `j` of the last document. -/
def Inserts (r : Route) (j : Nat) : Prop :=
  ∃ earlier s later k, r.shifts = earlier ++ s :: later ∧
    s.Fresh k ∧ cell? later k = some j

theorem cell?_append (l r : List Shift) (i : Nat) :
    cell? (l ++ r) i = (cell? l i).bind (cell? r) := by
  induction l generalizing i with
  | nil => rfl
  | cons s l ih =>
    rw [List.cons_append, cell?, cell?, Option.bind_assoc]
    exact Option.bind_congr fun k _ => ih k

theorem cell?_concat (l : List Shift) (s : Shift) (i : Nat) :
    cell? (l ++ [s]) i = (cell? l i).bind s.cell? := by
  rw [cell?_append]
  refine Option.bind_congr fun k _ => ?_
  rw [cell?]
  exact Option.bind_fun_some (s.cell? k)

theorem undo_cons (s : Shift) (later : List Shift) :
    undo (s :: later) = undo later ++ [s.inverse] := by
  simp [undo]

theorem undo_append (l r : List Shift) : undo (l ++ r) = undo r ++ undo l := by
  simp [undo]

@[simp] theorem undo_undo (shifts : List Shift) : undo (undo shifts) = shifts := by
  simp [undo, Function.comp_def]

/-- The steps undone lead the cells back that were not removed. -/
theorem cell?_undo_iff : cell? (undo shifts) j = some i ↔ cell? shifts i = some j := by
  induction shifts generalizing i with
  | nil => exact ⟨fun h => by cases h; rfl, fun h => by cases h; rfl⟩
  | cons s later ih =>
    rw [undo_cons, cell?_concat, cell?, Option.bind_eq_some_iff, Option.bind_eq_some_iff]
    constructor
    · rintro ⟨k, hlater, hs⟩
      exact ⟨k, Shift.cell?_inverse_iff.mp hs, ih.mp hlater⟩
    · rintro ⟨k, hs, hlater⟩
      exact ⟨k, ih.mpr hlater, Shift.cell?_inverse_iff.mpr hs⟩

/-- A cell goes nowhere just if some step removes it. -/
theorem removes_iff {r : Route} : r.Removes i ↔ cell? r.shifts i = none := by
  constructor
  · rintro ⟨earlier, s, later, k, hshifts, hk, hs⟩
    rw [hshifts, cell?_append, hk]
    show (s.cell? k).bind (cell? later) = none
    rw [hs]
    rfl
  · rcases r with ⟨shifts⟩
    intro h
    show ∃ earlier s later k, shifts = _ ∧ _
    induction shifts generalizing i with
    | nil => cases h
    | cons s later ih =>
      cases hs : s.cell? i with
      | none => exact ⟨[], s, later, i, rfl, rfl, hs⟩
      | some k =>
        have hlater : cell? later k = none := by simpa [cell?, hs] using h
        obtain ⟨earlier, t, rest, m, rfl, hm, ht⟩ := ih hlater
        exact ⟨s :: earlier, t, rest, m, rfl, by simp [cell?, hs, hm], ht⟩

/-- What a route puts in is what undoing it removes. -/
theorem inserts_iff_removes_undo {r : Route} : r.Inserts j ↔ (Route.mk (undo r.shifts)).Removes j := by
  constructor
  · rintro ⟨earlier, s, later, k, hshifts, hs, hk⟩
    refine ⟨undo later, s.inverse, undo earlier, k, ?_, cell?_undo_iff.mpr hk,
      Shift.fresh_iff.mp hs⟩
    show undo r.shifts = _
    rw [hshifts, undo_append, undo_cons, List.append_assoc]
    rfl
  · rintro ⟨earlier, s, later, k, hshifts, hk, hs⟩
    refine ⟨undo later, s.inverse, undo earlier, k, ?_, ?_, ?_⟩
    · have hundo := congrArg undo hshifts
      rw [undo_undo] at hundo
      rw [hundo, undo_append, undo_cons, List.append_assoc]
      rfl
    · rw [Shift.fresh_iff, Shift.inverse_inverse]
      exact hs
    · rw [← cell?_undo_iff, undo_undo]
      exact hk

/-- **No cell is moved across a position** by several steps either. -/
theorem forward_le_iff (h : cell? shifts i = some j) : forward shifts bias a ≤ j ↔ a ≤ i := by
  induction shifts generalizing i a with
  | nil =>
    cases h
    rfl
  | cons s later ih =>
    obtain ⟨k, hs, hlater⟩ := Option.bind_eq_some_iff.mp h
    show forward later bias (s.carry a bias) ≤ j ↔ a ≤ i
    rw [ih hlater, Shift.carry_le_iff hs]

/-- Undoing steps, the latest first, carries positions forward through the steps undone. -/
theorem backward_reverse (shifts : List Shift) (bias : Bias) (pos : Nat) :
    backward shifts.reverse bias pos = forward (undo shifts) bias pos := by
  rw [backward, backwardBy_eq, List.map_reverse]
  rfl

/-! ### The changed ranges -/

theorem mem_changesAfterBy_iff {carry : Shift → Nat → Bias → Nat} {changes : Shift → List Change}
    {c : Change} :
    c ∈ changesAfterBy carry changes earlier shifts ↔ ∃ l s later, shifts = l ++ s :: later ∧
      ∃ d ∈ changes s, c = widenBy carry (l.reverse ++ earlier) later d := by
  induction shifts generalizing earlier with
  | nil => simp [changesAfterBy]
  | cons s later ih =>
    rw [changesAfterBy, List.mem_append, List.mem_map, ih]
    constructor
    · rintro (⟨d, hd, rfl⟩ | ⟨l, t, rest, rfl, d, hd, rfl⟩)
      · exact ⟨[], s, later, rfl, d, hd, rfl⟩
      · exact ⟨s :: l, t, rest, rfl, d, hd, by simp⟩
    · rintro ⟨l, t, rest, hshifts, d, hd, rfl⟩
      cases l with
      | nil =>
        obtain ⟨rfl, rfl⟩ := List.cons.inj hshifts
        exact .inl ⟨d, hd, rfl⟩
      | cons s' l =>
        obtain ⟨rfl, rfl⟩ := List.cons.inj hshifts
        exact .inr ⟨l, t, rest, rfl, d, hd, by simp⟩

/-- **Which ranges are changed.**  They are those of the steps, each carried back through the steps
    before it and forward through those after it. -/
theorem mem_changes_iff {r : Route} {c : Change} :
    c ∈ r.changes ↔ ∃ earlier s later, r.shifts = earlier ++ s :: later ∧
      ∃ d ∈ s.changes, c = widen earlier.reverse later d := by
  rw [changes, (List.mergeSort_perm _ _).mem_iff, changesAfter, mem_changesAfterBy_iff]
  simp only [List.append_nil]
  rfl

/-- The changed ranges that the machine finds are those of the steps as well, as the machine carries
    them. -/
theorem mem_changesWord_iff {r : Route} {c : Change} :
    c ∈ r.changesWord ↔ ∃ earlier s later, r.shifts = earlier ++ s :: later ∧
      ∃ d ∈ s.changesWord, c = widenBy Shift.carryWord earlier.reverse later d := by
  rw [changesWord, (List.mergeSort_perm _ _).mem_iff, mem_changesAfterBy_iff]
  simp only [List.append_nil]

/-- Whatever the machine makes of the ends of a range, the range goes from its start on in the last
    document. -/
theorem newStart_le_of_mem_changesWord {r : Route} {c : Change} (hc : c ∈ r.changesWord) :
    c.newStart ≤ c.newStop := by
  obtain ⟨earlier, s, later, -, d, -, rfl⟩ := mem_changesWord_iff.mp hc
  exact Nat.le_max_right _ _

/-- The changed ranges are in the order of their places in the last document. -/
theorem changesWord_ordered (r : Route) :
    r.changesWord.Pairwise fun c d =>
      c.newStart < d.newStart ∨ c.newStart = d.newStart ∧ c.newStop ≤ d.newStop := by
  have hordered : r.changesWord.Pairwise fun c d => precedes c d = true := by
    refine List.pairwise_mergeSort (fun c d e hcd hde => ?_) (fun c d => ?_) _
    · simp only [precedes, Bool.or_eq_true, Bool.and_eq_true, decide_eq_true_eq, beq_iff_eq] at *
      omega
    · simp only [precedes, Bool.or_eq_true, Bool.and_eq_true, decide_eq_true_eq, beq_iff_eq]
      omega
  refine hordered.imp fun h => ?_
  simpa [precedes] using h

variable {d : Change}

/-- A widened range is one from its start to its end, if the range was. -/
theorem widen_le (hold : d.oldStart ≤ d.oldStop) :
    (widen earlier.reverse later d).oldStart ≤ (widen earlier.reverse later d).oldStop ∧
      (widen earlier.reverse later d).newStart ≤ (widen earlier.reverse later d).newStop := by
  refine ⟨?_, Nat.le_max_right _ _⟩
  show backward earlier.reverse .left d.oldStart ≤ backward earlier.reverse .right d.oldStop
  rw [backward_reverse, backward_reverse]
  exact forward_le_forward hold

/-- A cell that the earlier steps lead to `k` is in the widened range just if `k` is in the range. -/
theorem widen_old_iff (h : cell? earlier i = some k) :
    ((widen earlier.reverse later d).oldStart ≤ i ∧
        i < (widen earlier.reverse later d).oldStop) ↔ d.oldStart ≤ k ∧ k < d.oldStop := by
  show (backward earlier.reverse .left d.oldStart ≤ i ∧
    i < backward earlier.reverse .right d.oldStop) ↔ _
  have hback := cell?_undo_iff.mpr h
  rw [backward_reverse, backward_reverse, forward_le_iff hback, ← Nat.not_le,
    forward_le_iff hback, Nat.not_le]

/-- A cell that the later steps lead from `k` is in the widened range just if `k` is in the range. -/
theorem widen_new_iff (hnew : d.newStart ≤ d.newStop) (h : cell? later k = some j) :
    ((widen earlier later d).newStart ≤ j ∧ j < (widen earlier later d).newStop) ↔
      d.newStart ≤ k ∧ k < d.newStop := by
  show (forward later .left d.newStart ≤ j ∧
    j < max (forward later .right d.newStop) (forward later .left d.newStart)) ↔ _
  rw [Nat.max_eq_left (forward_le_forward hnew), forward_le_iff h, ← Nat.not_le,
    forward_le_iff h, Nat.not_le]

variable {r : Route}

/-- **What is removed** is what the changed ranges hold of the first document. -/
theorem removes_iff_changes :
    r.Removes i ↔ ∃ c ∈ r.changes, c.oldStart ≤ i ∧ i < c.oldStop := by
  constructor
  · rintro ⟨earlier, s, later, k, hshifts, hk, hs⟩
    obtain ⟨d, hd, hin⟩ := Shift.cell?_eq_none_iff.mp hs
    exact ⟨_, mem_changes_iff.mpr ⟨earlier, s, later, hshifts, d, hd, rfl⟩,
      (widen_old_iff hk).mpr hin⟩
  · rintro ⟨c, hc, hin⟩
    obtain ⟨earlier, s, later, hshifts, d, hd, rfl⟩ := mem_changes_iff.mp hc
    cases hk : cell? earlier i with
    | none =>
      -- a step before removed the cell already
      rw [removes_iff, hshifts, cell?_append, hk]
      rfl
    | some k =>
      exact ⟨earlier, s, later, k, hshifts, hk,
        Shift.cell?_eq_none_iff.mpr ⟨d, hd, (widen_old_iff hk).mp hin⟩⟩

/-- **What is put in** is what the changed ranges hold of the last document. -/
theorem inserts_iff_changes :
    r.Inserts j ↔ ∃ c ∈ r.changes, c.newStart ≤ j ∧ j < c.newStop := by
  constructor
  · rintro ⟨earlier, s, later, k, hshifts, hs, hk⟩
    obtain ⟨d, hd, hin⟩ := Shift.fresh_iff_changes.mp hs
    exact ⟨_, mem_changes_iff.mpr ⟨earlier, s, later, hshifts, d, hd, rfl⟩,
      (widen_new_iff (Shift.le_of_mem_changes hd).2 hk).mpr hin⟩
  · rintro ⟨c, hc, hin⟩
    obtain ⟨earlier, s, later, hshifts, d, hd, rfl⟩ := mem_changes_iff.mp hc
    cases hk : cell? (undo later) j with
    | none =>
      -- a step after it put in the cell
      rw [inserts_iff_removes_undo, removes_iff]
      show cell? (undo r.shifts) j = none
      rw [hshifts, undo_append, undo_cons, List.append_assoc, cell?_append, hk]
      rfl
    | some k =>
      have hk := cell?_undo_iff.mp hk
      exact ⟨earlier, s, later, k, hshifts, Shift.fresh_iff_changes.mpr
        ⟨d, hd, (widen_new_iff (Shift.le_of_mem_changes hd).2 hk).mp hin⟩, hk⟩

/-- A changed range goes from its start to its end, in both documents. -/
theorem le_of_mem_changes {c : Change} (hc : c ∈ r.changes) :
    c.oldStart ≤ c.oldStop ∧ c.newStart ≤ c.newStop := by
  obtain ⟨earlier, s, later, -, d, hd, rfl⟩ := mem_changes_iff.mp hc
  exact widen_le (Shift.le_of_mem_changes hd).1

/-- The changed ranges spare the cells of the first document that go somewhere. -/
theorem spared_old (r : Route) (i : Nat) :
    (!r.changes.any fun c => c.oldStart ≤ i && i < c.oldStop) = (cell? r.shifts i).isSome := by
  have hremoved : (r.changes.any fun c => c.oldStart ≤ i && i < c.oldStop) = true ↔
      r.Removes i := by
    rw [removes_iff_changes, List.any_eq_true]
    simp only [Bool.and_eq_true, decide_eq_true_eq]
  rw [Bool.eq_iff_iff, Bool.not_eq_true', ← Bool.not_eq_true, hremoved, removes_iff,
    Option.isSome_iff_ne_none]

/-- The changed ranges spare the cells of the last document that come from somewhere. -/
theorem spared_new (r : Route) (j : Nat) :
    (!r.changes.any fun c => c.newStart ≤ j && j < c.newStop) =
      (cell? (undo r.shifts) j).isSome := by
  have hinserted : (r.changes.any fun c => c.newStart ≤ j && j < c.newStop) = true ↔
      r.Inserts j := by
    rw [inserts_iff_changes, List.any_eq_true]
    simp only [Bool.and_eq_true, decide_eq_true_eq]
  rw [Bool.eq_iff_iff, Bool.not_eq_true', ← Bool.not_eq_true, hinserted,
    inserts_iff_removes_undo, removes_iff, Option.isSome_iff_ne_none]

end Route

/-! ### What the changed ranges leave -/

variable {α : Type} {here there : Nat → Bool}

/-- The items of a list at the places of which `here` holds. -/
def itemsAt (here : Nat → Bool) (items : List α) : List α :=
  (items.zipIdx.filter fun (_, i) => here i).map (·.1)

theorem itemsAt_append (here : Nat → Bool) (l r : List α) :
    itemsAt here (l ++ r) = itemsAt here l ++ itemsAt (fun i => here (l.length + i)) r := by
  have hshift : r.zipIdx l.length = r.zipIdx.map fun (a, i) => (a, l.length + i) :=
    List.zipIdx_eq_map_add
  rw [itemsAt, List.zipIdx_append, List.filter_append, List.map_append, Nat.zero_add, hshift,
    List.filter_map, List.map_map]
  rfl

theorem itemsAt_congr {items : List α} (h : ∀ i < items.length, here i = there i) :
    itemsAt here items = itemsAt there items := by
  unfold itemsAt
  rw [List.filter_congr]
  rintro ⟨a, i⟩ hmem
  exact h i (List.getElem?_eq_some_iff.mp (List.mem_zipIdx_iff_getElem?.mp hmem)).1

theorem itemsAt_eq_nil {items : List α} (h : ∀ i < items.length, here i = false) :
    itemsAt here items = [] := by
  rw [itemsAt_congr h]
  simp [itemsAt]

/-- One replacement takes the tokens that it does not remove to those that it does not put in,
    whichever of them are looked at. -/
theorem Node.Replaced.itemsAt_tokens {new : Replacement} {n n' : Node} {start stop : Nat}
    (h : Replaced new n start stop n') (here there : Nat → Bool) :
    itemsAt (fun k => here k && ((Shift.replace start stop new.size).cell? k).any there)
        n.tokens =
      itemsAt (fun j => ((Shift.replace start stop new.size).inverse.cell? j).any here && there j)
        n'.tokens := by
  have hle := h.range_le.1
  obtain ⟨before, removed, after, hn, hn', hstart, hstop, -⟩ := h.split
  have hinserted : (before ++ new.tokens).length = start + new.size := by
    rw [List.length_append, hstart, new.length_tokens]
  have hremoved : before.length + removed.length = stop := by
    rw [← List.length_append, hstop]
  rw [Shift.inverse_replace hle, hn, hn', itemsAt_append, itemsAt_append, itemsAt_append,
    itemsAt_append, hstop, hinserted]
  have hbefore : itemsAt (fun k => here k &&
        ((Shift.replace start stop new.size).cell? k).any there) before =
      itemsAt (fun j => ((Shift.replace start (start + new.size) (stop - start)).cell? j).any here &&
        there j) before := by
    refine itemsAt_congr fun i hi => ?_
    rw [Shift.cell?_replace hle, Shift.cell?_replace (Nat.le_add_right _ _), if_pos (by omega),
      if_pos (by omega)]
    rfl
  have hgone : itemsAt (fun i => here (before.length + i) &&
      ((Shift.replace start stop new.size).cell? (before.length + i)).any there) removed = [] := by
    refine itemsAt_eq_nil fun i hi => ?_
    rw [Shift.cell?_replace hle, if_neg (by omega), if_pos (by omega)]
    exact Bool.and_false _
  have hfresh : itemsAt (fun i =>
      ((Shift.replace start (start + new.size) (stop - start)).cell? (before.length + i)).any here &&
        there (before.length + i)) new.tokens = [] := by
    refine itemsAt_eq_nil fun i hi => ?_
    rw [new.length_tokens] at hi
    rw [Shift.cell?_replace (Nat.le_add_right _ _), if_neg (by omega), if_pos (by omega)]
    exact Bool.false_and _
  have hafter : itemsAt (fun i => here (stop + i) &&
        ((Shift.replace start stop new.size).cell? (stop + i)).any there) after =
      itemsAt (fun i =>
        ((Shift.replace start (start + new.size) (stop - start)).cell?
          (start + new.size + i)).any here && there (start + new.size + i)) after := by
    refine itemsAt_congr fun i _ => ?_
    rw [Shift.cell?_replace hle, Shift.cell?_replace (Nat.le_add_right _ _), if_neg (by omega),
      if_neg (by omega), if_neg (by omega), if_neg (by omega), Nat.add_sub_cancel_left,
      Nat.add_sub_cancel_left, Nat.add_sub_cancel' hle]
    rfl
  rw [hbefore, hgone, hfresh, hafter]

/-- A revision takes the tokens that it does not remove to those that it does not put in. -/
theorem Node.Revised.itemsAt_tokens {n n' : Node} {shifts : List Shift}
    (h : Revised n shifts n') (there : Nat → Bool) :
    itemsAt (fun i => (Route.cell? shifts i).any there) n.tokens =
      itemsAt (fun j => (Route.cell? (Route.undo shifts) j).isSome && there j) n'.tokens := by
  induction h generalizing there with
  | refl => rfl
  | @snoc shifts new m m' start stop _ hnew _ ih =>
    let s := Shift.replace start stop new.size
    have hforward : ∀ i, (Route.cell? (shifts ++ [s]) i).any there =
        (Route.cell? shifts i).any fun k => (s.cell? k).any there := by
      intro i
      rw [Route.cell?_concat]
      cases Route.cell? shifts i <;> rfl
    have hback : ∀ j, (Route.cell? (Route.undo (shifts ++ [s])) j).isSome =
        (s.inverse.cell? j).any fun k => (Route.cell? (Route.undo shifts) k).isSome := by
      intro j
      rw [Route.undo_append]
      show ((s.inverse.cell? j).bind (Route.cell? (Route.undo shifts))).isSome = _
      cases s.inverse.cell? j <;> rfl
    calc itemsAt (fun i => (Route.cell? (shifts ++ [s]) i).any there) n.tokens
        = itemsAt (fun i => (Route.cell? shifts i).any fun k => (s.cell? k).any there)
            n.tokens := by simp only [hforward]
      _ = itemsAt (fun k => (Route.cell? (Route.undo shifts) k).isSome && (s.cell? k).any there)
            m.tokens := ih _
      _ = itemsAt (fun j => ((s.inverse.cell? j).any fun k =>
            (Route.cell? (Route.undo shifts) k).isSome) && there j) m'.tokens :=
          hnew.itemsAt_tokens _ _
      _ = itemsAt (fun j => (Route.cell? (Route.undo (shifts ++ [s])) j).isSome && there j)
            m'.tokens := by simp only [hback]

/-- **The changed ranges are exact.**  They are in order, and each goes from its start on.  If no
    number met on the way is too large, they hold in the first document the cells that some step
    removed, in the last document those that some step put in, and no others.  So what a revision
    leaves of the tokens of a document is what the ranges do not hold, before and after.  The machine
    finds the same ranges as long as no document on the way is too large. -/
theorem changes_exact :
    (∀ r : Route,
      ((Carrier.changes r).Pairwise fun c d =>
        c.newStart < d.newStart ∨ c.newStart = d.newStart ∧ c.newStop ≤ d.newStop) ∧
      (∀ c ∈ Carrier.changes r, c.newStart ≤ c.newStop) ∧
      (r.ChangesFit →
        (∀ i, (∃ c ∈ Carrier.changes r, c.oldStart ≤ i ∧ i < c.oldStop) ↔ r.Removes i) ∧
        (∀ j, (∃ c ∈ Carrier.changes r, c.newStart ≤ j ∧ j < c.newStop) ↔ r.Inserts j) ∧
        ∀ c ∈ Carrier.changes r, c.oldStart ≤ c.oldStop)) ∧
    ∀ (doc : Node) (steps : List Step),
      itemsAt (fun i => !(Carrier.changes (doc.revise steps)).any fun c =>
          c.oldStart ≤ i && i < c.oldStop) doc.tokens =
        itemsAt (fun j => !(Carrier.changes (doc.revise steps)).any fun c =>
          c.newStart ≤ j && j < c.newStop) (doc.revise steps).doc.tokens ∧
      (doc.FitsWords steps →
        Carrier.changes (doc.revise steps).route = Carrier.changes (doc.revise steps)) := by
  refine ⟨fun r => ⟨r.changesWord_ordered, fun c hc => Route.newStart_le_of_mem_changesWord hc,
    fun hfit => ?_⟩, fun doc steps => ⟨?_, FitsWords.changes_route⟩⟩
  · have hchanges : Carrier.changes r = r.changes := Route.changesWord_eq hfit
    rw [hchanges]
    exact ⟨fun i => Route.removes_iff_changes.symm, fun j => Route.inserts_iff_changes.symm,
      fun c hc => (Route.le_of_mem_changes hc).1⟩
  · let r : Route := (doc.revise steps).route
    show itemsAt (fun i => !r.changes.any fun c => c.oldStart ≤ i && i < c.oldStop) _ =
      itemsAt (fun j => !r.changes.any fun c => c.newStart ≤ j && j < c.newStop) _
    have htokens := (Revision.revised_run doc steps).itemsAt_tokens fun _ => true
    simp only [Route.spared_old, Route.spared_new]
    simpa only [Option.any_true, Bool.and_true] using htokens

/-- Two cells give way to three, and then one of these goes together with the cell before it. -/
def overlapping : Route :=
  ⟨[.splice 2 2 3, .splice 1 2 0]⟩

/-- The second step also removes a cell of the first document, while two of the cells that the first
    one put in are left.  The machine finds the same ranges in a document of two paragraphs. -/
theorem changes_exact_overlapping :
    overlapping.ChangesFit ∧ overlapping.Removes 1 ∧ overlapping.Inserts 2 ∧
      ⟨1, 4, 1, 1⟩ ∈ Carrier.changes overlapping ∧ ⟨2, 4, 1, 3⟩ ∈ Carrier.changes overlapping ∧
      1 ≤ 4 ∧ 1 ≤ 3 ∧ (quoted "cd").FitsWords quotedSteps ∧
      Carrier.changes ((quoted "cd").revise quotedSteps).route =
        Carrier.changes ((quoted "cd").revise quotedSteps) := by
  have hfit : overlapping.ChangesFit := by decide
  have hwords : (quoted "cd").FitsWords quotedSteps := by decide +kernel
  have hlater : ⟨1, 4, 1, 1⟩ ∈ Carrier.changes overlapping :=
    Route.mem_changesWord_iff.mpr ⟨[.splice 2 2 3], .splice 1 2 0, [], rfl, _,
      List.mem_singleton_self _, rfl⟩
  have hfirst : ⟨2, 4, 1, 3⟩ ∈ Carrier.changes overlapping :=
    Route.mem_changesWord_iff.mpr ⟨[], .splice 2 2 3, [.splice 1 2 0], rfl, _,
      List.mem_singleton_self _, rfl⟩
  obtain ⟨-, hnew, hexact⟩ := changes_exact.1 overlapping
  obtain ⟨hremoves, hinserts, hold⟩ := hexact hfit
  exact ⟨hfit, (hremoves 1).mp ⟨_, hlater, by decide⟩, (hinserts 2).mp ⟨_, hfirst, by decide⟩, hlater,
    hfirst, hold _ hlater, hnew _ hfirst, hwords,
    (changes_exact.2 (quoted "cd") quotedSteps).2 hwords⟩

/-- Two insertions that lead the end of what the first one puts in past the last machine word. -/
def wrapping : Route :=
  ⟨[.replace 0x4000000000000000 0x4000000000000000 0x6000000000000000,
    .replace 0x6000000000000000 0x6000000000000000 0x6000000000000000]⟩

/-- **A range that wraps around.**  The first insertion puts in a cell that is in none of the changed
    ranges which the machine finds. -/
theorem changes_inexact_wrapping :
    wrapping.Inserts 0x4000000000000000 ∧
      ¬∃ c ∈ Carrier.changes wrapping,
        c.newStart ≤ 0x4000000000000000 ∧ 0x4000000000000000 < c.newStop := by
  refine ⟨⟨[], .replace 0x4000000000000000 0x4000000000000000 0x6000000000000000,
    [.replace 0x6000000000000000 0x6000000000000000 0x6000000000000000], 0x4000000000000000, rfl,
    ⟨by decide, by decide⟩, by decide⟩, ?_⟩
  rintro ⟨c, hc, hin⟩
  have hwrapped : ∀ c ∈ Route.changesAfterBy Shift.carryWord Shift.changesWord [] wrapping.shifts,
      ¬(c.newStart ≤ 0x4000000000000000 ∧ 0x4000000000000000 < c.newStop) := by decide
  exact hwrapped c ((List.mergeSort_perm _ _).mem_iff.mp hc) hin

end CodeOverlay
