import CodeOverlay.Document.Revision
import CodeOverlay.Proofs.Splicing

namespace CodeOverlay

open Node

/-!
# What surrounds a position

A replacement removes and puts in only whole nodes or text.  So a position that is not deleted
stays within the same nodes, whatever else happens to the document.

* `Shift.land_replace` — where a position goes that is not deleted;
* `Replaced.tagsAround_land` — the nodes around it are the same ones after a replacement;
* `Node.Revised`, `Revision.revised_run` — a revision is a sequence of replacements;
* `Revised.tagsAround_land` — the nodes around a position are the same ones after a revision.
-/

/-! ### One replacement -/

/-- A position that a replacement does not delete is before the range and stays, or is after
    it and goes along with its end. -/
theorem Shift.land_replace {start stop size pos : Nat} {bias : Bias} (hle : start ≤ stop)
    (h : ((Shift.replace start stop size).land pos bias).deleted = false) :
    (pos ≤ start ∧ ((Shift.replace start stop size).land pos bias).pos = pos) ∨
      (stop ≤ pos ∧
        ((Shift.replace start stop size).land pos bias).pos = start + size + (pos - stop)) := by
  unfold Shift.replace at h ⊢
  by_cases hkeep : start = stop ∧ size = 0
  · rw [if_pos hkeep]
    rcases Nat.le_total pos start with hpos | hpos
    · exact .inl ⟨hpos, rfl⟩
    · refine .inr ⟨by omega, ?_⟩
      show pos = _
      omega
  rw [if_neg hkeep] at h ⊢
  simp only [land] at h ⊢
  rcases Nat.lt_or_ge pos start with hlt | hge
  · rw [if_pos hlt]
    exact .inl ⟨Nat.le_of_lt hlt, rfl⟩
  rw [if_neg (by omega)] at h ⊢
  rcases Nat.lt_or_ge stop pos with hlt | hge'
  · rw [if_neg (by omega)]
    refine .inr ⟨Nat.le_of_lt hlt, ?_⟩
    show pos + size - (stop - start) = _
    omega
  rw [if_pos (by omega)] at h ⊢
  -- it goes to the side at which it was, or else it would count as deleted
  cases hside : side start (stop - start) pos bias with
  | left =>
    have hpos : pos = start := by simpa [hside] using h
    exact .inl ⟨Nat.le_of_eq hpos, hpos.symm⟩
  | right =>
    have hpos : pos = start + (stop - start) := by simpa [hside] using h
    refine .inr ⟨by omega, ?_⟩
    show start + size = _
    omega

/-- **The nodes around a position.**  If a replacement does not delete a position, the nodes
    around it stay around it. -/
theorem Node.Replaced.tagsAround_land {new : Replacement} {n n' : Node}
    {start stop pos : Nat} {bias : Bias} (h : Replaced new n start stop n')
    (hland : ((Shift.replace start stop new.size).land pos bias).deleted = false) :
    n'.tagsAround ((Shift.replace start stop new.size).land pos bias).pos = n.tagsAround pos := by
  obtain ⟨before, removed, after, hn, hn', hstart, hstop, hbalanced⟩ := h.split
  rcases Shift.land_replace h.range_le.1 hland with ⟨hle, hpos⟩ | ⟨hle, hpos⟩
  · rw [hpos, tagsAround, tagsAround, hn, hn', List.append_assoc, List.append_assoc,
      List.take_append_of_le_length (by omega), List.take_append_of_le_length (by omega)]
  · have hold : n.tokens.take pos = before ++ removed ++ after.take (pos - stop) := by
      rw [hn, List.take_append, List.take_of_length_le (by omega), hstop]
    have hnew : n'.tokens.take (start + new.size + (pos - stop)) =
        before ++ new.tokens ++ after.take (pos - stop) := by
      have hlen : (before ++ new.tokens).length = start + new.size := by
        rw [List.length_append, hstart, new.length_tokens]
      rw [hn', List.take_append, List.take_of_length_le (by omega), hlen,
        Nat.add_sub_cancel_left]
    rw [hpos, tagsAround, tagsAround, hold, hnew]
    simp only [openTags_append, hbalanced.openTags_eq, new.balanced_tokens.openTags_eq]

/-! ### Several replacements -/

/-- Replacements that shift positions by `shifts` took a node to another one.  Replacements of
    nothing by nothing do not count. -/
inductive Node.Revised (n : Node) : List Shift → Node → Prop
  /-- No replacement. -/
  | refl : Revised n [] n
  /-- One more replacement. -/
  | snoc {shifts : List Shift} {new : Replacement} {m m' : Node} {start stop : Nat}
      (h : Revised n shifts m) (hnew : Replaced new m start stop m')
      (hshift : (Shift.replace start stop new.size).isEmpty = false) :
      Revised n (shifts ++ [Shift.replace start stop new.size]) m'

/-- The revision of a document by steps, those that are refused being passed over. -/
abbrev Node.revise (doc : Node) (steps : List Step) : Revision :=
  (Revision.start doc).run steps

/-- One step of a revision sets the selection at most, or replaces a range. -/
theorem Revision.attempt_cases (r : Revision) (step : Step) :
    (∃ selection, r.attempt step = { r with selection }) ∨
      ∃ start stop new doc, step = .replace start stop new ∧ r.doc.replace new start stop = .ok doc ∧
        (Shift.replace start stop new.size).isEmpty = false ∧
        r.attempt step =
          { r with doc, route := r.route.push (Shift.replace start stop new.size) } := by
  cases step with
  | select anchor head => exact .inl ⟨some ⟨anchor, head⟩, rfl⟩
  | replace start stop new =>
    cases hdoc : r.doc.replace new start stop with
    | error e => exact .inl ⟨r.selection, by simp [attempt, apply, Revision.replace, hdoc]⟩
    | ok doc =>
      by_cases hshift : (Shift.replace start stop new.size).isEmpty = true
      · exact .inl ⟨r.selection, by simp [attempt, apply, Revision.replace, hdoc, hshift]⟩
      · have hshift : (Shift.replace start stop new.size).isEmpty = false := by simpa using hshift
        exact .inr ⟨start, stop, new, doc, rfl, hdoc, hshift,
          by simp [attempt, apply, Revision.replace, hdoc, hshift]⟩

/-- A revision is a sequence of replacements, whatever steps it tries. -/
theorem Revision.revised_run (doc : Node) (steps : List Step) :
    Revised doc ((Revision.start doc).run steps).route.shifts
      ((Revision.start doc).run steps).doc := by
  suffices h : ∀ r : Revision, Revised doc r.route.shifts r.doc →
      Revised doc (r.run steps).route.shifts (r.run steps).doc from h _ .refl
  induction steps with
  | nil => exact fun _ h => h
  | cons step steps ih =>
    intro r h
    refine ih (r.attempt step) ?_
    obtain ⟨selection, hr⟩ | ⟨start, stop, new, doc', -, hdoc, hshift, hr⟩ := r.attempt_cases step
    · rw [hr]
      exact h
    · rw [hr]
      exact h.snoc (replaced_of_replace hdoc) hshift

/-- A position goes through one more shift at the end. -/
theorem Route.landThrough_concat (shifts : List Shift) (shift : Shift) (pos : Nat) (bias : Bias) :
    landThrough (shifts ++ [shift]) pos bias =
      ⟨(shift.land (landThrough shifts pos bias).pos bias).pos,
        (landThrough shifts pos bias).deleted ||
          (shift.land (landThrough shifts pos bias).pos bias).deleted⟩ := by
  induction shifts generalizing pos with
  | nil => simp
  | cons first shifts ih => simp [ih, Bool.or_assoc]

/-- If a revision does not delete a position, the nodes around it stay around it. -/
theorem Node.Revised.tagsAround_land {n n' : Node} {shifts : List Shift} {pos : Nat} {bias : Bias}
    (h : Revised n shifts n') (hland : (Route.landThrough shifts pos bias).deleted = false) :
    n'.tagsAround (Route.landThrough shifts pos bias).pos = n.tagsAround pos := by
  induction h with
  | refl => rfl
  | snoc h hnew _ ih =>
    rw [Route.landThrough_concat] at hland ⊢
    obtain ⟨hfirst, hlast⟩ := Bool.or_eq_false_iff.mp hland
    rw [hnew.tagsAround_land hlast, ih hfirst]

end CodeOverlay
