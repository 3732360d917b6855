import CodeOverlay.Proofs.Cells
import CodeOverlay.Proofs.Fitting

namespace CodeOverlay

open Node

/-!
# A revision replays its replacements

A revision keeps the document before it, the document so far, the shifts between the two and a
selection.  Steps may be refused, and replacements may replace nothing by nothing.  What the parts
of a revision say agrees all the same.

* `Edit`, `Node.accepted` — the replacements of a sequence of steps that are not refused;
* `Edit.Effective`, `Edit.shifts` — those that count, and the shifts of these;
* `Replaced.eq_self` — a replacement that does not count leaves the document as it is;
* `Revision.attempt_replace` — what one replacement makes of a revision;
* `Revision.run_eq` — what a sequence of steps makes of it;
* `Route.changes_eq_nil_iff` — nothing is changed only if no shift moves anything;
* `revise_consistent` — the parts of a revision agree.
-/

/-! ### Replacements that count -/

/-- A replacement in a document. -/
structure Edit where
  /-- The start of the range that is replaced. -/
  start : Nat
  /-- The end of the range. -/
  stop : Nat
  /-- What is put in its place. -/
  new : Replacement
deriving DecidableEq

namespace Edit

/-- Whether there is something to replace, or something to put in its place. -/
def Effective (e : Edit) : Prop :=
  e.start < e.stop ∨ e.new.size ≠ 0

instance : DecidablePred Effective := fun e =>
  inferInstanceAs (Decidable (e.start < e.stop ∨ e.new.size ≠ 0))

/-- How positions shift. -/
def shift (e : Edit) : Shift :=
  .replace e.start e.stop e.new.size

/-- How positions shift by the replacements that count, in order. -/
def shifts (edits : List Edit) : List Shift :=
  (edits.filter (·.Effective)).map shift

theorem shifts_cons (e : Edit) (edits : List Edit) :
    shifts (e :: edits) = shifts [e] ++ shifts edits := by
  rw [shifts, shifts, shifts, ← List.map_append, ← List.filter_append]
  rfl

/-- A replacement moves no position just if it does not count. -/
theorem isEmpty_shift_iff {e : Edit} (hle : e.start ≤ e.stop) :
    e.shift.isEmpty = true ↔ ¬e.Effective := by
  have hkeep : ¬e.Effective ↔ e.start = e.stop ∧ e.new.size = 0 := by
    unfold Effective
    omega
  rw [hkeep, shift, Shift.replace]
  by_cases h : e.start = e.stop ∧ e.new.size = 0
  · rw [if_pos h]
    exact ⟨fun _ => h, fun _ => rfl⟩
  · rw [if_neg h]
    exact ⟨nofun, fun h' => absurd h' h⟩

end Edit

/-- The characters that are put in take the room that the replacement says. -/
theorem Replacement.size_of_chars? {new : Replacement} {inserted : List Char}
    (h : new.chars? = some inserted) : new.size = extent Char.utf8Size inserted := by
  rw [← new.length_tokens, new.tokens_of_chars? h, length_textTokens]

/-- The nodes that are put in take the room that the replacement says. -/
theorem Replacement.size_of_nodes? {new : Replacement} {inserted : List Node}
    (h : new.nodes? = some inserted) : new.size = extent Node.size inserted := by
  rw [← new.length_tokens, new.tokens_of_nodes? h, length_flatMap_enclosed]

/-- What lies between two positions that are the same takes no room. -/
private theorem extent_middle_eq_zero {α : Type} {size : α → Nat} {l m : List α}
    (h : extent size l = extent size (l ++ m)) : extent size m = 0 := by
  rw [extent_append] at h
  omega

/-- **Nothing for nothing.**  A replacement that does not count leaves the document as it is. -/
theorem Node.Replaced.eq_self {new : Replacement} {n n' : Node} {start stop : Nat}
    (h : Replaced new n start stop n') (hrange : start = stop) (hsize : new.size = 0) :
    n' = n := by
  induction h with
  | @text tag l m r inserted h =>
    -- the characters taken out take no room, so there are none, and neither are there new ones
    obtain rfl := eq_nil_of_extent_eq_zero Char.utf8Size_pos (extent_middle_eq_zero hrange)
    rw [Replacement.size_of_chars? h] at hsize
    obtain rfl := eq_nil_of_extent_eq_zero Char.utf8Size_pos hsize
    rfl
  | @nodes tag l m r inserted h =>
    obtain rfl := eq_nil_of_extent_eq_zero size_pos (extent_middle_eq_zero hrange)
    rw [Replacement.size_of_nodes? h] at hsize
    obtain rfl := eq_nil_of_extent_eq_zero size_pos hsize
    rfl
  | within h ih => rw [ih (by omega)]

/-! ### One step -/

/-- The document after consecutive replacements, or why the first that is refused is refused. -/
def Node.replay (doc : Node) (edits : List Edit) : Except EditError Node :=
  edits.foldlM (fun n e => n.replace e.new e.start e.stop) doc

theorem Node.replay_cons {doc doc' : Node} {e : Edit} (edits : List Edit)
    (h : doc.replace e.new e.start e.stop = .ok doc') :
    doc.replay (e :: edits) = doc'.replay edits := by
  rw [replay, List.foldlM_cons, h]
  rfl

/-- The selection that a step sets. -/
def Step.selection? : Step → Option Selection
  | .replace .. => none
  | .select anchor head => some ⟨anchor, head⟩

namespace Revision

variable {r : Revision} {doc : Node} {e : Edit} {error : EditError}

/-- A replacement that the document refuses is refused for the same reason. -/
theorem apply_of_error (h : r.doc.replace e.new e.start e.stop = .error error) :
    r.apply (.replace e.start e.stop e.new) = .error error := by
  show r.replace e.start e.stop e.new = _
  rw [Revision.replace, h]

/-- **What one replacement makes of a revision.**  The document is the one after it, and its shift
    is added if it counts. -/
theorem apply_of_ok (h : r.doc.replace e.new e.start e.stop = .ok doc) :
    r.apply (.replace e.start e.stop e.new) =
      .ok { r with doc, route := ⟨r.route.shifts ++ Edit.shifts [e]⟩ } := by
  have hreplaced := replaced_of_replace h
  have hshift := Edit.isEmpty_shift_iff hreplaced.range_le.1
  show r.replace e.start e.stop e.new = _
  rw [Revision.replace, h]
  show Except.ok (if e.shift.isEmpty = true then r
    else { r with doc, route := r.route.push e.shift }) = _
  by_cases heffective : e.Effective
  · have hshifts : Edit.shifts [e] = [e.shift] := by simp [Edit.shifts, heffective]
    rw [if_neg (fun hempty => hshift.mp hempty heffective), hshifts]
    rfl
  · -- the document after it is the one before it
    have hdoc : doc = r.doc := by
      rw [Edit.Effective, not_or, Nat.not_lt, not_not] at heffective
      exact hreplaced.eq_self (Nat.le_antisymm hreplaced.range_le.1 heffective.1) heffective.2
    have hshifts : Edit.shifts [e] = [] := by simp [Edit.shifts, heffective]
    rw [if_pos (hshift.mpr heffective), hshifts, hdoc, List.append_nil]

/-- A revision refuses what its document refuses, and leads to the same document. -/
theorem apply_replace (r : Revision) (e : Edit) :
    (r.apply (.replace e.start e.stop e.new)).map (·.doc) = r.doc.replace e.new e.start e.stop := by
  cases h : r.doc.replace e.new e.start e.stop with
  | error error => rw [apply_of_error h]; rfl
  | ok doc => rw [apply_of_ok h]; rfl

/-- A step that is refused leaves a revision as it is. -/
theorem attempt_of_error {step : Step} (h : r.apply step = .error error) : r.attempt step = r := by
  rw [attempt, h]

theorem attempt_of_ok {step : Step} {next : Revision} (h : r.apply step = .ok next) :
    r.attempt step = next := by
  rw [attempt, h]

/-- One more step at the end. -/
theorem run_concat (r : Revision) (steps : List Step) (step : Step) :
    r.run (steps ++ [step]) = (r.run steps).attempt step := by
  rw [run, run, List.foldl_append]
  rfl

end Revision

/-! ### Consecutive steps -/

/-- The replacements of a sequence of steps that are not refused.  Each is tried on the document to
    which those before it lead. -/
def Node.accepted (doc : Node) : List Step → List Edit
  | [] => []
  | .select _ _ :: steps => doc.accepted steps
  | .replace start stop new :: steps =>
    match doc.replace new start stop with
    | .error _ => doc.accepted steps
    | .ok next => ⟨start, stop, new⟩ :: next.accepted steps

/-- The selection that consecutive steps leave set. -/
def lastSelection (steps : List Step) : Option Selection :=
  (steps.filterMap Step.selection?).getLast?

theorem lastSelection_replace (start stop : Nat) (new : Replacement) (steps : List Step) :
    lastSelection (.replace start stop new :: steps) = lastSelection steps := rfl

/-- What a step sets is left set unless a later one sets another selection. -/
theorem lastSelection_select (anchor head : Nat) (steps : List Step) :
    lastSelection (.select anchor head :: steps) =
      some ((lastSelection steps).getD ⟨anchor, head⟩) :=
  List.getLast?_cons

/-- **A run is its replacements.**  The document is that after the replacements that are not
    refused, and the shifts of those that count are added. -/
theorem Revision.run_eq (r : Revision) (steps : List Step) :
    ∃ doc, r.doc.replay (r.doc.accepted steps) = .ok doc ∧
      r.run steps =
        { before := r.before
          doc
          route := ⟨r.route.shifts ++ Edit.shifts (r.doc.accepted steps)⟩
          selection := (lastSelection steps).or r.selection } := by
  -- the shifts so far and the selection so far are those of any revision to start with
  induction steps generalizing r with
  | nil =>
    refine ⟨r.doc, rfl, ?_⟩
    show r = { r with route := ⟨r.route.shifts ++ []⟩ }
    rw [List.append_nil]
  | cons step steps ih =>
    show ∃ doc, _ ∧ (r.attempt step).run steps = _
    cases step with
    | select anchor head =>
      obtain ⟨doc, hreplay, hrun⟩ := ih (r.select anchor head)
      refine ⟨doc, hreplay, ?_⟩
      have hselection : (lastSelection steps).or (some ⟨anchor, head⟩) =
          (lastSelection (.select anchor head :: steps)).or r.selection := by
        rw [lastSelection_select]
        cases lastSelection steps <;> rfl
      rw [← hselection]
      exact hrun
    | replace start stop new =>
      cases hdoc : r.doc.replace new start stop with
      | error error =>
        have haccepted : r.doc.accepted (.replace start stop new :: steps) =
            r.doc.accepted steps := by
          simp only [Node.accepted, hdoc]
        obtain ⟨doc, hreplay, hrun⟩ := ih r
        rw [attempt_of_error (apply_of_error (e := ⟨start, stop, new⟩) hdoc), haccepted]
        exact ⟨doc, hreplay, hrun⟩
      | ok next =>
        have haccepted : r.doc.accepted (.replace start stop new :: steps) =
            ⟨start, stop, new⟩ :: next.accepted steps := by
          simp only [Node.accepted, hdoc]
        obtain ⟨doc, hreplay, hrun⟩ := ih
          { r with doc := next, route := ⟨r.route.shifts ++ Edit.shifts [⟨start, stop, new⟩]⟩ }
        refine ⟨doc, ?_, ?_⟩
        · rw [haccepted, Node.replay_cons _ hdoc]
          exact hreplay
        · rw [attempt_of_ok (apply_of_ok (e := ⟨start, stop, new⟩) hdoc), hrun, haccepted,
            Edit.shifts_cons ⟨start, stop, new⟩ (next.accepted steps), List.append_assoc,
            lastSelection_replace]

/-! ### Whether anything changed -/

/-- **What nothing changed means.**  A route has no changed range just if none of its shifts moves
    any position. -/
theorem Route.changes_eq_nil_iff {r : Route} :
    r.changes = [] ↔ ∀ s ∈ r.shifts, s.isEmpty = true := by
  constructor
  · intro hnil s hs
    obtain ⟨earlier, later, hshifts⟩ := List.append_of_mem hs
    cases s with
    | keep => rfl
    | splice start removed inserted =>
      -- what it touches is a changed range, seen through the shifts around it
      have hmem : widen earlier.reverse later _ ∈ r.changes :=
        mem_changes_iff.mpr ⟨earlier, _, later, hshifts, _, List.mem_singleton_self _, rfl⟩
      rw [hnil] at hmem
      cases hmem
  · intro hempty
    refine List.eq_nil_iff_forall_not_mem.mpr fun c hc => ?_
    obtain ⟨earlier, s, later, hshifts, d, hd, -⟩ := mem_changes_iff.mp hc
    have hs := hempty s (by simp [hshifts])
    cases s with
    | keep => cases hd
    | splice => cases hs

/-- A revision has no shift that moves nothing. -/
theorem Node.Revised.isEmpty_eq_false {n n' : Node} {shifts : List Shift}
    (h : Revised n shifts n') : ∀ s ∈ shifts, s.isEmpty = false := by
  induction h with
  | refl => exact fun _ hs => nomatch hs
  | snoc _ _ hshift ih =>
    intro s hs
    rcases List.mem_append.mp hs with hs | hs
    · exact ih s hs
    · rw [List.mem_singleton.mp hs]
      exact hshift

/-- A revision says that it changed the document just if it has a changed range. -/
theorem Revision.changesDocument_eq_false_iff (doc : Node) (steps : List Step) :
    (doc.revise steps).changesDocument = false ↔ Carrier.changes (doc.revise steps) = [] := by
  have hshifts := (Revision.revised_run doc steps).isEmpty_eq_false
  have hchanges : Carrier.changes (doc.revise steps) = [] ↔
      ∀ s ∈ (doc.revise steps).route.shifts, s.isEmpty = true := Route.changes_eq_nil_iff
  have hunchanged : (doc.revise steps).changesDocument = false ↔
      (doc.revise steps).route.shifts = [] := by
    rw [changesDocument, Bool.not_eq_false', List.isEmpty_iff]
  -- no shift of a revision moves nothing, so there are none just if each of them moves nothing
  rw [hchanges, hunchanged, List.eq_nil_iff_forall_not_mem]
  refine forall_congr' fun s => imp_congr_right fun hs => ?_
  rw [hshifts s hs]
  simp

/-! ### The parts of a revision -/

/-- **The parts of a revision agree**, whatever steps are tried.  The document before stays what it
    was.  The document so far is what the replacements that are not refused make of it, one after
    the other, and the shifts are those of the ones that count, in the same order.  The selection is
    the one set last.  A step that is refused changes nothing, and one that sets the selection
    changes nothing else.  A revision says that it did not change the document just if it has no
    changed range, and then the document is the one before and each position stays where it was. -/
theorem revise_consistent (doc : Node) (steps : List Step) :
    (doc.revise steps).before = doc ∧
      doc.replay (doc.accepted steps) = .ok (doc.revise steps).doc ∧
      (doc.revise steps).route.shifts =
        ((doc.accepted steps).filter (·.Effective)).map Edit.shift ∧
      (doc.revise steps).selection = lastSelection steps ∧
      (∀ step error, (doc.revise steps).apply step = .error error →
        doc.revise (steps ++ [step]) = doc.revise steps) ∧
      (∀ e : Edit, ((doc.revise steps).apply (.replace e.start e.stop e.new)).map (·.doc) =
        (doc.revise steps).doc.replace e.new e.start e.stop) ∧
      (∀ anchor head, doc.revise (steps ++ [.select anchor head]) =
        { doc.revise steps with selection := some ⟨anchor, head⟩ }) ∧
      ((doc.revise steps).changesDocument = false ↔ Carrier.changes (doc.revise steps) = []) ∧
      ((doc.revise steps).changesDocument = false → (doc.revise steps).doc = doc ∧
        ∀ pos bias, Carrier.land (doc.revise steps) pos bias = ⟨pos, false⟩) := by
  obtain ⟨final, hreplay, hrun⟩ := (Revision.start doc).run_eq steps
  have hrevise : doc.revise steps =
      { before := doc
        doc := final
        route := ⟨Edit.shifts (doc.accepted steps)⟩
        selection := lastSelection steps } := by
    rw [revise, hrun]
    show Revision.mk doc final _ ((lastSelection steps).or none) = _
    rw [Option.or_none]
    rfl
  refine ⟨by rw [hrevise], by rw [hrevise]; exact hreplay, by rw [hrevise]; rfl, by rw [hrevise],
    fun step error hrefused => ?_, fun e => Revision.apply_replace _ e, fun anchor head => ?_,
    Revision.changesDocument_eq_false_iff doc steps, fun hunchanged => ?_⟩
  · rw [revise, Revision.run_concat, Revision.attempt_of_error hrefused]
  · rw [revise, Revision.run_concat]
    rfl
  · obtain ⟨hshifts, hdoc⟩ := Revision.eq_of_unchanged hunchanged
    refine ⟨hdoc, fun pos bias => ?_⟩
    show Route.landThrough (doc.revise steps).route.shifts pos bias = _
    rw [hshifts]
    rfl

/-- A letter is put into a text.  A reversed range is tried before, and nothing is put in the place
    of nothing after. -/
def letterSteps : List Step :=
  [.delete 2 1, .insertText 1 "x", .delete 3 3, .select 0 3]

/-- Of the three replacements one is refused and one does not count.  One more reversed range
    changes nothing, and the one that does not count, taken alone, moves no position. -/
theorem revise_consistent_letter :
    ((textDoc "ab").revise letterSteps).route.shifts = [.splice 1 0 1] ∧
      ((textDoc "ab").revise letterSteps).selection = some ⟨0, 3⟩ ∧
      (textDoc "ab").replay [⟨1, 1, .text "x"⟩, ⟨3, 3, .empty⟩] =
        .ok ((textDoc "ab").revise letterSteps).doc ∧
      ((textDoc "ab").revise letterSteps).apply (.delete 3 1) = .error (.outside 3 1 3) ∧
      (textDoc "ab").revise (letterSteps ++ [.delete 3 1]) = (textDoc "ab").revise letterSteps ∧
      ((textDoc "axb").revise [.delete 3 3]).changesDocument = false ∧
      Carrier.land ((textDoc "axb").revise [.delete 3 3]) 3 .left = ⟨3, false⟩ := by
  obtain ⟨-, hreplay, hshifts, hselection, hrefused, -⟩ :=
    revise_consistent (textDoc "ab") letterSteps
  obtain ⟨-, -, -, -, -, -, -, -, hunchanged⟩ := revise_consistent (textDoc "axb") [.delete 3 3]
  have herror : ((textDoc "ab").revise letterSteps).apply (.delete 3 1) =
      .error (.outside 3 1 3) := rfl
  exact ⟨hshifts, hselection, hreplay, herror, hrefused _ _ herror, rfl, (hunchanged rfl).2 3 .left⟩

end CodeOverlay
