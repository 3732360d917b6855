import Mathlib.Data.List.Induction
import CodeOverlay.Proofs.Surroundings
import CodeOverlay.Proofs.Walking

namespace CodeOverlay

open Node

/-!
# Nodes keep track of their positions

A replacement finds each node of a document apart from its range, around it, or covered by it.
The position of a node then leads to where the node has gone: unchanged if it was apart from the
range, and as what it was if it was around it.

* `Apart`, `Around`, `Covered` — how a node lies to a range;
* `Replaced.lies` — there is no other way for it to lie;
* `Replaced.nodeAt?_before`, `Replaced.nodeAt?_after` — a node apart from the range is found again;
* `Node.EachMeets` — how the node at a position lies to each range that a revision replaces;
* `exists_of_eachMeets` — what each replacement keeps of the node, the revision keeps;
* `positions_track_nodes` — all of it together.
-/

variable {new : Replacement} {n n' m doc : Node} {start stop size pos : Nat} {bias : Bias}
variable {steps : List Step}

/-! ### How a node lies to a range -/

/-- The `size` positions from `pos` on are before the range or after it. -/
def Apart (start stop pos size : Nat) : Prop :=
  pos + size ≤ start ∨ stop ≤ pos

/-- The range is strictly inside the `size` positions from `pos` on. -/
def Around (start stop pos size : Nat) : Prop :=
  pos < start ∧ stop < pos + size

/-- The `size` positions from `pos` on are in the range, which is not empty. -/
def Covered (start stop pos size : Nat) : Prop :=
  start < stop ∧ start ≤ pos ∧ pos + size ≤ stop

instance : Decidable (Apart start stop pos size) :=
  inferInstanceAs (Decidable (_ ∨ _))

instance : Decidable (Around start stop pos size) :=
  inferInstanceAs (Decidable (_ ∧ _))

namespace Node.Replaced

/-- **How a node lies to the range.**  A range starts and ends between two children of the node
    that it lies in, so no node reaches across one of its ends. -/
theorem lies (h : Replaced new n start stop n') (hm : n.nodeAt? pos = some m) :
    Apart start stop pos m.size ∨ Around start stop pos m.size ∨ Covered start stop pos m.size := by
  have hsize := m.size_pos
  unfold Apart Around Covered
  induction h generalizing pos with
  | text => simp at hm
  | @nodes tag l mid r inserted =>
    -- the node is in one of the children, of which some give way
    rw [nodeAt?_branch, List.append_assoc, nodeAtAll?_append, nodeAtAll?_append] at hm
    rw [extent_append]
    by_cases hl : pos < extent size l
    · rw [if_pos hl] at hm
      have := nodeAtAll?_le hm
      omega
    rw [if_neg hl] at hm
    by_cases hmid : pos - extent size l < extent size mid
    · rw [if_pos hmid] at hm
      have := nodeAtAll?_le hm
      omega
    · omega
  | @within tag l r n n' start stop h ih =>
    have hrange := h.range_le
    have hn := n.size_eq
    rw [nodeAt?_branch] at hm
    obtain ⟨-, hle⟩ | ⟨rfl, rfl⟩ | ⟨p, rfl, hp, -⟩ | ⟨p, rfl, -⟩ := nodeAtAll?_cases hm
    · omega
    · omega
    · have := ih hp
      omega
    · omega

/-- A node before the range stays where it is. -/
theorem nodeAt?_before (h : Replaced new n start stop n') (hm : n.nodeAt? pos = some m)
    (hle : pos + m.size ≤ start) : n'.nodeAt? pos = some m := by
  have hsize := m.size_pos
  induction h generalizing pos with
  | text => simp at hm
  | @nodes tag l mid r inserted =>
    rw [nodeAt?_branch, List.append_assoc, nodeAtAll?_append, if_pos (by omega)] at hm
    rw [nodeAt?_branch, List.append_assoc]
    exact nodeAtAll?_append_left _ hm
  | @within tag l r n n' start stop h ih =>
    have hrange := h.range_le
    have hn := n.size_eq
    rw [nodeAt?_branch] at hm ⊢
    obtain ⟨hl, -⟩ | ⟨rfl, rfl⟩ | ⟨p, rfl, hp, -⟩ | ⟨p, rfl, -⟩ := nodeAtAll?_cases hm
    · exact nodeAtAll?_append_left _ hl
    · omega
    · rw [Nat.add_assoc]
      exact nodeAtAll?_append_right l (nodeAtAll?_cons_inside r (ih hp (by omega)))
    · omega

/-- A node after the range goes along with the end of the range. -/
theorem nodeAt?_after (h : Replaced new n start stop n') (hm : n.nodeAt? pos = some m)
    (hle : stop ≤ pos) : n'.nodeAt? (start + new.size + (pos - stop)) = some m := by
  have hsize := m.size_pos
  induction h generalizing pos with
  | text => simp at hm
  | @nodes tag l mid r inserted hnew =>
    have hinserted : new.size = extent size inserted := by
      rw [← new.length_tokens, new.tokens_of_nodes? hnew, length_flatMap_enclosed]
    rw [nodeAt?_branch, nodeAtAll?_append, if_neg (by omega)] at hm
    rw [nodeAt?_branch, hinserted, ← extent_append]
    exact nodeAtAll?_append_right _ hm
  | @within tag l r n n' start stop h ih =>
    have hrange := h.range_le
    have hgrow := h.contentSize_eq
    have hn := n.size_eq
    have hn' := n'.size_eq
    rw [nodeAt?_branch] at hm ⊢
    obtain ⟨-, hl⟩ | ⟨rfl, rfl⟩ | ⟨p, rfl, hp, -⟩ | ⟨p, rfl, hr⟩ := nodeAtAll?_cases hm
    · omega
    · omega
    · have hpos : extent size l + 1 + start + new.size +
          (extent size l + 1 + p - (extent size l + 1 + stop)) =
            extent size l + (1 + (start + new.size + (p - stop))) := by
        omega
      rw [hpos]
      exact nodeAtAll?_append_right l (nodeAtAll?_cons_inside r (ih hp (by omega)))
    · -- the child grows as its content does, and what comes after it moves as far
      have hpos : extent size l + 1 + start + new.size +
          (extent size l + n.size + p - (extent size l + 1 + stop)) =
            extent size (l ++ [n']) + p := by
        rw [extent_append, extent_cons, extent_nil]
        omega
      rw [hpos, List.append_cons]
      exact nodeAtAll?_append_right (l ++ [n']) hr

end Node.Replaced

/-! ### Where the position of a node leads -/

/-- A position before the range stays. -/
theorem Shift.land_of_lt (hlt : pos < start) :
    (Shift.replace start stop size).land pos bias = ⟨pos, false⟩ := by
  unfold Shift.replace
  split
  · rfl
  · simp [land, hlt]

/-- A position at the end of the range or after it goes along with the end. -/
theorem Shift.land_of_le (hle : start ≤ stop) (h : stop ≤ pos) :
    (Shift.replace start stop size).land pos .right = ⟨start + size + (pos - stop), false⟩ := by
  unfold Shift.replace
  by_cases hkeep : start = stop ∧ size = 0
  · rw [if_pos hkeep]
    show (⟨pos, false⟩ : Landing) = _
    rw [Landing.mk.injEq]
    exact ⟨by omega, rfl⟩
  rw [if_neg hkeep]
  simp only [land]
  rw [if_neg (by omega)]
  by_cases hend : pos ≤ start + (stop - start)
  · -- at the end of the range it goes to the right, be it by force or by the bias
    have hside : side start (stop - start) pos .right = .right := by
      unfold side
      by_cases hempty : stop - start = 0
      · rw [if_pos hempty]
      · rw [if_neg hempty, if_neg (by omega), if_pos (by omega)]
    rw [if_pos hend, hside]
    show (⟨start + size, pos != start + (stop - start)⟩ : Landing) = _
    have hpos : pos = start + (stop - start) := by omega
    rw [← hpos, bne_self_eq_false, Landing.mk.injEq]
    exact ⟨by omega, rfl⟩
  · rw [if_neg hend, Landing.mk.injEq]
    exact ⟨by omega, rfl⟩

/-- A position inside the range is deleted. -/
theorem Shift.deleted_of_lt_of_lt (hstart : start < pos) (hstop : pos < stop) :
    ((Shift.replace start stop size).land pos bias).deleted = true := by
  unfold Shift.replace
  rw [if_neg (by omega)]
  simp only [land]
  rw [if_neg (by omega), if_pos (by omega)]
  cases side start (stop - start) pos bias with
  | left =>
    show (pos != start) = true
    exact bne_iff_ne.mpr (by omega)
  | right =>
    show (pos != start + (stop - start)) = true
    exact bne_iff_ne.mpr (by omega)

/-- **A node apart from the range** is found unchanged where its position leads. -/
theorem Node.Replaced.exists_of_apart (h : Replaced new n start stop n')
    (hm : n.nodeAt? pos = some m) (hapart : Apart start stop pos m.size) :
    ∃ q, (Shift.replace start stop new.size).land pos .right = ⟨q, false⟩ ∧
      n'.nodeAt? q = some m := by
  have hsize := m.size_pos
  rcases hapart with hle | hle
  · exact ⟨pos, Shift.land_of_lt (by omega), h.nodeAt?_before hm hle⟩
  · exact ⟨_, Shift.land_of_le h.range_le.1 hle, h.nodeAt?_after hm hle⟩

/-- **A node around the range** stays what it is and where it is. -/
theorem Node.Replaced.exists_of_around (h : Replaced new n start stop n')
    (hm : n.nodeAt? pos = some m) (haround : Around start stop pos m.size) :
    (∀ bias, (Shift.replace start stop new.size).land pos bias = ⟨pos, false⟩) ∧
      ∃ m', n'.nodeAt? pos = some m' ∧ m'.tag = m.tag := by
  obtain ⟨m', hm', hinner⟩ := h.nodeAt?_around hm haround.1 haround.2
  exact ⟨fun bias => Shift.land_of_lt haround.1, m', hm', hinner.tag_eq⟩

/-- A node that is not covered is found, as what it was, where its position leads. -/
theorem Node.Replaced.exists_of_uncovered (h : Replaced new n start stop n')
    (hm : n.nodeAt? pos = some m)
    (hmeets : Apart start stop pos m.size ∨ Around start stop pos m.size) :
    ∃ q m', (Shift.replace start stop new.size).land pos .right = ⟨q, false⟩ ∧
      n'.nodeAt? q = some m' ∧ m'.tag = m.tag := by
  rcases hmeets with hapart | haround
  · obtain ⟨q, hland, hm'⟩ := h.exists_of_apart hm hapart
    exact ⟨q, m, hland, hm', rfl⟩
  · obtain ⟨hland, m', hm', htag⟩ := h.exists_of_around hm haround
    exact ⟨pos, m', hland .right, hm', htag⟩

/-! ### Several replacements -/

/-- Whether `meets` holds of each range that a revision of `doc` replaces, together with the room
    of the node that is then where `pos` leads.  Steps that are refused do not count. -/
def Node.EachMeets (doc : Node) (steps : List Step) (pos : Nat)
    (meets : (start stop pos size : Nat) → Prop) : Prop :=
  ∀ earlier later start stop new next m, steps = earlier ++ .replace start stop new :: later →
    (doc.revise earlier).doc.replace new start stop = .ok next →
    (doc.revise earlier).doc.nodeAt? (Carrier.carry (doc.revise earlier) pos .right) = some m →
      meets start stop (Carrier.carry (doc.revise earlier) pos .right) m.size

/-- What holds of each replacement holds of those before the last step. -/
theorem Node.EachMeets.init {meets : (start stop pos size : Nat) → Prop} {step : Step}
    (h : doc.EachMeets (steps ++ [step]) pos meets) : doc.EachMeets steps pos meets := by
  intro earlier later start stop new next m hsteps hnext hm
  exact h earlier (later ++ [step]) start stop new next m (by simp [hsteps]) hnext hm

/-- A revision by one more step. -/
theorem Node.revise_concat (doc : Node) (steps : List Step) (step : Step) :
    doc.revise (steps ++ [step]) = (doc.revise steps).attempt step := by
  simp [Revision.run]

/-- **What each replacement keeps of a node, a revision keeps.**  If it keeps the node where its
    position leads, up to a relation, then so does a revision by such replacements. -/
theorem exists_of_eachMeets {meets : (start stop pos size : Nat) → Prop}
    (keeps : Node → Node → Prop) (hrefl : ∀ m, keeps m m)
    (htrans : ∀ m m' m'', keeps m m' → keeps m' m'' → keeps m m'')
    (hstep : ∀ {new n n' start stop pos m}, Replaced new n start stop n' →
      n.nodeAt? pos = some m → meets start stop pos m.size →
        ∃ q m', (Shift.replace start stop new.size).land pos .right = ⟨q, false⟩ ∧
          n'.nodeAt? q = some m' ∧ keeps m m')
    (hm : doc.nodeAt? pos = some m) (h : doc.EachMeets steps pos meets) :
    ∃ q m', Carrier.land (doc.revise steps) pos .right = ⟨q, false⟩ ∧
      (doc.revise steps).doc.nodeAt? q = some m' ∧ keeps m m' := by
  induction steps using List.reverseRecOn with
  | nil => exact ⟨pos, m, rfl, hm, hrefl m⟩
  | append_singleton steps step ih =>
    obtain ⟨q, m', hland, hm', hkeeps⟩ := ih h.init
    rw [revise_concat]
    obtain ⟨selection, hr⟩ | ⟨start, stop, new, doc', rfl, hdoc, -, hr⟩ :=
      (doc.revise steps).attempt_cases step
    · rw [hr]
      exact ⟨q, m', hland, hm', hkeeps⟩
    · -- the node is at `q` by now, and the last replacement keeps it once more
      have hcarry : Carrier.carry (doc.revise steps) pos .right = q := congrArg Landing.pos hland
      have hmeets : meets start stop q m'.size := by
        have := h steps [] start stop new doc' m' rfl hdoc (by rw [hcarry]; exact hm')
        rwa [hcarry] at this
      obtain ⟨q', m'', hland', hm'', hkeeps'⟩ := hstep (replaced_of_replace hdoc) hm' hmeets
      rw [hr]
      refine ⟨q', m'', ?_, hm'', htrans _ _ _ hkeeps hkeeps'⟩
      have hroute : Route.landThrough (doc.revise steps).route.shifts pos .right = ⟨q, false⟩ :=
        hland
      show Route.landThrough ((doc.revise steps).route.shifts ++ _) pos .right = _
      rw [Route.landThrough_concat, hroute, hland']
      rfl

/-- A node that each replacement finds apart from its range is found where its position leads. -/
theorem Node.EachMeets.exists_of_apart (h : doc.EachMeets steps pos Apart)
    (hm : doc.nodeAt? pos = some m) :
    ∃ q, Carrier.land (doc.revise steps) pos .right = ⟨q, false⟩ ∧
      (doc.revise steps).doc.nodeAt? q = some m := by
  obtain ⟨q, m', hland, hm', rfl⟩ := exists_of_eachMeets (fun m m' => m' = m) (fun _ => rfl)
    (fun _ _ _ h h' => h'.trans h)
    (fun h hm hapart => by
      obtain ⟨q, hland, hm'⟩ := h.exists_of_apart hm hapart
      exact ⟨q, _, hland, hm', rfl⟩) hm h
  exact ⟨q, hland, hm'⟩

/-- A node that no replacement covers is found, as what it was, where its position leads. -/
theorem Node.EachMeets.exists_of_uncovered
    (h : doc.EachMeets steps pos fun start stop pos size =>
      Apart start stop pos size ∨ Around start stop pos size)
    (hm : doc.nodeAt? pos = some m) :
    ∃ q m', Carrier.land (doc.revise steps) pos .right = ⟨q, false⟩ ∧
      (doc.revise steps).doc.nodeAt? q = some m' ∧ m'.tag = m.tag :=
  exists_of_eachMeets (fun m m' => m'.tag = m.tag) (fun _ => rfl) (fun _ _ _ h h' => h'.trans h)
    (fun h hm hmeets => h.exists_of_uncovered hm hmeets) hm h

/-- **Positions track nodes.**  A replacement finds a node in one of three ways to its range.  The
    position of a node apart from the range leads to the same node, that of a node around it to
    a node that is what the node was, and a position inside the range is deleted.  A revision leads
    the position of a node to the node if each of its replacements finds the node in one of the
    first two ways, and unchanged if always in the first. -/
theorem positions_track_nodes :
    (∀ (n n' m : Node) (new : Replacement) (start stop pos : Nat),
      n.replace new start stop = .ok n' → ⟨m, pos⟩ ∈ n.descendants (fun _ _ => true) →
        ((Apart start stop pos m.size ∨ Around start stop pos m.size ∨
            Covered start stop pos m.size) ∧
          ¬(Apart start stop pos m.size ∧ Around start stop pos m.size) ∧
          ¬(Apart start stop pos m.size ∧ Covered start stop pos m.size) ∧
          ¬(Around start stop pos m.size ∧ Covered start stop pos m.size)) ∧
        (Apart start stop pos m.size →
          ∃ q, (Shift.replace start stop new.size).land pos .right = ⟨q, false⟩ ∧
            n'.nodeAt? q = some m) ∧
        (Around start stop pos m.size →
          (∀ bias, (Shift.replace start stop new.size).land pos bias = ⟨pos, false⟩) ∧
            ∃ m', n'.nodeAt? pos = some m' ∧ m'.tag = m.tag) ∧
        (Covered start stop pos m.size → start < pos →
          ∀ bias, ((Shift.replace start stop new.size).land pos bias).deleted = true)) ∧
    ∀ (doc m : Node) (steps : List Step) (pos : Nat),
      ⟨m, pos⟩ ∈ doc.descendants (fun _ _ => true) →
      (doc.EachMeets steps pos fun start stop pos size =>
        Apart start stop pos size ∨ Around start stop pos size) →
        ∃ q m', Carrier.land (doc.revise steps) pos .right = ⟨q, false⟩ ∧
          (doc.revise steps).doc.nodeAt? q = some m' ∧ m'.tag = m.tag ∧
          (doc.EachMeets steps pos Apart → m' = m) := by
  refine ⟨?_, ?_⟩
  · intro n n' m new start stop pos h hm
    have hreplaced := replaced_of_replace h
    have hrange := hreplaced.range_le
    have hsize := m.size_pos
    rw [mem_descendants_iff] at hm
    refine ⟨⟨hreplaced.lies hm, ?_, ?_, ?_⟩, hreplaced.exists_of_apart hm,
      hreplaced.exists_of_around hm, ?_⟩
    · unfold Apart Around
      omega
    · unfold Apart Covered
      omega
    · unfold Around Covered
      omega
    · rintro ⟨-, -, hcovered⟩ hstart bias
      exact Shift.deleted_of_lt_of_lt hstart (by omega)
  · intro doc m steps pos hm h
    rw [mem_descendants_iff] at hm
    obtain ⟨q, m', hland, hm', htag⟩ := h.exists_of_uncovered hm
    refine ⟨q, m', hland, hm', htag, fun hapart => ?_⟩
    obtain ⟨q', hland', hm''⟩ := hapart.exists_of_apart hm
    rw [hland, Landing.mk.injEq] at hland'
    obtain ⟨rfl, -⟩ := hland'
    exact Option.some.inj (hm'.symm.trans hm'')

/-- A letter of a quoted paragraph is replaced, and then a paragraph is put in front of all: the
    first step finds the quote around its range, the second one finds it after its range. -/
def quotedSteps : List Step :=
  [.replace 7 8 (.text "xyz"), .insert 0 [paragraph "e"]]

/-- The quote is found again after both steps.  A deletion of the quote deletes the position of the
    paragraph in it. -/
theorem positions_track_nodes_quoted :
    ((quoted "cd").EachMeets quotedSteps 4 fun start stop pos size =>
        Apart start stop pos size ∨ Around start stop pos size) ∧
      (∃ q quote, Carrier.land ((quoted "cd").revise quotedSteps) 4 .right = ⟨q, false⟩ ∧
        ((quoted "cd").revise quotedSteps).doc.nodeAt? q = some quote ∧
          quote.tag = { kind := "quote" }) ∧
      (quoted "cd").replace .empty 4 10 = .ok (Node.doc [paragraph "ab"]) ∧
      ⟨paragraph "cd", 5⟩ ∈ (quoted "cd").descendants (fun _ _ => true) ∧
      ((Shift.replace 4 10 0).land 5 .right).deleted = true := by
  have hmeets : (quoted "cd").EachMeets quotedSteps 4 fun start stop pos size =>
      Apart start stop pos size ∨ Around start stop pos size := by
    intro earlier later start stop new next m hsteps hnext hm
    match earlier, hsteps with
    | [], hsteps =>
      cases hsteps
      obtain rfl := Option.some.inj hm
      decide
    | [_], hsteps =>
      cases hsteps
      obtain rfl := Option.some.inj hm
      decide
    | _ :: _ :: _, hsteps => simp [quotedSteps] at hsteps
  have hdelete : (quoted "cd").replace .empty 4 10 = .ok (Node.doc [paragraph "ab"]) := rfl
  have hquote : ⟨.branch { kind := "quote" } [paragraph "cd"], 4⟩ ∈
      (quoted "cd").descendants (fun _ _ => true) := mem_descendants_iff.mpr rfl
  have hpar : ⟨paragraph "cd", 5⟩ ∈ (quoted "cd").descendants (fun _ _ => true) :=
    mem_descendants_iff.mpr rfl
  obtain ⟨q, quote, hland, hfound, htag, -⟩ := positions_track_nodes.2 _ _ _ _ hquote hmeets
  have hcovered := (positions_track_nodes.1 _ _ _ _ _ _ _ hdelete hpar).2.2.2
  exact ⟨hmeets, ⟨q, quote, hland, hfound, htag⟩, hdelete, hpar,
    hcovered ⟨by decide, by decide, by decide⟩ (by decide) .right⟩

end CodeOverlay
