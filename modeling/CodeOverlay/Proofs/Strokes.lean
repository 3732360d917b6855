import Mathlib.Data.List.Basic
import CodeOverlay.Overlay.Render

namespace CodeOverlay

/-!
# Strokes are not empty

Painting yields no empty strokes.  So decorations that go through a change of nothing are the
same afterwards: no stroke is dropped for being empty, and the order is already the one in
which they are put.

* `lt_of_mem_paint`, `SyntaxTree.lt_of_mem_strokes` — what is painted is not empty;
* `lt_of_mem_render` — nor are the strokes of a rendering;
* `filter_mergeSort` — sorting leaves items in their order that may stand in any order;
* `Decorations.sorts_ofStrokes` — the strokes of decorations are sorted by their starts;
* `Decorations.carry_eq_self` — a change that moves no position keeps the decorations.
-/

variable {limit cursor : Nat} {s : Stroke} {opened captures strokes : List Stroke}

/-! ### Painting -/

/-- Each stroke that is painted up to a position covers something. -/
theorem lt_of_mem_paintTo (h : s ∈ (paintTo limit opened cursor).1) : s.start < s.stop := by
  induction opened generalizing cursor with
  | nil => cases h
  | cons top below ih =>
    unfold paintTo at h
    by_cases hlimit : limit ≤ cursor
    · rw [if_pos hlimit] at h
      cases h
    rw [if_neg hlimit] at h
    by_cases hstop : top.stop ≤ cursor
    · rw [if_pos hstop] at h
      exact ih h
    rw [if_neg hstop] at h
    -- the open capture reaches beyond `cursor`, and so does `limit`
    by_cases hreach : limit ≤ top.stop
    · rw [if_pos hreach, List.mem_singleton] at h
      subst h
      show cursor < limit
      omega
    · rw [if_neg hreach] at h
      rcases List.mem_cons.mp h with rfl | h
      · show cursor < top.stop
        omega
      · exact ih h

/-- Each stroke that is painted after the last capture was opened covers something. -/
theorem lt_of_mem_paintRest (h : s ∈ paintRest opened cursor) : s.start < s.stop := by
  induction opened generalizing cursor with
  | nil => cases h
  | cons top below ih =>
    unfold paintRest at h
    by_cases hstop : top.stop ≤ cursor
    · rw [if_pos hstop] at h
      exact ih h
    · rw [if_neg hstop] at h
      rcases List.mem_cons.mp h with rfl | h
      · show cursor < top.stop
        omega
      · exact ih h

theorem lt_of_mem_sweep (h : s ∈ sweep captures opened cursor) : s.start < s.stop := by
  induction captures generalizing opened cursor with
  | nil => exact lt_of_mem_paintRest h
  | cons c captures ih =>
    rcases List.mem_append.mp h with h | h
    · exact lt_of_mem_paintTo h
    · exact ih h

/-- Joining strokes that touch does not make them empty. -/
theorem lt_of_mem_joinTouching (hstrokes : ∀ t ∈ strokes, t.start < t.stop)
    (h : s ∈ joinTouching strokes) : s.start < s.stop := by
  induction strokes generalizing s with
  | nil => cases h
  | cons first strokes ih =>
    have hfirst : first.start < first.stop := hstrokes first (by simp)
    have hrest : ∀ t ∈ joinTouching strokes, t.start < t.stop := fun t ht =>
      ih (fun t ht => hstrokes t (by simp [ht])) ht
    rw [joinTouching, List.foldr_cons, ← joinTouching] at h
    cases hjoined : joinTouching strokes with
    | nil =>
      rw [hjoined, joinFront, List.mem_singleton] at h
      rw [h]
      exact hfirst
    | cons t rest =>
      rw [hjoined] at h hrest
      simp only [joinFront] at h
      by_cases htouch : first.stop = t.start ∧ first.style = t.style
      · -- the two become one, from the start of the first to the end of the second
        rw [if_pos htouch] at h
        rcases List.mem_cons.mp h with rfl | h
        · have ht := hrest t (by simp)
          show first.start < t.stop
          omega
        · exact hrest s (by simp [h])
      · rw [if_neg htouch] at h
        rcases List.mem_cons.mp h with rfl | h
        · exact hfirst
        · exact hrest s h

/-- **What is painted is not empty.** -/
theorem lt_of_mem_paint (h : s ∈ paint captures) : s.start < s.stop :=
  lt_of_mem_joinTouching (fun _ ht => lt_of_mem_sweep ht) h

theorem SyntaxTree.lt_of_mem_strokes {styling : Styling} {tree : SyntaxTree}
    (h : s ∈ tree.strokes styling) : s.start < s.stop :=
  lt_of_mem_paint h

/-- The strokes of a rendering are not empty, wherever the node stands. -/
theorem lt_of_mem_render {styling : Styling} {parser : Parser} {text : String} {pos : Spot}
    {prior : Option SyntaxTree} {r : Rendering}
    (hr : render styling parser text pos prior = .ok r) (h : s ∈ r.strokes) :
    s.start < s.stop := by
  obtain ⟨tree, -, rfl⟩ := map_eq_ok_iff.mp hr
  obtain ⟨t, ht, rfl⟩ := List.mem_map.mp h
  have := tree.lt_of_mem_strokes ht
  show t.start + pos.origin < t.stop + pos.origin
  omega

/-! ### Sorting -/

/-- Sorting leaves items in their order if any of them may stand before any other. -/
theorem filter_mergeSort {α : Type} {le : α → α → Bool} {p : α → Bool}
    (htrans : ∀ a b c, le a b → le b c → le a c) (htotal : ∀ a b, le a b || le b a)
    (hp : ∀ a b, p a → p b → le a b) (items : List α) :
    (items.mergeSort le).filter p = items.filter p := by
  have hpair : (items.filter p).Pairwise (le · ·) := by
    refine List.pairwise_of_forall_mem_list fun a ha b hb => ?_
    exact hp a b (List.mem_filter.mp ha).2 (List.mem_filter.mp hb).2
  have hsub : (items.filter p).Sublist (items.mergeSort le) :=
    List.sublist_mergeSort htrans htotal hpair List.filter_sublist
  apply Eq.symm
  apply List.Sublist.eq_of_length
  · have := hsub.filter p
    simpa only [List.filter_filter, Bool.and_self] using this
  · exact ((List.mergeSort_perm items le).filter p).length_eq.symm

/-! ### Decorations -/

namespace Decorations

/-- The strokes of decorations are the given ones in another order. -/
theorem perm_ofStrokes (strokes : List Stroke) : (ofStrokes strokes).strokes.Perm strokes :=
  List.mergeSort_perm strokes _

/-- Strokes with the same start stay in their order. -/
theorem filter_ofStrokes (strokes : List Stroke) (start : Nat) :
    (ofStrokes strokes).strokes.filter (·.start = start) = strokes.filter (·.start = start) := by
  apply filter_mergeSort
  · intro a b c hab hbc
    simp only [decide_eq_true_eq] at hab hbc ⊢
    omega
  · intro a b
    simp only [Bool.or_eq_true, decide_eq_true_eq]
    omega
  · intro a b ha hb
    simp only [decide_eq_true_eq] at ha hb ⊢
    omega

/-- The decorations are the given strokes, sorted by their starts.  Those with the same start are in
    the order in which they are given. -/
structure Sorts (d : Decorations) (strokes : List Stroke) : Prop where
  /-- No stroke starts before an earlier one. -/
  ordered : d.strokes.Pairwise (·.start ≤ ·.start)
  /-- They are the given ones. -/
  perm : d.strokes.Perm strokes
  /-- Those with the same start stay in their order. -/
  stable : ∀ start,
    d.strokes.filter (·.start = start) = strokes.filter (·.start = start)

theorem sorts_ofStrokes (strokes : List Stroke) : (ofStrokes strokes).Sorts strokes :=
  ⟨(ofStrokes strokes).ordered, perm_ofStrokes strokes, filter_ofStrokes strokes⟩

/-- Strokes that are in order stay as they are. -/
theorem ofStrokes_strokes (d : Decorations) : ofStrokes d.strokes = d :=
  Decorations.ext (List.mergeSort_of_pairwise (d.ordered.imp (by simp)))

/-- **Nothing moved.**  A change that moves no position keeps decorations without empty
    strokes. -/
theorem carry_eq_self {μ : Type} [Carrier μ] {carrier : μ} {d : Decorations}
    (hcarry : ∀ pos bias, Carrier.carry carrier pos bias = pos)
    (hd : ∀ s ∈ d.strokes, s.start < s.stop) : d.carry carrier = d := by
  have hkept : d.strokes.filterMap (·.carry? carrier) = d.strokes := by
    refine Eq.trans (List.filterMap_congr fun s hs => ?_) List.filterMap_some
    unfold Stroke.carry?
    rw [hcarry, hcarry]
    exact if_pos (hd s hs)
  rw [carry, hkept, ofStrokes_strokes]

end Decorations

end CodeOverlay
