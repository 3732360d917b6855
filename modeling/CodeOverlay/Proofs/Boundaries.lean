import Mathlib.Data.List.Infix
import CodeOverlay.Measured

namespace CodeOverlay

/-!
# Positions between items

In a sequence of sized items most positions lie inside an item.  Only at the others can the sequence
be cut.

* `Between` — a position that falls between two items;
* `firstInside?` — the first of two positions that does not;
* `cut?_eq_none_iff`, `splice_eq_error_iff` — where a cut or a splice is refused;
* `eq_or_extent_le` — one of two items is before the other.
-/

variable {α ε : Type} {size : α → Nat} {items insert : List α} {pos start stop : Nat}

/-- The position falls between two items of a sequence, or is one of its two ends. -/
def Between (size : α → Nat) (items : List α) (pos : Nat) : Prop :=
  ∃ before after, items = before ++ after ∧ extent size before = pos

instance : Decidable (Between size items pos) :=
  decidable_of_iff (∃ before ∈ items.inits, extent size before = pos) <| by
    constructor
    · rintro ⟨before, hbefore, h⟩
      obtain ⟨after, hitems⟩ := (List.mem_inits before items).mp hbefore
      exact ⟨before, after, hitems.symm, h⟩
    · rintro ⟨before, after, hitems, h⟩
      exact ⟨before, (List.mem_inits before items).mpr ⟨after, hitems.symm⟩, h⟩

/-- The first of two positions that does not fall between two items. -/
def firstInside? (size : α → Nat) (items : List α) (start stop : Nat) : Option Nat :=
  [start, stop].find? fun pos => ¬Between size items pos

/-- A sequence of items that each take room can be cut at the positions between them. -/
theorem cut?_eq_none_iff (hpos : ∀ a, 0 < size a) :
    cut? size items pos = none ↔ ¬Between size items pos := by
  rw [Option.eq_none_iff_forall_ne_some, Between]
  constructor
  · rintro h ⟨before, after, hcut⟩
    exact h (before, after) ((cut?_eq_some_iff hpos).mpr hcut)
  · rintro h ⟨before, after⟩ hcut
    exact h ⟨before, after, (cut?_eq_some_iff hpos).mp hcut⟩

/-- **A splice is refused** just at the first of its two bounds that does not fall between two
    items. -/
theorem splice_eq_error_iff (hpos : ∀ a, 0 < size a) {unaligned : Nat → ε} {error : ε} :
    splice size unaligned items insert start stop = .error error ↔
      (firstInside? size items start stop).map unaligned = some error := by
  have hstart : cut? size items start = none ↔ ¬Between size items start := cut?_eq_none_iff hpos
  have hstop : cut? size items stop = none ↔ ¬Between size items stop := cut?_eq_none_iff hpos
  unfold splice firstInside?
  cases hcut : cut? size items start with
  | none => simp [hstart.mp hcut]
  | some before =>
    have hstart : Between size items start := by simpa [hcut] using hstart
    cases hcut' : cut? size items stop with
    | none => simp [hstart, hstop.mp hcut']
    | some after =>
      have hstop : Between size items stop := by simpa [hcut'] using hstop
      simp [hstart, hstop]

/-- Two items of a sequence are the same one, or one of them ends before the other starts. -/
theorem eq_or_extent_le (size : α → Nat) {l r l' r' : List α} {a b : α}
    (h : l ++ a :: r = l' ++ b :: r') :
    (l = l' ∧ a = b) ∨ extent size l + size a ≤ extent size l' ∨
      extent size l' + size b ≤ extent size l := by
  rcases List.append_eq_append_iff.mp h with ⟨t, rfl, ht⟩ | ⟨t, rfl, ht⟩
  · cases t with
    | nil => exact .inl ⟨(List.append_nil l).symm, (List.cons.inj ht).1⟩
    | cons c t =>
      obtain rfl := (List.cons.inj ht).1
      exact .inr (.inl (by rw [extent_append, extent_cons]; omega))
  · cases t with
    | nil => exact .inl ⟨List.append_nil l', (List.cons.inj ht).1.symm⟩
    | cons c t =>
      obtain rfl := (List.cons.inj ht).1
      exact .inr (.inr (by rw [extent_append, extent_cons]; omega))

end CodeOverlay
