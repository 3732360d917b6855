import Mathlib.Data.List.TakeWhile
import CodeOverlay.Proofs.Differing

namespace CodeOverlay.Text

/-!
# The difference, byte by byte

The difference can also be sought byte by byte: by counting the bytes that two texts begin with,
then those that they end with, and going back to a boundary of characters whenever the count stops
inside one.  Offsets are then subtracted from one another at every turn.

* `minus?`, `stepBack?` — subtraction that fails below zero, and steps back by it;
* `Place.counted?` — a place counted from the last line break;
* `Place.after_eq_of_notMem`, `Place.after_append_cons` — the place reached, by the last line break;
* `Difference.bytewise?` — the search byte by byte, which fails if any subtraction does;
* `Parts.Splits.start_found`, `Parts.Splits.tail_found` — where the two counts go back to;
* `bytewise?_eq` — the search does not fail, and finds the difference;
* `difference_exact` — what the difference of two texts is.
-/

/-! ### Counting back -/

/-- The difference of two numbers, unless it is negative. -/
def minus? (a b : Nat) : Option Nat :=
  if b ≤ a then some (a - b) else none

theorem minus?_of_add {a b c : Nat} (h : a = c + b) : minus? a b = some c := by
  rw [minus?, if_pos (by omega), Option.some.injEq]
  omega

/-- Goes back from an offset, by one at a time, to where `ok` holds.  There has to be such an
    offset, and `ok` has to answer on the way. -/
def stepBack? (ok : Nat → Option Bool) : Nat → Option Nat
  | 0 => do if ← ok 0 then some 0 else none
  | offset + 1 => do if ← ok (offset + 1) then some (offset + 1) else stepBack? ok offset

/-- The last offset at which `ok` holds is found. -/
theorem stepBack?_eq_some {ok : Nat → Option Bool} {found limit : Nat} (hle : found ≤ limit)
    (hok : ok found = some true)
    (hlater : ∀ offset, found < offset → offset ≤ limit → ok offset = some false) :
    stepBack? ok limit = some found := by
  induction limit with
  | zero =>
    obtain rfl : found = 0 := Nat.le_zero.mp hle
    simp [stepBack?, hok]
  | succ limit ih =>
    rcases Nat.lt_or_eq_of_le hle with hlt | rfl
    · have hskip := hlater (limit + 1) hlt (Nat.le_refl _)
      simp [stepBack?, hskip, ih (by omega) fun offset h h' => hlater offset h (by omega)]
    · simp [stepBack?, hok]

/-- The index of the last item that is equal to `a`. -/
def lastIndex? (a : UInt8) : List UInt8 → Option Nat
  | [] => none
  | b :: bs => ((lastIndex? a bs).map (· + 1)).or (if b = a then some 0 else none)

/-- Either no item is equal to `a`, or the last one that is has a place. -/
theorem lastIndex?_cases (a : UInt8) (bs : List UInt8) :
    (a ∉ bs ∧ lastIndex? a bs = none) ∨
      ∃ l r, bs = l ++ a :: r ∧ a ∉ r ∧ lastIndex? a bs = some l.length := by
  induction bs with
  | nil => exact .inl ⟨List.not_mem_nil, rfl⟩
  | cons b bs ih =>
    rcases ih with ⟨hmem, hnone⟩ | ⟨l, r, rfl, hmem, hsome⟩
    · by_cases hb : b = a
      · exact .inr ⟨[], bs, by rw [hb]; rfl, hmem, by simp [lastIndex?, hnone, hb]⟩
      · refine .inl ⟨?_, by simp [lastIndex?, hnone, hb]⟩
        rw [List.mem_cons, not_or]
        exact ⟨Ne.symm hb, hmem⟩
    · exact .inr ⟨b :: l, r, rfl, hmem, by simp [lastIndex?, hsome]⟩

/-- The place reached by reading `before`, its column counted from the last line break. -/
def Place.counted? (before : List UInt8) : Option Place :=
  match lastIndex? lineBreak before with
  | none => some ⟨before.count lineBreak, before.length⟩
  | some index => do
    let rest ← minus? before.length index
    let column ← minus? rest 1
    some ⟨before.count lineBreak, column⟩

theorem all_ne_of_notMem {bs : List UInt8} (h : lineBreak ∉ bs) :
    ∀ b ∈ bs.reverse, (b != lineBreak) = true := by
  intro b hb
  exact bne_iff_ne.mpr fun heq => h (heq ▸ List.mem_reverse.mp hb)

/-- Without a line break all bytes are in the first line. -/
theorem Place.after_eq_of_notMem {bs : List UInt8} (h : lineBreak ∉ bs) :
    after bs = ⟨0, bs.length⟩ := by
  rw [after, List.count_eq_zero.mpr h, List.takeWhile_eq_self_iff.mpr (all_ne_of_notMem h),
    List.length_reverse]

/-- The bytes after the last line break are counted for the column. -/
theorem Place.after_append_cons {l r : List UInt8} (h : lineBreak ∉ r) :
    after (l ++ lineBreak :: r) = ⟨l.count lineBreak + 1, r.length⟩ := by
  have hrow : (l ++ lineBreak :: r).count lineBreak = l.count lineBreak + 1 := by
    rw [List.count_append, List.count_cons_self, List.count_eq_zero.mpr h]
  have hcolumn : ((l ++ lineBreak :: r).reverse.takeWhile (· != lineBreak)).length = r.length := by
    rw [List.reverse_append, List.reverse_cons, List.append_assoc,
      List.takeWhile_append_of_pos (all_ne_of_notMem h)]
    simp
  rw [after, hrow, hcolumn]

/-- **Counting the column back** from the end never fails, and gives the place. -/
theorem Place.counted?_eq (before : List UInt8) : counted? before = some (after before) := by
  rcases lastIndex?_cases lineBreak before with ⟨hmem, hnone⟩ | ⟨l, r, rfl, hmem, hsome⟩
  · rw [counted?, hnone, after_eq_of_notMem hmem, List.count_eq_zero.mpr hmem]
  · have hcolumn : (after (l ++ lineBreak :: r)).column = r.length :=
      congrArg Place.column (after_append_cons hmem)
    have hrest : minus? (l ++ lineBreak :: r).length l.length = some (r.length + 1) :=
      minus?_of_add (by rw [List.length_append, List.length_cons]; omega)
    have hminus : minus? (r.length + 1) 1 = some r.length := minus?_of_add rfl
    rw [counted?, hsome]
    show (minus? _ l.length).bind (fun rest => (minus? rest 1).bind _) = _
    rw [hrest, Option.bind_some, hminus, ← hcolumn]
    rfl

/-! ### The search -/

/-- Whether an offset is between two characters of a text. -/
def isBoundary (text : String) (offset : Nat) : Bool :=
  decide (Between Char.utf8Size text.toList offset)

/-- Whether a character of each text starts at an offset from the beginning. -/
def startsInBoth? (old new : String) (offset : Nat) : Option Bool :=
  some (isBoundary old offset && isBoundary new offset)

/-- Whether a character of each text starts at an offset from the end. -/
def endsInBoth? (old new : String) (offset : Nat) : Option Bool := do
  let oldEnd ← minus? old.utf8ByteSize offset
  let newEnd ← minus? new.utf8ByteSize offset
  some (isBoundary old oldEnd && isBoundary new newEnd)

/-- **The search byte by byte.**  The bytes with which both texts begin are counted, then those with
    which they end, but no more than the beginning leaves of the shorter text.  Each count goes back
    to where a character starts in both texts.  There is no answer if an offset has to fall below
    zero on the way. -/
def Difference.bytewise? (old new : String) : Option (Option Difference) :=
  if old = new then some none
  else do
    let start ← stepBack? (startsInBoth? old new) (commonStart (bytes old) (bytes new)).length
    let left ← minus? (min old.utf8ByteSize new.utf8ByteSize) start
    let tail ← stepBack? (endsInBoth? old new)
      ((commonStart (bytes old).reverse (bytes new).reverse).take left).length
    let oldEnd ← minus? old.utf8ByteSize tail
    let newEnd ← minus? new.utf8ByteSize tail
    let startPlace ← Place.counted? ((bytes old).take start)
    let oldEndPlace ← Place.counted? ((bytes old).take oldEnd)
    let newEndPlace ← Place.counted? ((bytes new).take newEnd)
    some (some { start, oldEnd, newEnd, startPlace, oldEndPlace, newEndPlace })

/-- Sequences agree as far as their common beginning goes. -/
theorem take_eq_of_le_commonStart {α : Type} [DecidableEq α] {l r : List α} {n : Nat}
    (h : n ≤ (commonStart l r).length) : l.take n = r.take n := by
  obtain ⟨hl, hr⟩ := commonStart_prefix l r
  calc l.take n = (l.take (commonStart l r).length).take n := by
        rw [List.take_take, Nat.min_eq_left h]
    _ = (r.take (commonStart l r).length).take n := by
        rw [← List.prefix_iff_eq_take.mp hl, ← List.prefix_iff_eq_take.mp hr]
    _ = r.take n := by rw [List.take_take, Nat.min_eq_left h]

/-- The bytes at the end of a text, read backwards. -/
theorem take_reverse_bytes {text : String} {l r : List Char} (h : text.toList = l ++ r) :
    (bytes text).reverse.take (extent Char.utf8Size r) = (encode r).reverse := by
  show (encode text.toList).reverse.take _ = _
  rw [h, encode_append, List.reverse_append, ← length_encode, ← List.length_reverse,
    List.take_left' rfl]

variable {old new : String} {p : Parts}

/-- **The count from the beginning** goes back to the end of the common beginning. -/
theorem Parts.Splits.start_found (h : p.Splits old.toList new.toList) :
    stepBack? (startsInBoth? old new) (commonStart (bytes old) (bytes new)).length =
      some (extent Char.utf8Size p.head) := by
  refine stepBack?_eq_some ?_ ?_ fun offset hlater hcount => ?_
  · have hprefix : encode p.head <+: commonStart (bytes old) (bytes new) := by
      rw [prefix_commonStart_iff, ← take_bytes h.old_eq]
      refine ⟨List.take_prefix _ _, ?_⟩
      rw [take_bytes h.old_eq, ← take_bytes h.new_eq]
      exact List.take_prefix _ _
    rw [← length_encode]
    exact hprefix.length_le
  · have hold : Between Char.utf8Size old.toList (extent Char.utf8Size p.head) :=
      ⟨_, _, h.old_eq, rfl⟩
    have hnew : Between Char.utf8Size new.toList (extent Char.utf8Size p.head) :=
      ⟨_, _, h.new_eq, rfl⟩
    simp [startsInBoth?, isBoundary, hold, hnew]
  · -- what both texts have before a common boundary would be a longer common beginning
    rw [startsInBoth?, Option.some.injEq, ← Bool.not_eq_true, Bool.and_eq_true]
    rintro ⟨hold, hnew⟩
    obtain ⟨l, r, hl, hlsize⟩ := of_decide_eq_true hold
    obtain ⟨l', r', hl', hlsize'⟩ := of_decide_eq_true hnew
    have hencode : encode l = encode l' := by
      rw [← take_bytes hl, ← take_bytes hl', hlsize, hlsize']
      exact take_eq_of_le_commonStart hcount
    obtain rfl := encode_inj hencode
    obtain ⟨m, hm⟩ := h.prefix_head l ⟨r, hl.symm⟩ ⟨r', hl'.symm⟩
    rw [← hm, extent_append] at hlater
    omega

/-- Of two ways to part a sequence the one that parts it later leaves an end of what the other one
    leaves. -/
theorem suffix_of_append_eq {l r l' r' : List Char} (h : l ++ r = l' ++ r')
    (hle : extent Char.utf8Size l ≤ extent Char.utf8Size l') : r' <:+ r := by
  rcases List.append_eq_append_iff.mp h with ⟨t, -, ht⟩ | ⟨t, rfl, ht⟩
  · exact ⟨t, ht.symm⟩
  · rw [extent_append] at hle
    have hsize : extent Char.utf8Size t = 0 := by omega
    obtain rfl := eq_nil_of_extent_eq_zero Char.utf8Size_pos hsize
    exact ⟨[], ht⟩

/-- **The count from the end** goes back to the start of the common end, if it leaves out the common
    beginning. -/
theorem Parts.Splits.tail_found (h : p.Splits old.toList new.toList) {left : Nat}
    (hleft : min old.utf8ByteSize new.utf8ByteSize = left + extent Char.utf8Size p.head) :
    stepBack? (endsInBoth? old new)
        ((commonStart (bytes old).reverse (bytes new).reverse).take left).length =
      some (extent Char.utf8Size p.tail) := by
  obtain ⟨hold, hnew⟩ := h.size_eq
  have holdParts := h.old_eq.trans (List.append_assoc _ _ _).symm
  have hnewParts := h.new_eq.trans (List.append_assoc _ _ _).symm
  refine stepBack?_eq_some ?_ ?_ fun offset hlater hcount => ?_
  · have hprefix :
        (encode p.tail).reverse <+: commonStart (bytes old).reverse (bytes new).reverse := by
      rw [prefix_commonStart_iff, ← take_reverse_bytes holdParts]
      refine ⟨List.take_prefix _ _, ?_⟩
      rw [take_reverse_bytes holdParts, ← take_reverse_bytes hnewParts]
      exact List.take_prefix _ _
    have hlength := hprefix.length_le
    rw [List.length_reverse, length_encode] at hlength
    rw [extent_append] at hold hnew
    rw [List.length_take]
    omega
  · have holdEnd :
        Between Char.utf8Size old.toList (extent Char.utf8Size (p.head ++ p.oldMiddle)) :=
      ⟨_, _, holdParts, rfl⟩
    have hnewEnd :
        Between Char.utf8Size new.toList (extent Char.utf8Size (p.head ++ p.newMiddle)) :=
      ⟨_, _, hnewParts, rfl⟩
    show (minus? _ _).bind (fun oldEnd => (minus? _ _).bind fun newEnd => _) = _
    rw [minus?_of_add hold, minus?_of_add hnew]
    show some (isBoundary old _ && isBoundary new _) = _
    rw [isBoundary, isBoundary, decide_eq_true holdEnd, decide_eq_true hnewEnd]
    rfl
  · rw [List.length_take] at hcount
    have holdMinus : minus? old.utf8ByteSize offset = some (old.utf8ByteSize - offset) :=
      minus?_of_add (by omega)
    have hnewMinus : minus? new.utf8ByteSize offset = some (new.utf8ByteSize - offset) :=
      minus?_of_add (by omega)
    -- what both texts have after a common boundary would be a longer common end
    show (minus? _ _).bind (fun oldEnd => (minus? _ _).bind fun newEnd => _) = _
    rw [holdMinus, hnewMinus]
    show some (_ && _) = _
    rw [Option.some.injEq, ← Bool.not_eq_true, Bool.and_eq_true]
    rintro ⟨hold', hnew'⟩
    obtain ⟨l, r, hl, hlsize⟩ := of_decide_eq_true hold'
    obtain ⟨l', r', hl', hlsize'⟩ := of_decide_eq_true hnew'
    have hrsize : extent Char.utf8Size r = offset := by
      have hsize := utf8ByteSize_eq_extent old
      rw [hl, extent_append] at hsize
      omega
    have hrsize' : extent Char.utf8Size r' = offset := by
      have hsize := utf8ByteSize_eq_extent new
      rw [hl', extent_append] at hsize
      omega
    have hencode : (encode r).reverse = (encode r').reverse := by
      rw [← take_reverse_bytes hl, ← take_reverse_bytes hl', hrsize, hrsize']
      exact take_eq_of_le_commonStart (by omega)
    obtain rfl := encode_inj (List.reverse_injective hencode)
    obtain ⟨m, hm⟩ := h.suffix_tail r
      (suffix_of_append_eq (h.old_eq.symm.trans hl) (by omega))
      (suffix_of_append_eq (h.new_eq.symm.trans hl') (by omega))
    rw [← hm, extent_append] at hlater
    omega

/-- **The search byte by byte** never fails, and finds the difference. -/
theorem bytewise?_eq (old new : String) :
    Difference.bytewise? old new = some (Difference.of? old new) := by
  by_cases hne : old = new
  · rw [Difference.bytewise?, if_pos hne, of?_eq_none_iff.mpr hne]
  have h := Parts.splits_of old.toList new.toList
  obtain ⟨hold, hnew⟩ := h.size_eq
  obtain ⟨left, hleft⟩ : ∃ left, min old.utf8ByteSize new.utf8ByteSize =
      left + extent Char.utf8Size (Parts.of old.toList new.toList).head := by
    refine ⟨_, (Nat.sub_add_cancel ?_).symm⟩
    rw [hold, hnew, extent_append, extent_append]
    omega
  rw [of?_eq_some hne, Difference.bytewise?, if_neg hne]
  simp only [h.start_found, h.tail_found hleft, minus?_of_add hleft, minus?_of_add hold,
    minus?_of_add hnew, Place.counted?_eq, Option.bind_eq_bind, Option.bind_some]
  rfl

/-! ### The difference of two texts -/

/-- **The difference of two texts** is missing if and only if they are equal.  Otherwise it is
    exact, and the search byte by byte finds it without any offset falling below zero. -/
theorem difference_exact (old new : String) :
    (Difference.of? old new = none ↔ old = new) ∧
      (∀ d, Difference.of? old new = some d → d.Exact old new) ∧
      Difference.bytewise? old new = some (Difference.of? old new) := by
  refine ⟨of?_eq_none_iff, fun d hd => ?_, bytewise?_eq old new⟩
  have hne : old ≠ new := fun heq => by rw [of?_eq_none_iff.mpr heq] at hd; cases hd
  rw [of?_eq_some hne, Option.some.injEq] at hd
  rw [← hd]
  exact (Parts.splits_of old.toList new.toList).exact hne

/-- Two letters with different accents start with the same byte, and the difference leaves that byte
    inside. -/
theorem difference_exact_accents :
    Difference.of? "aé\nb" "aè\nb" = some ⟨1, 3, 3, ⟨0, 1⟩, ⟨0, 3⟩, ⟨0, 3⟩⟩ ∧
      (⟨1, 3, 3, ⟨0, 1⟩, ⟨0, 3⟩, ⟨0, 3⟩⟩ : Difference).Exact "aé\nb" "aè\nb" := by
  have hfound : Difference.of? "aé\nb" "aè\nb" = some ⟨1, 3, 3, ⟨0, 1⟩, ⟨0, 3⟩, ⟨0, 3⟩⟩ := by
    decide
  exact ⟨hfound, (difference_exact "aé\nb" "aè\nb").2.1 _ hfound⟩

/-- In repeated text the common end does not take back what the common beginning has. -/
example : Difference.of? "aa" "aaa" = some ⟨2, 2, 3, ⟨0, 2⟩, ⟨0, 2⟩, ⟨0, 3⟩⟩ := by
  decide

end CodeOverlay.Text
