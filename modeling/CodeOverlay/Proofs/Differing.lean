import CodeOverlay.Proofs.Boundaries
import CodeOverlay.Text.Difference

namespace CodeOverlay.Text

/-!
# The difference between two texts is exact

Two texts fall into a common beginning, two middles that differ at both of their ends, and a common
end.  The difference names where these parts meet.

* `prefix_commonStart_iff` — the common beginning is the longest one;
* `Parts`, `Parts.Splits` — the parts of two texts, and that the texts fall into them;
* `Parts.splits_of` — there are such parts of any two texts;
* `of?_eq_some` — the difference names the bounds of these parts;
* `Difference.Exact` — what is to be known of a difference;
* `Parts.Splits.exact` — the region between the common parts is exact.
-/

/-! ### Common beginnings -/

section CommonStart

variable {α : Type} [DecidableEq α] {c l r : List α}

/-- **The common beginning** of two sequences begins with what both of them begin with. -/
theorem prefix_commonStart_iff : c <+: commonStart l r ↔ c <+: l ∧ c <+: r := by
  induction l generalizing c r with
  | nil =>
    show c <+: [] ↔ c <+: [] ∧ c <+: r
    simp +contextual
  | cons a l ih =>
    cases r with
    | nil =>
      show c <+: [] ↔ c <+: a :: l ∧ c <+: []
      simp +contextual
    | cons b r =>
      cases c with
      | nil => simp
      | cons x c =>
        rw [commonStart, List.cons_prefix_cons, List.cons_prefix_cons]
        by_cases hab : a = b
        · rw [if_pos hab, List.cons_prefix_cons, ih, ← hab]
          grind
        · rw [if_neg hab]
          simp
          grind

/-- Both sequences begin with their common beginning. -/
theorem commonStart_prefix (l r : List α) : commonStart l r <+: l ∧ commonStart l r <+: r :=
  prefix_commonStart_iff.mp List.prefix_rfl

end CommonStart

/-! ### The parts of two texts -/

/-- The parts into which two sequences of characters fall. -/
structure Parts where
  /-- The common beginning. -/
  head : List Char
  /-- What the first sequence has between the beginning and the end. -/
  oldMiddle : List Char
  /-- What the second sequence has there. -/
  newMiddle : List Char
  /-- The common end. -/
  tail : List Char

/-- Two sequences fall into the parts, of which neither the common beginning nor the common end can
    be longer. -/
structure Parts.Splits (p : Parts) (old new : List Char) : Prop where
  /-- The first sequence consists of its parts. -/
  old_eq : old = p.head ++ (p.oldMiddle ++ p.tail)
  /-- The second sequence does. -/
  new_eq : new = p.head ++ (p.newMiddle ++ p.tail)
  /-- What both of them begin with is a beginning of the one. -/
  prefix_head : ∀ c, c <+: old → c <+: new → c <+: p.head
  /-- What both of them end with after the beginning is an end of the other. -/
  suffix_tail : ∀ c, c <:+ p.oldMiddle ++ p.tail → c <:+ p.newMiddle ++ p.tail → c <:+ p.tail

/-- What two sequences have after their common beginning. -/
def rests (old new : List Char) : List Char × List Char :=
  (old.drop (commonStart old new).length, new.drop (commonStart old new).length)

/-- The parts that are left when the common beginning is cut off, and then the common end. -/
def Parts.of (old new : List Char) : Parts :=
  let (l, r) := rests old new
  let tail := (commonStart l.reverse r.reverse).reverse
  { head := commonStart old new
    oldMiddle := l.take (l.length - tail.length)
    newMiddle := r.take (r.length - tail.length)
    tail }

variable {p : Parts}

/-- **Two sequences fall** into a common beginning, two middles, and a common end. -/
theorem Parts.splits_of (old new : List Char) : (Parts.of old new).Splits old new := by
  let l := (rests old new).1
  let r := (rests old new).2
  obtain ⟨hheadOld, hheadNew⟩ := commonStart_prefix old new
  obtain ⟨htailOld, htailNew⟩ := commonStart_prefix l.reverse r.reverse
  have hold : (Parts.of old new).oldMiddle ++ (Parts.of old new).tail = l :=
    List.suffix_iff_eq_append.mp
      (List.reverse_prefix.mp (by rw [List.reverse_reverse]; exact htailOld))
  have hnew : (Parts.of old new).newMiddle ++ (Parts.of old new).tail = r :=
    List.suffix_iff_eq_append.mp
      (List.reverse_prefix.mp (by rw [List.reverse_reverse]; exact htailNew))
  refine ⟨?_, ?_, fun c ho hn => prefix_commonStart_iff.mpr ⟨ho, hn⟩, fun c ho hn => ?_⟩
  · rw [hold]
    exact (List.prefix_iff_eq_append.mp hheadOld).symm
  · rw [hnew]
    exact (List.prefix_iff_eq_append.mp hheadNew).symm
  · rw [hold] at ho
    rw [hnew] at hn
    refine List.reverse_prefix.mp ?_
    show c.reverse <+: (commonStart l.reverse r.reverse).reverse.reverse
    rw [List.reverse_reverse]
    exact prefix_commonStart_iff.mpr ⟨List.reverse_prefix.mpr ho, List.reverse_prefix.mpr hn⟩

namespace Parts.Splits

variable {old new : List Char} {c : Char}

/-- The middles do not start alike. -/
theorem head?_ne (h : p.Splits old new) (ho : p.oldMiddle.head? = some c) :
    p.newMiddle.head? ≠ some c := by
  intro hn
  obtain ⟨m, hm⟩ := List.head?_eq_some_iff.mp ho
  obtain ⟨m', hm'⟩ := List.head?_eq_some_iff.mp hn
  -- or else the common beginning would be longer
  have hlonger := h.prefix_head (p.head ++ [c]) ⟨m ++ p.tail, by rw [h.old_eq, hm]; simp⟩
    ⟨m' ++ p.tail, by rw [h.new_eq, hm']; simp⟩
  have := hlonger.length_le
  rw [List.length_append, List.length_singleton] at this
  omega

/-- They do not end alike either. -/
theorem getLast?_ne (h : p.Splits old new) (ho : p.oldMiddle.getLast? = some c) :
    p.newMiddle.getLast? ≠ some c := by
  intro hn
  obtain ⟨m, hm⟩ := List.getLast?_eq_some_iff.mp ho
  obtain ⟨m', hm'⟩ := List.getLast?_eq_some_iff.mp hn
  have hlonger := h.suffix_tail (c :: p.tail) ⟨m, by rw [hm]; simp⟩ ⟨m', by rw [hm']; simp⟩
  have := hlonger.length_le
  rw [List.length_cons] at this
  omega

/-- One of the middles is not empty if the sequences differ. -/
theorem middle_ne_nil (h : p.Splits old new) (hne : old ≠ new) :
    p.oldMiddle ≠ [] ∨ p.newMiddle ≠ [] := by
  by_contra hempty
  obtain ⟨ho, hn⟩ := not_or.mp hempty
  apply hne
  rw [h.old_eq, h.new_eq, not_not.mp ho, not_not.mp hn]

end Parts.Splits

/-! ### The bounds of the parts -/

/-- The bytes of some characters. -/
def encode (chars : List Char) : List UInt8 :=
  chars.flatMap String.utf8EncodeChar

@[simp] theorem encode_append (l r : List Char) : encode (l ++ r) = encode l ++ encode r :=
  List.flatMap_append

@[simp] theorem length_encode (chars : List Char) :
    (encode chars).length = extent Char.utf8Size chars :=
  length_flatMap_eq_extent fun c _ => String.length_utf8EncodeChar c

/-- Characters are known by their bytes. -/
theorem encode_inj {l r : List Char} (h : encode l = encode r) : l = r := by
  have hencode : l.utf8Encode = r.utf8Encode := congrArg List.toByteArray h
  rw [← String.toByteArray_ofList, ← String.toByteArray_ofList, String.toByteArray_inj] at hencode
  exact String.ofList_injective hencode

variable {old new : String}

/-- The region between the common beginning and the common end of two texts. -/
def Parts.difference (p : Parts) (old new : String) : Difference where
  start := extent Char.utf8Size p.head
  oldEnd := extent Char.utf8Size (p.head ++ p.oldMiddle)
  newEnd := extent Char.utf8Size (p.head ++ p.newMiddle)
  startPlace := placeAt old (extent Char.utf8Size p.head)
  oldEndPlace := placeAt old (extent Char.utf8Size (p.head ++ p.oldMiddle))
  newEndPlace := placeAt new (extent Char.utf8Size (p.head ++ p.newMiddle))

/-- The texts are as long as their parts. -/
theorem Parts.Splits.size_eq (h : p.Splits old.toList new.toList) :
    old.utf8ByteSize = extent Char.utf8Size (p.head ++ p.oldMiddle) + extent Char.utf8Size p.tail ∧
      new.utf8ByteSize =
        extent Char.utf8Size (p.head ++ p.newMiddle) + extent Char.utf8Size p.tail := by
  rw [utf8ByteSize_eq_extent, utf8ByteSize_eq_extent, h.old_eq, h.new_eq, ← List.append_assoc,
    ← List.append_assoc]
  exact ⟨extent_append _ _ _, extent_append _ _ _⟩

/-- **The difference** of two texts that are not equal is the region between their common beginning
    and their common end. -/
theorem of?_eq_some (h : old ≠ new) :
    Difference.of? old new = some ((Parts.of old.toList new.toList).difference old new) := by
  obtain ⟨hold, hnew⟩ := (Parts.splits_of old.toList new.toList).size_eq
  have htail : extent Char.utf8Size (Parts.of old.toList new.toList).tail =
      extent Char.utf8Size (commonStart (rests old.toList new.toList).1.reverse
        (rests old.toList new.toList).2.reverse) := extent_reverse _ _
  rw [htail, ← Nat.sub_eq_iff_eq_add (by omega)] at hold hnew
  simp only [Difference.of?, if_neg h, Parts.difference, ← hold, ← hnew]
  rfl

theorem of?_eq_none_iff : Difference.of? old new = none ↔ old = new := by
  constructor
  · intro hnone
    by_contra h
    rw [of?_eq_some h] at hnone
    cases hnone
  · intro h
    rw [Difference.of?, if_pos h]

/-! ### What is to be known of a difference -/

/-- **The difference is exact.**  It tells how to turn the old text into the new one, and it tells
    no more than is needed. -/
structure Difference.Exact (d : Difference) (old new : String) : Prop where
  /-- The region of the old text lies within that text. -/
  old_bounds : d.start ≤ d.oldEnd ∧ d.oldEnd ≤ old.utf8ByteSize
  /-- The region of the new text does. -/
  new_bounds : d.start ≤ d.newEnd ∧ d.newEnd ≤ new.utf8ByteSize
  /-- Before the region the texts are the same. -/
  before_eq : (bytes old).take d.start = (bytes new).take d.start
  /-- After it they are, too. -/
  after_eq : (bytes old).drop d.oldEnd = (bytes new).drop d.newEnd
  /-- Replacing the region of the old text by that of the new text gives the new text. -/
  splice_eq : (bytes old).take d.start ++ ((bytes new).take d.newEnd).drop d.start ++
    (bytes old).drop d.oldEnd = bytes new
  /-- The region starts between two characters of each text. -/
  between_start : Between Char.utf8Size old.toList d.start ∧
    Between Char.utf8Size new.toList d.start
  /-- It ends between two characters. -/
  between_end : Between Char.utf8Size old.toList d.oldEnd ∧
    Between Char.utf8Size new.toList d.newEnd
  /-- The two regions are not both empty, and they neither start nor end with the same character. -/
  tight : ∃ oldMiddle newMiddle : String,
    bytes oldMiddle = ((bytes old).take d.oldEnd).drop d.start ∧
    bytes newMiddle = ((bytes new).take d.newEnd).drop d.start ∧
    (oldMiddle ≠ "" ∨ newMiddle ≠ "") ∧
    (∀ c, oldMiddle.toList.head? = some c → newMiddle.toList.head? ≠ some c) ∧
    ∀ c, oldMiddle.toList.getLast? = some c → newMiddle.toList.getLast? ≠ some c
  /-- The region starts at the same place of both texts. -/
  startPlace_eq : d.startPlace = placeAt old d.start ∧ d.startPlace = placeAt new d.start
  /-- The places at which it ends are those of its ends. -/
  endPlace_eq : d.oldEndPlace = placeAt old d.oldEnd ∧ d.newEndPlace = placeAt new d.newEnd

section Parts

variable {text : String} {l m r : List Char}

/-- The bytes of the first part of a text come first. -/
theorem take_bytes (h : text.toList = l ++ r) :
    (bytes text).take (extent Char.utf8Size l) = encode l := by
  show (encode text.toList).take _ = _
  rw [h, encode_append, ← length_encode, List.take_left' rfl]

/-- The bytes of what follows come after them. -/
theorem drop_bytes (h : text.toList = l ++ r) :
    (bytes text).drop (extent Char.utf8Size l) = encode r := by
  show (encode text.toList).drop _ = _
  rw [h, encode_append, ← length_encode, List.drop_left' rfl]

/-- The bytes of a part in the middle come between those of the others. -/
theorem drop_take_bytes (h : text.toList = l ++ (m ++ r)) :
    ((bytes text).take (extent Char.utf8Size (l ++ m))).drop (extent Char.utf8Size l) =
      encode m := by
  rw [take_bytes (h.trans (List.append_assoc l m r).symm), encode_append, ← length_encode,
    List.drop_left' rfl]

end Parts

/-- The region between the common beginning and the common end is exact. -/
theorem Parts.Splits.exact (h : p.Splits old.toList new.toList) (hne : old ≠ new) :
    (p.difference old new).Exact old new := by
  obtain ⟨hold, hnew⟩ := h.size_eq
  have holdParts := h.old_eq.trans (List.append_assoc _ _ _).symm
  have hnewParts := h.new_eq.trans (List.append_assoc _ _ _).symm
  have hhead := (take_bytes h.old_eq).trans (take_bytes h.new_eq).symm
  have hchars : old.toList ≠ new.toList := fun heq => hne (String.toList_inj.mp heq)
  exact
    { old_bounds := ⟨by simp [Parts.difference], by rw [hold]; exact Nat.le_add_right _ _⟩
      new_bounds := ⟨by simp [Parts.difference], by rw [hnew]; exact Nat.le_add_right _ _⟩
      before_eq := hhead
      after_eq := (drop_bytes holdParts).trans (drop_bytes hnewParts).symm
      splice_eq := by
        simp only [Parts.difference]
        rw [take_bytes h.old_eq, drop_take_bytes h.new_eq, drop_bytes holdParts, ← encode_append,
          ← encode_append, ← hnewParts]
        rfl
      between_start := ⟨⟨_, _, h.old_eq, rfl⟩, ⟨_, _, h.new_eq, rfl⟩⟩
      between_end := ⟨⟨_, _, holdParts, rfl⟩, ⟨_, _, hnewParts, rfl⟩⟩
      tight := by
        refine ⟨.ofList p.oldMiddle, .ofList p.newMiddle, ?_, ?_, ?_, ?_, ?_⟩
        · rw [bytes, String.toList_ofList]
          exact (drop_take_bytes h.old_eq).symm
        · rw [bytes, String.toList_ofList]
          exact (drop_take_bytes h.new_eq).symm
        · simpa using h.middle_ne_nil hchars
        · simpa using fun c => h.head?_ne (c := c)
        · simpa using fun c => h.getLast?_ne (c := c)
      startPlace_eq := ⟨rfl, congrArg Place.after hhead⟩
      endPlace_eq := ⟨rfl, rfl⟩ }

end CodeOverlay.Text
