import Mathlib.Data.List.Basic
import CodeOverlay.Proofs.Trimming

namespace CodeOverlay.Text

/-!
# Places and offsets

A place says by line and column what an offset says by bytes alone.  Line breaks are counted from the
front and the column from the back, and the two meet where the line starts.

* `lineStart` — the offset at which a line starts;
* `Place.Marks` — a place leads to an offset by the start of its line;
* `Place.marks_after`, `Place.Marks.unique` — each offset is marked by just one place;
* `placeAt_lt_placeAt` — later offsets have later places;
* `places_match_offsets` — **an offset and its place determine each other**.
-/

/-- The offset at which a line starts: the front of the text for the first line, and the byte after
    the line break number `row` for each other one. -/
def lineStart (bs : List UInt8) : Nat → Nat
  | 0 => 0
  | row + 1 => bs.idxOfNth lineBreak row + 1

/-- The column, counted from where the line starts, leads to the offset, and no line break is on the
    way. -/
structure Place.Marks (p : Place) (bs : List UInt8) (offset : Nat) : Prop where
  /-- The start of the line and the column lead to the offset. -/
  lineStart_add : lineStart bs p.row + p.column = offset
  /-- The line goes on until the offset. -/
  unbroken : ∀ i, lineStart bs p.row ≤ i → i < offset → bs[i]? ≠ some lineBreak

/-- Places in the order of reading: by lines, and within a line by columns. -/
instance : LT Place where
  lt p q := p.row < q.row ∨ p.row = q.row ∧ p.column < q.column

variable {bs l r : List UInt8} {p q : Place} {row offset offset' : Nat}

theorem Place.lt_irrefl (p : Place) : ¬p < p := by
  rintro (h | ⟨-, h⟩) <;> exact Nat.lt_irrefl _ h

/-! ### Starts of lines -/

/-- The line break after `l` has as many before it as there are in `l`. -/
theorem idxOfNth_append_cons (l r : List UInt8) :
    (l ++ lineBreak :: r).idxOfNth lineBreak (l.count lineBreak) = l.length := by
  induction l with
  | nil => simp
  | cons b l ih =>
    by_cases hb : b = lineBreak
    · simp [hb, ih]
    · simp [hb, ih, List.idxOfNth_cons_of_not_beq]

/-- A line starts no later than any line break that ends it or comes after it. -/
theorem lineStart_le_idxOfNth {k : Nat} (hrow : row ≤ k) (hk : k < bs.count lineBreak) :
    lineStart bs row ≤ bs.idxOfNth lineBreak k := by
  cases row with
  | zero => exact Nat.zero_le _
  | succ row => exact List.idxOfNth_lt_idxOfNth_iff.mpr ⟨by omega, hrow⟩

/-! ### Places of offsets -/

/-- The place that is reached marks the offset up to which was read. -/
theorem Place.marks_after (l r : List UInt8) : (Place.after l).Marks (l ++ r) l.length := by
  have hin : ∀ {i : Nat}, i < l.length → (l ++ r)[i]? = l[i]? := List.getElem?_append_left
  rcases lastIndex?_cases lineBreak l with ⟨hnone, -⟩ | ⟨front, rest, rfl, hrest, -⟩
  · rw [after_eq_of_notMem hnone]
    refine ⟨Nat.zero_add _, fun i _ hi hbreak => hnone ?_⟩
    rw [hin hi] at hbreak
    exact List.mem_of_getElem? hbreak
  · have hstart : lineStart ((front ++ lineBreak :: rest) ++ r) (front.count lineBreak + 1) =
        front.length + 1 := by
      rw [List.append_assoc, List.cons_append]
      exact congrArg (· + 1) (idxOfNth_append_cons front (rest ++ r))
    rw [after_append_cons hrest]
    constructor
    · show lineStart _ (front.count lineBreak + 1) + rest.length = _
      rw [hstart, List.length_append, List.length_cons]
      omega
    · show ∀ i, lineStart _ (front.count lineBreak + 1) ≤ i → _
      intro i hle hi hbreak
      rw [hstart] at hle
      obtain ⟨j, rfl⟩ := Nat.exists_eq_add_of_le hle
      have hbyte : (front ++ lineBreak :: rest)[front.length + 1 + j]? = rest[j]? := by
        rw [List.getElem?_append_right (by omega), Nat.add_assoc, Nat.add_sub_cancel_left,
          Nat.add_comm, List.getElem?_cons_succ]
      rw [hin hi, hbyte] at hbreak
      exact hrest (List.mem_of_getElem? hbreak)

/-- A place that marks an offset is on no earlier line than another one: else the line break before
    that one would be on its way. -/
theorem Place.Marks.row_le (hp : p.Marks bs offset) (hq : q.Marks bs offset)
    (hle : offset ≤ bs.length) : q.row ≤ p.row := by
  by_contra hlt
  obtain ⟨k, hk⟩ : ∃ k, q.row = k + 1 := Nat.exists_eq_succ_of_ne_zero (by omega)
  have hadd := hq.lineStart_add
  rw [hk, lineStart] at hadd
  have hbreak : bs.idxOfNth lineBreak k < bs.length := by omega
  refine hp.unbroken _ ?_ (by omega) ((List.getElem?_eq_getElem hbreak).trans
    (congrArg some List.getElem_idxOfNth_eq))
  exact lineStart_le_idxOfNth (by omega) (List.idxOfNth_lt_length_iff.mp hbreak)

/-- **Only one place** marks an offset. -/
theorem Place.Marks.unique (hp : p.Marks bs offset) (hq : q.Marks bs offset)
    (hle : offset ≤ bs.length) : p = q := by
  have hrow : p.row = q.row := Nat.le_antisymm (hq.row_le hp hle) (hp.row_le hq hle)
  have hcolumn : p.column = q.column := by
    have := hp.lineStart_add
    have := hq.lineStart_add
    rw [hrow] at *
    omega
  cases p
  cases q
  rw [Place.mk.injEq]
  exact ⟨hrow, hcolumn⟩

variable {source : String}

/-- The place of an offset marks it. -/
theorem marks_placeAt (h : offset ≤ source.utf8ByteSize) :
    (placeAt source offset).Marks (bytes source) offset := by
  have hmarks := Place.marks_after ((bytes source).take offset) ((bytes source).drop offset)
  rwa [List.take_append_drop, List.length_take_of_le (by rwa [length_bytes])] at hmarks

/-- **Later offsets have later places.** -/
theorem placeAt_lt_placeAt (hlt : offset < offset') (hle : offset' ≤ source.utf8ByteSize) :
    placeAt source offset < placeAt source offset' := by
  have hrow : (placeAt source offset).row ≤ (placeAt source offset').row :=
    (List.take_sublist_take_left (Nat.le_of_lt hlt)).count_le _
  rcases Nat.lt_or_eq_of_le hrow with hrow | hrow
  · exact .inl hrow
  · -- both columns are counted from the same start
    have hstart := (marks_placeAt (Nat.le_trans (Nat.le_of_lt hlt) hle)).lineStart_add
    have hstart' := (marks_placeAt hle).lineStart_add
    rw [hrow] at hstart
    exact .inr ⟨hrow, by omega⟩

/-- **An offset and its place determine each other.**  The place of an offset is the one whose line
    starts as far before the offset as the column says, with no line break between.  Later offsets
    have later places, so none is shared; past the end the place stays the same, and only what is
    before an offset counts for its place. -/
theorem places_match_offsets (source : String) :
    (∀ offset ≤ source.utf8ByteSize, ∀ p,
      placeAt source offset = p ↔ p.Marks (bytes source) offset) ∧
    (∀ offset offset', offset < offset' → offset' ≤ source.utf8ByteSize →
      placeAt source offset < placeAt source offset') ∧
    (∀ offset offset', offset ≤ source.utf8ByteSize → offset' ≤ source.utf8ByteSize →
      placeAt source offset = placeAt source offset' → offset = offset') ∧
    (∀ offset, source.utf8ByteSize ≤ offset →
      placeAt source offset = placeAt source source.utf8ByteSize) ∧
    ∀ other offset, (bytes other).take offset = (bytes source).take offset →
      placeAt other offset = placeAt source offset := by
  refine ⟨fun offset hle p => ?_, fun _ _ => placeAt_lt_placeAt, ?_, fun offset hle => ?_,
    fun _ _ => congrArg Place.after⟩
  · constructor
    · rintro rfl
      exact marks_placeAt hle
    · exact fun hp => (marks_placeAt hle).unique hp (by rwa [length_bytes])
  · intro offset offset' hle hle' heq
    rcases Nat.lt_trichotomy offset offset' with hlt | rfl | hlt
    · exact absurd (heq ▸ placeAt_lt_placeAt hlt hle') (Place.lt_irrefl _)
    · rfl
    · exact absurd (heq ▸ placeAt_lt_placeAt hlt hle) (Place.lt_irrefl _)
  · rw [placeAt, placeAt, List.take_of_length_le (by rwa [length_bytes]),
      List.take_of_length_le (by rw [length_bytes])]

/-- Two line breaks follow a letter of two bytes, so the third line starts at offset 4, whatever comes
    after it, and the end of the text is two columns further. -/
theorem places_match_offsets_thirdLine :
    5 ≤ "é\n\nab".utf8ByteSize ∧ (⟨2, 1⟩ : Place).Marks (bytes "é\n\nab") 5 ∧
      placeAt "é\n\nab" 3 < placeAt "é\n\nab" 5 ∧
      placeAt "é\n\nab" 9 = ⟨2, 2⟩ ∧ placeAt "é\n\nxyz" 4 = ⟨2, 0⟩ := by
  obtain ⟨hmarks, hlater, -, hend, hbefore⟩ := places_match_offsets "é\n\nab"
  have hplace : placeAt "é\n\nab" 5 = ⟨2, 1⟩ := by decide
  refine ⟨by decide, (hmarks 5 (by decide) _).mp hplace, hlater 3 5 (by decide) (by decide), ?_, ?_⟩
  · rw [hend 9 (by decide)]
    decide
  · rw [hbefore "é\n\nxyz" 4 (by decide)]
    decide

end CodeOverlay.Text
