import CodeOverlay.Proofs.Strokes

namespace CodeOverlay

/-!
# A sweep paints by the innermost capture

A sweep opens captures one on top of the other.  Those that have ended may lie in the stack for a
while, buried under others, and this does no harm: what a byte is painted in depends only on the
first capture of the stack that reaches beyond it.

* `Stroke.Covers`, `Painted` — which bytes a stroke covers, and what a byte is painted in;
* `topAt?` — the first capture of a stack that reaches beyond a byte;
* `painted_paintTo`, `topAt?_paintTo` — one step of the sweep, and what it leaves open;
* `painted_sweep` — the whole sweep;
* `find?_outerFirst_eq_some_iff` — the capture on top is the innermost one;
* `painted_sweep_outerFirst` — so a byte is painted in the style of the innermost capture;
* `pairwise_sweep` — the strokes of a sweep ascend and do not overlap.
-/

variable {s t top : Stroke} {opened below captures strokes strokes' : List Stroke}
variable {limit cursor byte : Nat} {style : String}

/-! ### What a byte is painted in -/

/-- The stroke covers the byte. -/
def Stroke.Covers (s : Stroke) (byte : Nat) : Prop :=
  s.start ≤ byte ∧ byte < s.stop

instance : Decidable (s.Covers byte) :=
  inferInstanceAs (Decidable (_ ∧ _))

/-- One of the strokes paints the byte in the style. -/
def Painted (strokes : List Stroke) (byte : Nat) (style : String) : Prop :=
  ∃ s ∈ strokes, s.Covers byte ∧ s.style = style

@[simp] theorem not_painted_nil : ¬Painted [] byte style := by
  simp [Painted]

@[simp] theorem painted_cons :
    Painted (s :: strokes) byte style ↔
      (s.Covers byte ∧ s.style = style) ∨ Painted strokes byte style := by
  simp [Painted]

@[simp] theorem painted_append :
    Painted (strokes ++ strokes') byte style ↔
      Painted strokes byte style ∨ Painted strokes' byte style := by
  simp only [Painted, List.mem_append, or_and_right, exists_or]

/-! ### The stack -/

/-- The first capture of a stack that reaches beyond the byte. -/
def topAt? (opened : List Stroke) (byte : Nat) : Option Stroke :=
  opened.find? fun s => byte < s.stop

/-- A capture that has ended is passed over. -/
theorem topAt?_cons_of_le (h : top.stop ≤ byte) : topAt? (top :: below) byte = topAt? below byte :=
  List.find?_cons_of_neg (by simp [h])

theorem topAt?_cons_of_lt (h : byte < top.stop) : topAt? (top :: below) byte = some top :=
  List.find?_cons_of_pos (by simp [h])

/-- What lies on two stacks is on top as long as the two have the same top. -/
theorem topAt?_append_congr {opened' : List Stroke} (h : topAt? opened byte = topAt? opened' byte) :
    topAt? (strokes ++ opened) byte = topAt? (strokes ++ opened') byte := by
  unfold topAt? at h ⊢
  rw [List.find?_append, List.find?_append, h]

/-! ### One step -/

/-- **Painting up to a limit.**  A byte is painted in the style of what is on top there. -/
theorem painted_paintTo :
    Painted (paintTo limit opened cursor).1 byte style ↔
      cursor ≤ byte ∧ byte < limit ∧ (topAt? opened byte).map (·.style) = some style := by
  induction opened generalizing cursor with
  | nil => simp [paintTo, topAt?]
  | cons top below ih =>
    unfold paintTo
    by_cases hlimit : limit ≤ cursor
    · rw [if_pos hlimit]
      refine iff_of_false not_painted_nil ?_
      rintro ⟨hle, hlt, -⟩
      omega
    rw [if_neg hlimit]
    by_cases hstop : top.stop ≤ cursor
    · rw [if_pos hstop, ih]
      refine and_congr_right fun hle => ?_
      rw [topAt?_cons_of_le (Nat.le_trans hstop hle)]
    rw [if_neg hstop]
    -- the capture on top is painted up to its end or up to the limit, whichever comes first
    by_cases hreach : limit ≤ top.stop
    · rw [if_pos hreach, painted_cons, or_iff_left not_painted_nil]
      show (cursor ≤ byte ∧ byte < limit) ∧ top.style = style ↔ _
      rw [and_assoc]
      refine and_congr_right fun _ => and_congr_right fun hlt => ?_
      rw [topAt?_cons_of_lt (Nat.lt_of_lt_of_le hlt hreach), Option.map_some, Option.some.injEq]
    · rw [if_neg hreach, painted_cons, ih]
      show (cursor ≤ byte ∧ byte < top.stop) ∧ top.style = style ∨ _ ↔ _
      rcases Nat.lt_or_ge byte top.stop with hlt | hge
      · rw [topAt?_cons_of_lt hlt, Option.map_some, Option.some.injEq,
          or_iff_left fun h => Nat.not_le_of_lt hlt h.1, and_assoc]
        exact and_congr_right fun _ => and_congr_left' (iff_of_true hlt (by omega))
      · rw [topAt?_cons_of_le hge, or_iff_right fun h => Nat.not_lt_of_ge hge h.1.2]
        exact and_congr_left' (iff_of_true hge (by omega))

/-- What is left open by painting up to a limit has the same top from there on. -/
theorem topAt?_paintTo (h : limit ≤ byte) :
    topAt? (paintTo limit opened cursor).2 byte = topAt? opened byte := by
  induction opened generalizing cursor with
  | nil => rfl
  | cons top below ih =>
    unfold paintTo
    by_cases hlimit : limit ≤ cursor
    · rw [if_pos hlimit]
    rw [if_neg hlimit]
    by_cases hstop : top.stop ≤ cursor
    · rw [if_pos hstop, ih, topAt?_cons_of_le (by omega)]
    rw [if_neg hstop]
    by_cases hreach : limit ≤ top.stop
    · rw [if_pos hreach]
    · rw [if_neg hreach]
      show topAt? (paintTo limit below top.stop).2 byte = _
      rw [ih, topAt?_cons_of_le (by omega)]

/-- When no capture is to come, what is open is painted to its end. -/
theorem painted_paintRest :
    Painted (paintRest opened cursor) byte style ↔
      cursor ≤ byte ∧ (topAt? opened byte).map (·.style) = some style := by
  induction opened generalizing cursor with
  | nil => simp [paintRest, topAt?]
  | cons top below ih =>
    unfold paintRest
    by_cases hstop : top.stop ≤ cursor
    · rw [if_pos hstop, ih]
      refine and_congr_right fun hle => ?_
      rw [topAt?_cons_of_le (Nat.le_trans hstop hle)]
    rw [if_neg hstop, painted_cons, ih]
    show (cursor ≤ byte ∧ byte < top.stop) ∧ top.style = style ∨ _ ↔ _
    rcases Nat.lt_or_ge byte top.stop with hlt | hge
    · rw [topAt?_cons_of_lt hlt, Option.map_some, Option.some.injEq,
        or_iff_left fun h => Nat.not_le_of_lt hlt h.1]
      exact and_congr_left' (and_iff_left hlt)
    · rw [topAt?_cons_of_le hge, or_iff_right fun h => Nat.not_lt_of_ge hge h.1.2]
      exact and_congr_left' (iff_of_true hge (by omega))

/-! ### All captures -/

/-- **The whole sweep.**  If captures come by their starts, a byte is painted in the style of what
    is on top of the captures that started by then and of those that were open before. -/
theorem painted_sweep (hsorted : captures.Pairwise (·.start ≤ ·.start))
    (hcursor : ∀ c ∈ captures, cursor ≤ c.start) :
    Painted (sweep captures opened cursor) byte style ↔
      cursor ≤ byte ∧
        (topAt? ((captures.filter (·.start ≤ byte)).reverse ++ opened) byte).map (·.style) =
          some style := by
  induction captures generalizing opened cursor with
  | nil => exact painted_paintRest
  | cons c captures ih =>
    obtain ⟨hfirst, hsorted⟩ := List.pairwise_cons.mp hsorted
    have hc : cursor ≤ c.start := hcursor c List.mem_cons_self
    rw [sweep, painted_append, painted_paintTo, ih hsorted hfirst]
    rcases Nat.lt_or_ge byte c.start with hlt | hge
    · -- the byte is painted before `c` is opened, and none of the others is open by then either
      have hnone : (c :: captures).filter (·.start ≤ byte) = [] := by
        refine List.filter_eq_nil_iff.mpr fun d hd => ?_
        rcases List.mem_cons.mp hd with rfl | hd
        · simp [hlt]
        · simpa using Nat.lt_of_lt_of_le hlt (hfirst d hd)
      rw [hnone, List.reverse_nil, List.nil_append,
        or_iff_left fun h => Nat.not_le_of_lt hlt h.1]
      exact and_congr_right' (and_iff_right hlt)
    · -- what was open is below `c` now, less what has ended
      have hstack : topAt? ((captures.filter (·.start ≤ byte)).reverse ++
          c :: (paintTo c.start opened cursor).2) byte =
            topAt? (((c :: captures).filter (·.start ≤ byte)).reverse ++ opened) byte := by
        rw [List.filter_cons_of_pos (by simpa using hge), List.reverse_cons, List.append_assoc]
        refine topAt?_append_congr ?_
        show topAt? ([c] ++ _) byte = topAt? ([c] ++ opened) byte
        exact topAt?_append_congr (topAt?_paintTo hge)
      rw [hstack, or_iff_right fun h => Nat.not_lt_of_ge hge h.2.1]
      exact and_congr_left' (iff_of_true hge (Nat.le_trans hc hge))

/-! ### From the outside to the inside -/

@[simp] theorem opensBefore_iff :
    opensBefore s t = true ↔ s.start < t.start ∨ s.start = t.start ∧ t.stop ≤ s.stop := by
  simp [opensBefore]

theorem opensBefore_trans (r s t : Stroke) (hrs : opensBefore r s = true)
    (hst : opensBefore s t = true) : opensBefore r t = true := by
  rw [opensBefore_iff] at *
  omega

theorem opensBefore_total (s t : Stroke) : (opensBefore s t || opensBefore t s) = true := by
  rw [Bool.or_eq_true, opensBefore_iff, opensBefore_iff]
  omega

theorem pairwise_outerFirst (captures : List Stroke) :
    (outerFirst captures).Pairwise (opensBefore · ·) :=
  List.pairwise_mergeSort opensBefore_trans opensBefore_total _

theorem pairwise_start_outerFirst (captures : List Stroke) :
    (outerFirst captures).Pairwise (·.start ≤ ·.start) := by
  refine (pairwise_outerFirst captures).imp fun h => ?_
  rw [opensBefore_iff] at h
  omega

theorem mem_outerFirst : s ∈ outerFirst captures ↔ s ∈ captures :=
  (List.mergeSort_perm _ _).mem_iff.trans List.mem_reverse

/-- The two cover the same bytes. -/
abbrev Stroke.SameRange (s t : Stroke) : Prop :=
  t.start = s.start ∧ t.stop = s.stop

/-- Captures of the same bytes stay in their order, though that is turned round. -/
theorem filter_outerFirst (s : Stroke) :
    (outerFirst captures).reverse.filter (s.SameRange ·) = captures.filter (s.SameRange ·) := by
  have hsame : (outerFirst captures).filter (s.SameRange ·) =
      captures.reverse.filter (s.SameRange ·) := by
    apply filter_mergeSort opensBefore_trans opensBefore_total
    intro t u ht hu
    have ht : s.SameRange t := of_decide_eq_true ht
    have hu : s.SameRange u := of_decide_eq_true hu
    rw [opensBefore_iff]
    omega
  rw [List.filter_reverse, hsame, List.filter_reverse, List.reverse_reverse]

/-- The capture is the innermost one over the byte: of all that cover it, none starts later, none
    that starts there ends earlier, and none of the same bytes comes before it. -/
structure IsInnermost (captures : List Stroke) (byte : Nat) (s : Stroke) : Prop where
  /-- It covers the byte. -/
  covers : s.Covers byte
  /-- It is the first one of the bytes that it covers. -/
  first : captures.find? (s.SameRange ·) = some s
  /-- All that cover the byte open before it. -/
  opens : ∀ t ∈ captures, t.Covers byte → opensBefore t s = true

/-- There is one innermost capture only. -/
theorem IsInnermost.unique (h : IsInnermost captures byte s) (h' : IsInnermost captures byte t) :
    s = t := by
  have hst := opensBefore_iff.mp (h'.opens s (List.mem_of_find?_eq_some h.first) h.covers)
  have hts := opensBefore_iff.mp (h.opens t (List.mem_of_find?_eq_some h'.first) h'.covers)
  -- as each opens before the other, both are the first one of the same bytes
  have hsame : t.start = s.start ∧ t.stop = s.stop := by omega
  have hfirst : captures.find? (s.SameRange ·) = some t := by
    simpa only [Stroke.SameRange, hsame.1, hsame.2] using h'.first
  exact Option.some.inj (h.first.symm.trans hfirst)

/-- The last capture over a byte, from the outside to the inside, is the innermost one. -/
theorem isInnermost_of_find? (h : (outerFirst captures).reverse.find? (·.Covers byte) = some s) :
    IsInnermost captures byte s := by
  have hcovers : s.Covers byte := by simpa using List.find?_some h
  obtain ⟨-, inner, outer, hsplit, hinner⟩ := List.find?_eq_some_iff_append.mp h
  have hinner : ∀ t ∈ inner, ¬t.Covers byte := fun t ht => by simpa using hinner t ht
  refine ⟨hcovers, ?_, fun t ht htcovers => ?_⟩
  · -- none of the captures further inside is of the same bytes, as these do not cover the byte
    have hnone : inner.filter (s.SameRange ·) = [] := by
      refine List.filter_eq_nil_iff.mpr fun t ht hsame => hinner t ht ?_
      obtain ⟨hstart, hstop⟩ : s.SameRange t := by simpa using hsame
      rw [Stroke.Covers, hstart, hstop]
      exact hcovers
    rw [← List.head?_filter, ← filter_outerFirst, hsplit, List.filter_append, hnone,
      List.nil_append, List.filter_cons_of_pos (by simp), List.head?_cons]
  · have hordered : (inner ++ s :: outer).Pairwise fun a b => opensBefore b a = true := by
      rw [← hsplit]
      exact List.pairwise_reverse.mpr (pairwise_outerFirst captures)
    have hmem : t ∈ inner ++ s :: outer := by
      rw [← hsplit, List.mem_reverse]
      exact mem_outerFirst.mpr ht
    rcases List.mem_append.mp hmem with ht | ht
    · exact absurd htcovers (hinner t ht)
    rcases List.mem_cons.mp ht with rfl | ht
    · simp
    · exact List.rel_of_pairwise_cons (List.pairwise_append.mp hordered).2.1 ht

/-- Where a byte is covered there is an innermost capture over it. -/
theorem exists_isInnermost (ht : t ∈ captures) (hcovers : t.Covers byte) :
    ∃ s, (outerFirst captures).reverse.find? (·.Covers byte) = some s ∧
      IsInnermost captures byte s := by
  have hmem : t ∈ (outerFirst captures).reverse :=
    List.mem_reverse.mpr (mem_outerFirst.mpr ht)
  have hsome : ((outerFirst captures).reverse.find? (·.Covers byte)).isSome :=
    List.find?_isSome.mpr ⟨t, hmem, by simpa using hcovers⟩
  obtain ⟨s, hs⟩ := Option.isSome_iff_exists.mp hsome
  exact ⟨s, hs, isInnermost_of_find? hs⟩

/-- **The capture on top is the innermost one.** -/
theorem find?_outerFirst_eq_some_iff :
    (outerFirst captures).reverse.find? (·.Covers byte) = some s ↔
      IsInnermost captures byte s := by
  refine ⟨isInnermost_of_find?, fun h => ?_⟩
  obtain ⟨t, hfind, ht⟩ := exists_isInnermost (List.mem_of_find?_eq_some h.first) h.covers
  rw [hfind, ht.unique h]

/-- **What the sweep paints.**  A byte is painted in the style of the innermost capture over it. -/
theorem painted_sweep_outerFirst :
    Painted (sweep (outerFirst captures) [] 0) byte style ↔
      ∃ s, IsInnermost captures byte s ∧ s.style = style := by
  have htop : topAt? ((outerFirst captures).filter (·.start ≤ byte)).reverse byte =
      (outerFirst captures).reverse.find? (·.Covers byte) := by
    rw [topAt?, ← List.filter_reverse, List.find?_filter]
    refine congrArg (List.find? · _) (funext fun t => Bool.eq_iff_iff.mpr ?_)
    simp only [decide_eq_true_eq]
    rfl
  rw [painted_sweep (pairwise_start_outerFirst captures) fun _ _ => Nat.zero_le _,
    List.append_nil, htop,
    and_iff_right (Nat.zero_le _), Option.map_eq_some_iff]
  simp only [find?_outerFirst_eq_some_iff]

/-! ### The order of the strokes -/

/-- A stroke that is not empty paints its first byte and its last one. -/
theorem painted_of_mem (hs : s ∈ strokes) (hlt : s.start < s.stop) :
    Painted strokes s.start s.style ∧ Painted strokes (s.stop - 1) s.style := by
  refine ⟨⟨s, hs, ⟨Nat.le_refl _, hlt⟩, rfl⟩, ⟨s, hs, ⟨?_, ?_⟩, rfl⟩⟩
  · omega
  · omega

/-- What is painted up to a limit lies between cursor and limit. -/
theorem bounds_of_mem_paintTo (h : s ∈ (paintTo limit opened cursor).1) :
    cursor ≤ s.start ∧ s.stop ≤ limit := by
  have hlt := lt_of_mem_paintTo h
  obtain ⟨hfirst, hlast⟩ := painted_of_mem h hlt
  have hstart : cursor ≤ s.start := (painted_paintTo.mp hfirst).1
  have hstop : s.stop - 1 < limit := (painted_paintTo.mp hlast).2.1
  omega

theorem le_of_mem_paintRest (h : s ∈ paintRest opened cursor) : cursor ≤ s.start :=
  (painted_paintRest.mp (painted_of_mem h (lt_of_mem_paintRest h)).1).1

theorem pairwise_paintTo : (paintTo limit opened cursor).1.Pairwise (·.stop ≤ ·.start) := by
  induction opened generalizing cursor with
  | nil => exact .nil
  | cons top below ih =>
    unfold paintTo
    by_cases hlimit : limit ≤ cursor
    · rw [if_pos hlimit]
      exact .nil
    rw [if_neg hlimit]
    by_cases hstop : top.stop ≤ cursor
    · rw [if_pos hstop]
      exact ih
    rw [if_neg hstop]
    by_cases hreach : limit ≤ top.stop
    · rw [if_pos hreach]
      exact List.pairwise_singleton _ _
    · rw [if_neg hreach]
      exact List.pairwise_cons.mpr ⟨fun t ht => (bounds_of_mem_paintTo ht).1, ih⟩

theorem pairwise_paintRest : (paintRest opened cursor).Pairwise (·.stop ≤ ·.start) := by
  induction opened generalizing cursor with
  | nil => exact .nil
  | cons top below ih =>
    unfold paintRest
    by_cases hstop : top.stop ≤ cursor
    · rw [if_pos hstop]
      exact ih
    · rw [if_neg hstop]
      exact List.pairwise_cons.mpr ⟨fun t ht => le_of_mem_paintRest ht, ih⟩

/-- **The strokes of a sweep** ascend and do not overlap. -/
theorem pairwise_sweep (hsorted : captures.Pairwise (·.start ≤ ·.start)) :
    (sweep captures opened cursor).Pairwise (·.stop ≤ ·.start) := by
  induction captures generalizing opened cursor with
  | nil => exact pairwise_paintRest
  | cons c captures ih =>
    obtain ⟨hfirst, hsorted⟩ := List.pairwise_cons.mp hsorted
    rw [sweep]
    refine List.pairwise_append.mpr ⟨pairwise_paintTo, ih hsorted, fun t ht u hu => ?_⟩
    -- what comes later starts where `c` starts, at the earliest
    have hstart := (painted_sweep hsorted hfirst).mp (painted_of_mem hu (lt_of_mem_sweep hu)).1
    exact Nat.le_trans (bounds_of_mem_paintTo ht).2 hstart.1

end CodeOverlay
