import Mathlib.Data.List.Nodup
import Mathlib.Data.List.Pairwise
import Mathlib.Data.List.Perm.Subperm
import Mathlib.Tactic.Choose
import CodeOverlay.Proofs.Sweeping

namespace CodeOverlay

/-!
# The colouring of a text

Strokes are put out joined: no two of them that touch have the same style.  So each of them is as
long as it can be, and any strokes that paint the same bytes in the same styles lie within them,
whatever their number and order.

* `Joined` — strokes that ascend and that are as long as they can be;
* `painted_joinTouching`, `joined_joinTouching` — joining keeps what is painted;
* `Joined.perm_of_painted` — no other strokes that paint the same are as few;
* `Innermost` — the capture of a tree by which a byte is painted;
* `SyntaxTree.painted_strokes_iff` — each byte is painted in the style of this capture;
* `SyntaxTree.strokes_innermost` — all of it together.
-/

variable {s t u : Stroke} {strokes other : List Stroke} {byte : Nat} {style : String}

/-! ### Joining -/

/-- One stroke ends before another one starts, and if the two touch, their styles differ. -/
def Stroke.Separate (s t : Stroke) : Prop :=
  s.stop < t.start ∨ s.stop = t.start ∧ s.style ≠ t.style

/-- Strokes that ascend and are as long as they can be. -/
structure Joined (strokes : List Stroke) : Prop where
  /-- None is empty. -/
  lt : ∀ s ∈ strokes, s.start < s.stop
  /-- They ascend without overlap, and those that touch differ in style. -/
  separate : strokes.Pairwise Stroke.Separate

theorem Stroke.Separate.le (h : s.Separate t) : s.stop ≤ t.start := by
  rcases h with hlt | ⟨heq, -⟩
  · exact Nat.le_of_lt hlt
  · exact Nat.le_of_eq heq

theorem joinFront_of_touch {rest : List Stroke} (h : s.stop = t.start ∧ s.style = t.style) :
    joinFront s (t :: rest) = ⟨s.start, t.stop, s.style⟩ :: rest :=
  if_pos h

theorem joinFront_of_not_touch {rest : List Stroke}
    (h : ¬(s.stop = t.start ∧ s.style = t.style)) : joinFront s (t :: rest) = s :: t :: rest :=
  if_neg h

theorem painted_joinFront (hs : s.start < s.stop) (hstrokes : ∀ t ∈ strokes, t.start < t.stop) :
    Painted (joinFront s strokes) byte style ↔ Painted (s :: strokes) byte style := by
  cases strokes with
  | nil => rfl
  | cons t rest =>
    have ht : t.start < t.stop := hstrokes t List.mem_cons_self
    by_cases htouch : s.stop = t.start ∧ s.style = t.style
    · -- the bytes of the one stroke are those of the two
      have hcovers : (s.start ≤ byte ∧ byte < t.stop) ↔ s.Covers byte ∨ t.Covers byte := by
        unfold Stroke.Covers
        omega
      rw [joinFront_of_touch htouch, painted_cons, painted_cons, painted_cons, ← htouch.2,
        ← or_assoc, ← or_and_right, ← hcovers]
      rfl
    · rw [joinFront_of_not_touch htouch]

/-- **Joining keeps what is painted.** -/
theorem painted_joinTouching (hstrokes : ∀ t ∈ strokes, t.start < t.stop) :
    Painted (joinTouching strokes) byte style ↔ Painted strokes byte style := by
  induction strokes with
  | nil => rfl
  | cons s strokes ih =>
    have hrest : ∀ t ∈ strokes, t.start < t.stop := fun t ht =>
      hstrokes t (List.mem_cons_of_mem _ ht)
    have hs : s.start < s.stop := hstrokes s List.mem_cons_self
    rw [joinTouching, List.foldr_cons, ← joinTouching,
      painted_joinFront hs fun _ ht => lt_of_mem_joinTouching hrest ht, painted_cons, painted_cons,
      ih hrest]

/-- Joining moves no first byte. -/
theorem exists_start_of_mem_joinTouching (h : t ∈ joinTouching strokes) :
    ∃ s ∈ strokes, s.start = t.start := by
  induction strokes generalizing t with
  | nil => cases h
  | cons s strokes ih =>
    have hrest : ∀ u ∈ joinTouching strokes, ∃ v ∈ s :: strokes, v.start = u.start := by
      intro u hu
      obtain ⟨v, hv, hstart⟩ := ih hu
      exact ⟨v, List.mem_cons_of_mem _ hv, hstart⟩
    rw [joinTouching, List.foldr_cons, ← joinTouching] at h
    cases hjoined : joinTouching strokes with
    | nil =>
      rw [hjoined, joinFront, List.mem_singleton] at h
      exact ⟨s, List.mem_cons_self, by rw [h]⟩
    | cons u rest =>
      rw [hjoined] at h hrest
      by_cases htouch : s.stop = u.start ∧ s.style = u.style
      · rw [joinFront_of_touch htouch] at h
        rcases List.mem_cons.mp h with rfl | h
        · exact ⟨s, List.mem_cons_self, rfl⟩
        · exact hrest t (List.mem_cons_of_mem _ h)
      · rw [joinFront_of_not_touch htouch] at h
        rcases List.mem_cons.mp h with rfl | h
        · exact ⟨t, List.mem_cons_self, rfl⟩
        · exact hrest t h

/-- A stroke in front of joined ones, as one with the first of them where they match. -/
theorem Joined.joinFront (h : Joined strokes) (hs : s.start < s.stop)
    (hle : ∀ t ∈ strokes, s.stop ≤ t.start) : Joined (joinFront s strokes) := by
  cases strokes with
  | nil => exact ⟨by simpa [CodeOverlay.joinFront] using hs, List.pairwise_singleton _ _⟩
  | cons t rest =>
    have ht : t.start < t.stop := h.lt t List.mem_cons_self
    have hst : s.stop ≤ t.start := hle t List.mem_cons_self
    have hrest : ∀ u ∈ rest, u.start < u.stop := fun u hu => h.lt u (List.mem_cons_of_mem _ hu)
    obtain ⟨hfirst, hseparate⟩ := List.pairwise_cons.mp h.separate
    by_cases htouch : s.stop = t.start ∧ s.style = t.style
    · rw [joinFront_of_touch htouch]
      refine ⟨?_, List.pairwise_cons.mpr ⟨fun u hu => ?_, hseparate⟩⟩
      · intro u hu
        rcases List.mem_cons.mp hu with rfl | hu
        · show s.start < t.stop
          omega
        · exact hrest u hu
      · show t.stop < u.start ∨ t.stop = u.start ∧ s.style ≠ u.style
        rw [htouch.2]
        exact hfirst u hu
    · rw [joinFront_of_not_touch htouch]
      refine ⟨?_, List.pairwise_cons.mpr ⟨fun u hu => ?_, h.separate⟩⟩
      · intro u hu
        rcases List.mem_cons.mp hu with rfl | hu
        · exact hs
        · exact h.lt u hu
      · rcases List.mem_cons.mp hu with rfl | hu
        · rcases Nat.lt_or_ge s.stop u.start with hlt | hge
          · exact .inl hlt
          · have heq : s.stop = u.start := Nat.le_antisymm hst hge
            exact .inr ⟨heq, fun hstyle => htouch ⟨heq, hstyle⟩⟩
        · -- `t` lies between the two
          have := (hfirst u hu).le
          exact .inl (by omega)

/-- **Strokes that are joined** are joined, if they ascended before. -/
theorem joined_joinTouching (hlt : ∀ s ∈ strokes, s.start < s.stop)
    (hordered : strokes.Pairwise (·.stop ≤ ·.start)) : Joined (joinTouching strokes) := by
  induction strokes with
  | nil => exact ⟨nofun, .nil⟩
  | cons s strokes ih =>
    obtain ⟨hfirst, hordered⟩ := List.pairwise_cons.mp hordered
    rw [joinTouching, List.foldr_cons, ← joinTouching]
    refine (ih (fun t ht => hlt t (List.mem_cons_of_mem _ ht)) hordered).joinFront
      (hlt s List.mem_cons_self) fun t ht => ?_
    obtain ⟨u, hu, hstart⟩ := exists_start_of_mem_joinTouching ht
    rw [← hstart]
    exact hfirst u hu

/-! ### As few as can be -/

/-- Two of the strokes are the same, or the one comes before the other. -/
theorem Joined.eq_or_separate (h : Joined strokes) (hs : s ∈ strokes) (ht : t ∈ strokes) :
    s = t ∨ s.Separate t ∨ t.Separate s := by
  by_contra hnot
  obtain ⟨hne, hseparate⟩ := not_or.mp hnot
  have hpair : strokes.Pairwise fun s t => s.Separate t ∨ t.Separate s := h.separate.imp .inl
  have : Std.Symm fun s t : Stroke => s.Separate t ∨ t.Separate s := ⟨fun _ _ => Or.symm⟩
  exact hseparate (hpair.forall hs ht hne)

/-- No byte is covered twice. -/
theorem Joined.eq_of_covers (h : Joined strokes) (hs : s ∈ strokes) (ht : t ∈ strokes)
    (hsb : s.Covers byte) (htb : t.Covers byte) : s = t := by
  unfold Stroke.Covers at hsb htb
  rcases h.eq_or_separate hs ht with heq | hst | hts
  · exact heq
  · have := hst.le
    omega
  · have := hts.le
    omega

/-- **Strokes are as long as they can be.**  A stroke of which each byte is painted in its style
    lies within the one that paints one of them. -/
theorem Joined.within (h : Joined strokes) (hs : s ∈ strokes) (hsb : s.Covers byte)
    (htb : t.Covers byte) (hstyle : s.style = t.style)
    (ht : ∀ b, t.Covers b → Painted strokes b t.style) :
    s.start ≤ t.start ∧ t.stop ≤ s.stop := by
  unfold Stroke.Covers at hsb htb
  constructor
  · -- otherwise the byte before `s` is painted, by a stroke that touches `s`
    by_contra hlt
    obtain ⟨u, hu, hub, hustyle⟩ := ht (s.start - 1) ⟨by omega, by omega⟩
    unfold Stroke.Covers at hub
    rcases h.eq_or_separate hu hs with rfl | hus | hsu
    · omega
    · rcases hus with hlt | ⟨-, hne⟩
      · omega
      · exact hne (hustyle.trans hstyle.symm)
    · have := hsu.le
      omega
  · -- and likewise for the byte after `s`
    by_contra hlt
    obtain ⟨u, hu, hub, hustyle⟩ := ht s.stop ⟨by omega, by omega⟩
    unfold Stroke.Covers at hub
    rcases h.eq_or_separate hs hu with rfl | hsu | hus
    · omega
    · rcases hsu with hlt | ⟨-, hne⟩
      · omega
      · exact hne (hstyle.trans hustyle.symm)
    · have := hus.le
      omega

theorem Joined.nodup (h : Joined strokes) : strokes.Nodup := by
  refine h.separate.imp_of_mem fun {s t} hs _ hst heq => ?_
  subst heq
  have := h.lt s hs
  have := hst.le
  omega

/-- Of strokes that paint the same, one starts where a joined one does, and it ends within it. -/
theorem Joined.exists_within (h : Joined strokes)
    (hother : ∀ b style, Painted other b style ↔ Painted strokes b style) (hs : s ∈ strokes) :
    ∃ t ∈ other, t.start = s.start ∧ t.start < t.stop ∧ t.stop ≤ s.stop ∧ t.style = s.style := by
  have hcovers : s.Covers s.start := ⟨Nat.le_refl _, h.lt s hs⟩
  obtain ⟨t, ht, htcovers, hstyle⟩ := (hother _ _).mpr (painted_of_mem hs (h.lt s hs)).1
  have hpainted : ∀ b, t.Covers b → Painted strokes b t.style :=
    fun b hb => (hother _ _).mp ⟨t, ht, hb, rfl⟩
  obtain ⟨hstart, hstop⟩ := h.within hs hcovers htcovers hstyle.symm hpainted
  unfold Stroke.Covers at htcovers
  exact ⟨t, ht, by omega, by omega, hstop, hstyle⟩

/-- **As few as can be.**  Strokes that paint the same bytes in the same styles are no fewer, and
    if they are no more either, they are the same. -/
theorem Joined.perm_of_painted (h : Joined strokes)
    (hother : ∀ b style, Painted other b style ↔ Painted strokes b style) :
    strokes.length ≤ other.length ∧ (other.length ≤ strokes.length → other.Perm strokes) := by
  have hexists := fun s (hs : s ∈ strokes) => h.exists_within hother hs
  have : Nonempty Stroke := ⟨⟨0, 0, ""⟩⟩
  choose! part hmem hstart hlt hstop hstyle using hexists
  -- different strokes start at different bytes, so they have different parts
  have hinj : ∀ s ∈ strokes, ∀ t ∈ strokes, part s = part t → s = t := by
    intro s hs t ht heq
    have hst : s.start = t.start := by rw [← hstart s hs, heq, hstart t ht]
    have hlt := h.lt t ht
    exact h.eq_of_covers hs ht ⟨Nat.le_refl _, h.lt s hs⟩ ⟨by omega, by omega⟩
  have hsubperm : (strokes.map part).Subperm other := by
    refine List.subperm_of_subset (h.nodup.map_on hinj) fun t ht => ?_
    obtain ⟨s, hs, rfl⟩ := List.mem_map.mp ht
    exact hmem s hs
  refine ⟨by simpa using hsubperm.length_le, fun hle => ?_⟩
  have hperm : (strokes.map part).Perm other := hsubperm.perm_of_length_le (by simpa using hle)
  -- if there is nothing but the parts, the part of a stroke paints its last byte as well
  have hself : ∀ s ∈ strokes, part s = s := by
    intro s hs
    have hslt := h.lt s hs
    obtain ⟨t, ht, hlast, -⟩ := (hother _ _).mpr (painted_of_mem hs hslt).2
    obtain ⟨u, hu, rfl⟩ := List.mem_map.mp (hperm.mem_iff.mpr ht)
    have hustart := hstart u hu
    have hustop := hstop u hu
    unfold Stroke.Covers at hlast
    have hucovers : u.Covers (s.stop - 1) := ⟨by omega, by omega⟩
    have hscovers : s.Covers (s.stop - 1) := ⟨by omega, by omega⟩
    obtain rfl : u = s := h.eq_of_covers hu hs hucovers hscovers
    exact Stroke.ext hustart (by omega) (hstyle u hu)
  rw [List.map_congr_left hself, List.map_id'] at hperm
  exact hperm.symm

/-- Strokes in order that paint the same and are no more are the same. -/
theorem Joined.eq_of_painted (h : Joined strokes)
    (hother : ∀ b style, Painted other b style ↔ Painted strokes b style)
    (hle : other.length ≤ strokes.length) (hordered : other.Pairwise (·.start ≤ ·.start)) :
    other = strokes := by
  have hperm : other.Perm strokes := (h.perm_of_painted hother).2 hle
  have hascending : strokes.Pairwise (·.start ≤ ·.start) := by
    refine h.separate.imp_of_mem fun {s t} hs _ hst => ?_
    have := h.lt s hs
    have := hst.le
    omega
  refine hperm.eq_of_pairwise (fun s t hs ht hst hts => ?_) hordered hascending
  -- no two strokes start at the same byte
  have hs : s ∈ strokes := hperm.mem_iff.mp hs
  exact h.eq_of_covers hs ht ⟨Nat.le_refl _, h.lt s hs⟩ ⟨hts, Nat.lt_of_le_of_lt hst (h.lt t ht)⟩

/-! ### The colouring of a syntax tree -/

/-- The capture has a style, and it covers the byte. -/
def Capture.Counts (styling : Styling) (byte : Nat) (c : Capture) : Prop :=
  (styling c.name).isSome ∧ c.start ≤ byte ∧ byte < c.stop

/-- The `i`-th of the captures is the one by which the byte is painted. -/
structure Innermost (styling : Styling) (captures : List Capture) (byte i : Nat) (c : Capture) :
    Prop where
  /-- It is the `i`-th one. -/
  get : captures[i]? = some c
  /-- It counts. -/
  counts : c.Counts styling byte
  /-- Of those that count it is one that starts last, -/
  start_le : ∀ d ∈ captures, d.Counts styling byte → d.start ≤ c.start
  /-- among these it is one that ends first, -/
  le_stop : ∀ d ∈ captures, d.Counts styling byte → d.start = c.start → c.stop ≤ d.stop
  /-- and among these it is the first one. -/
  first : ∀ j d, captures[j]? = some d → d.Counts styling byte → d.start = c.start →
    d.stop = c.stop → i ≤ j

/-- The captures of a tree in query order, those of the primary layer first. -/
def SyntaxTree.captures (tree : SyntaxTree) : List Capture :=
  tree.layers.flatMap (·.captures)

variable {styling : Styling} {tree : SyntaxTree} {c d : Capture} {i : Nat}

theorem styledCaptures_eq :
    styledCaptures styling tree = tree.captures.filterMap (·.styled? styling) :=
  List.filterMap_flatMap.symm

theorem Capture.styled?_eq_some_iff :
    c.styled? styling = some s ↔
      c.start < c.stop ∧ styling c.name = some s.style ∧ s.start = c.start ∧ s.stop = c.stop := by
  unfold styled?
  by_cases hlt : c.start < c.stop
  · rw [if_pos hlt, Option.map_eq_some_iff]
    constructor
    · rintro ⟨style, hstyle, rfl⟩
      exact ⟨hlt, hstyle, rfl, rfl⟩
    · rintro ⟨-, hstyle, hstart, hstop⟩
      exact ⟨s.style, hstyle, Stroke.ext hstart.symm hstop.symm rfl⟩
  · rw [if_neg hlt]
    exact iff_of_false nofun fun h => hlt h.1

/-- A capture counts for a byte if it is painted by a stroke that covers the byte. -/
theorem Capture.counts_iff :
    c.Counts styling byte ↔ ∃ s, c.styled? styling = some s ∧ s.Covers byte := by
  constructor
  · rintro ⟨hstyle, hstart, hstop⟩
    obtain ⟨style, hstyle⟩ := Option.isSome_iff_exists.mp hstyle
    exact ⟨⟨c.start, c.stop, style⟩,
      styled?_eq_some_iff.mpr ⟨by omega, hstyle, rfl, rfl⟩, hstart, hstop⟩
  · rintro ⟨s, hs, hstart, hstop⟩
    obtain ⟨-, hstyle, hstart', hstop'⟩ := styled?_eq_some_iff.mp hs
    exact ⟨by simp [hstyle], by omega, by omega⟩

/-- The captures that count for a byte and cover certain bytes are those that are painted there. -/
theorem Capture.any_styled?_iff (hs : s.Covers byte) :
    (d.styled? styling).any (s.SameRange ·) = true ↔
      d.Counts styling byte ∧ d.start = s.start ∧ d.stop = s.stop := by
  rw [Option.any_eq_true, counts_iff]
  constructor
  · rintro ⟨t, ht, hsame⟩
    obtain ⟨hstart, hstop⟩ : s.SameRange t := by simpa using hsame
    obtain ⟨-, -, htstart, htstop⟩ := styled?_eq_some_iff.mp ht
    refine ⟨⟨t, ht, ?_⟩, by omega, by omega⟩
    unfold Stroke.Covers at hs ⊢
    omega
  · rintro ⟨⟨t, ht, -⟩, hstart, hstop⟩
    obtain ⟨-, -, htstart, htstop⟩ := styled?_eq_some_iff.mp ht
    exact ⟨t, ht, decide_eq_true ⟨by omega, by omega⟩⟩

section
variable {captures : List Capture}

/-- The innermost one of the captures that have a style comes from the one by which the byte is
    painted. -/
theorem IsInnermost.exists_capture
    (h : IsInnermost (captures.filterMap (·.styled? styling)) byte s) :
    ∃ i c, Innermost styling captures byte i c ∧ c.styled? styling = some s := by
  have hfind := h.first
  rw [List.find?_filterMap] at hfind
  obtain ⟨c, hc, hs⟩ := Option.bind_eq_some_iff.mp hfind
  obtain ⟨-, i, hi, hget, hbefore⟩ := List.find?_eq_some_iff_getElem.mp hc
  obtain ⟨-, -, hstart, hstop⟩ := Capture.styled?_eq_some_iff.mp hs
  have hopens : ∀ d ∈ captures, d.Counts styling byte →
      d.start < c.start ∨ d.start = c.start ∧ c.stop ≤ d.stop := by
    intro d hd hcounts
    obtain ⟨t, ht, htb⟩ := Capture.counts_iff.mp hcounts
    obtain ⟨-, -, htstart, htstop⟩ := Capture.styled?_eq_some_iff.mp ht
    have := opensBefore_iff.mp (h.opens t (List.mem_filterMap.mpr ⟨d, hd, ht⟩) htb)
    omega
  refine ⟨i, c, ⟨List.getElem?_eq_some_iff.mpr ⟨hi, hget⟩,
    Capture.counts_iff.mpr ⟨s, hs, h.covers⟩, ?_, ?_, ?_⟩, hs⟩
  · intro d hd hcounts
    have := hopens d hd hcounts
    omega
  · intro d hd hcounts hdstart
    have := hopens d hd hcounts
    omega
  · -- a capture of the same bytes that comes before would have been found first
    intro j d hd hcounts hdstart hdstop
    by_contra hlt
    obtain ⟨hj, rfl⟩ := List.getElem?_eq_some_iff.mp hd
    have hany := (Capture.any_styled?_iff h.covers).mpr ⟨hcounts, by omega, by omega⟩
    have hnot := hbefore j (by omega)
    rw [hany] at hnot
    cases hnot

/-- The capture by which a byte is painted becomes the innermost one of those that have a style. -/
theorem Innermost.isInnermost (h : Innermost styling captures byte i c)
    (hs : c.styled? styling = some s) :
    IsInnermost (captures.filterMap (·.styled? styling)) byte s := by
  obtain ⟨-, -, hstart, hstop⟩ := Capture.styled?_eq_some_iff.mp hs
  obtain ⟨hi, hget⟩ := List.getElem?_eq_some_iff.mp h.get
  obtain ⟨-, hle, hlt⟩ := h.counts
  have hcovers : s.Covers byte := ⟨by omega, by omega⟩
  have hfind : captures.find? (fun d => (d.styled? styling).any (s.SameRange ·)) = some c := by
    refine List.find?_eq_some_iff_getElem.mpr ⟨?_, i, hi, hget, fun j hj => ?_⟩
    · exact (Capture.any_styled?_iff hcovers).mpr ⟨h.counts, hstart.symm, hstop.symm⟩
    · rw [Bool.not_eq_true', Bool.eq_false_iff]
      intro hany
      obtain ⟨hcounts, hdstart, hdstop⟩ := (Capture.any_styled?_iff hcovers).mp hany
      have := h.first j _ (List.getElem?_eq_getElem _) hcounts (by omega) (by omega)
      omega
  refine ⟨hcovers, ?_, fun t ht htb => ?_⟩
  · rw [List.find?_filterMap, hfind]
    exact hs
  · obtain ⟨d, hd, hdt⟩ := List.mem_filterMap.mp ht
    obtain ⟨-, -, htstart, htstop⟩ := Capture.styled?_eq_some_iff.mp hdt
    have hcounts : d.Counts styling byte := Capture.counts_iff.mpr ⟨t, hdt, htb⟩
    have hstart' := h.start_le d hd hcounts
    have hstop' := h.le_stop d hd hcounts
    rw [opensBefore_iff]
    omega

end

namespace SyntaxTree

/-- **What a byte is painted in**: the style of the innermost capture over it. -/
theorem painted_strokes_iff :
    Painted (tree.strokes styling) byte style ↔
      ∃ i c, Innermost styling tree.captures byte i c ∧ styling c.name = some style := by
  rw [strokes, paint, painted_joinTouching fun _ ht => lt_of_mem_sweep ht,
    painted_sweep_outerFirst, styledCaptures_eq]
  constructor
  · rintro ⟨s, hs, rfl⟩
    obtain ⟨i, c, hc, hstyled⟩ := hs.exists_capture
    obtain ⟨-, hstyle, -, -⟩ := Capture.styled?_eq_some_iff.mp hstyled
    exact ⟨i, c, hc, hstyle⟩
  · rintro ⟨i, c, hc, hstyle⟩
    obtain ⟨-, hle, hlt⟩ := hc.counts
    refine ⟨⟨c.start, c.stop, style⟩, hc.isInnermost ?_, rfl⟩
    exact Capture.styled?_eq_some_iff.mpr ⟨by omega, hstyle, rfl, rfl⟩

/-- Where a capture counts there is an innermost one. -/
theorem exists_innermost (hc : c ∈ tree.captures) (hcounts : c.Counts styling byte) :
    ∃ i d, Innermost styling tree.captures byte i d := by
  obtain ⟨t, ht, htb⟩ := Capture.counts_iff.mp hcounts
  obtain ⟨s, -, hs⟩ := exists_isInnermost (List.mem_filterMap.mpr ⟨c, hc, ht⟩) htb
  obtain ⟨i, d, hd, -⟩ := hs.exists_capture
  exact ⟨i, d, hd⟩

theorem joined_strokes : Joined (tree.strokes styling) :=
  joined_joinTouching (fun _ hs => lt_of_mem_sweep hs)
    (pairwise_sweep (pairwise_start_outerFirst _))

/-- Captures without a style make no difference. -/
theorem strokes_congr {tree' : SyntaxTree}
    (h : (tree'.captures.filter fun c => (styling c.name).isSome) =
      tree.captures.filter fun c => (styling c.name).isSome) :
    tree'.strokes styling = tree.strokes styling := by
  have hstyled : ∀ tree : SyntaxTree, styledCaptures styling tree =
      (tree.captures.filter fun c => (styling c.name).isSome).filterMap (·.styled? styling) := by
    intro tree
    rw [styledCaptures_eq, List.filterMap_filter]
    refine List.filterMap_congr fun c _ => ?_
    cases hstyle : styling c.name with
    | none => simp [Capture.styled?, hstyle]
    | some style => rfl
  rw [strokes, strokes, hstyled, hstyled, h]

/-- **The colouring of a syntax tree.**  A byte is covered by a stroke if and only if a capture over
    it has a style, and the stroke has the style of the innermost one: of those that start last
    and, among them, end first, the one that comes first in query order.  The strokes are not
    empty, ascend without overlap, and differ in style where they touch.  Strokes that paint the
    same are no fewer, and if they are as few they are these.  So where captures are nested the
    one inside all others wins, and captures without a style hide nothing. -/
theorem strokes_innermost (styling : Styling) (tree : SyntaxTree) :
    (∀ byte, (∃ s ∈ tree.strokes styling, s.Covers byte) ↔
        ∃ c ∈ tree.captures, c.Counts styling byte) ∧
      (∀ byte, ∀ s ∈ tree.strokes styling, s.Covers byte →
        ∃ i c, Innermost styling tree.captures byte i c ∧ styling c.name = some s.style) ∧
      Joined (tree.strokes styling) ∧
      (∀ other : List Stroke,
        (∀ byte style, Painted other byte style ↔ Painted (tree.strokes styling) byte style) →
          (tree.strokes styling).length ≤ other.length ∧
          (other.length ≤ (tree.strokes styling).length →
            other.Perm (tree.strokes styling) ∧
              (other.Pairwise (·.start ≤ ·.start) → other = tree.strokes styling))) ∧
      (∀ (byte i : Nat) (c : Capture) (style : String), tree.captures[i]? = some c →
        c.Counts styling byte → styling c.name = some style →
        (∀ (j : Nat) (d : Capture), tree.captures[j]? = some d → d.Counts styling byte →
          d.start ≤ c.start ∧ c.stop ≤ d.stop ∧
            (d.start = c.start → d.stop = c.stop → i ≤ j)) →
          Painted (tree.strokes styling) byte style) ∧
      (∀ tree' : SyntaxTree, (tree'.captures.filter fun c => (styling c.name).isSome) =
          (tree.captures.filter fun c => (styling c.name).isSome) →
        tree'.strokes styling = tree.strokes styling) := by
  have hinnermost : ∀ byte, ∀ s ∈ tree.strokes styling, s.Covers byte →
      ∃ i c, Innermost styling tree.captures byte i c ∧ styling c.name = some s.style :=
    fun byte s hs hcovers => painted_strokes_iff.mp ⟨s, hs, hcovers, rfl⟩
  refine ⟨fun byte => ⟨?_, ?_⟩, hinnermost, joined_strokes, fun other hother => ?_, ?_,
    fun tree' h => strokes_congr h⟩
  · rintro ⟨s, hs, hcovers⟩
    obtain ⟨i, c, hc, -⟩ := hinnermost byte s hs hcovers
    exact ⟨c, List.mem_of_getElem? hc.get, hc.counts⟩
  · rintro ⟨c, hc, hcounts⟩
    obtain ⟨i, d, hd⟩ := exists_innermost hc hcounts
    obtain ⟨style, hstyle⟩ := Option.isSome_iff_exists.mp hd.counts.1
    obtain ⟨s, hs, hcovers, -⟩ := painted_strokes_iff.mpr ⟨i, d, hd, hstyle⟩
    exact ⟨s, hs, hcovers⟩
  · obtain ⟨hle, hperm⟩ := joined_strokes.perm_of_painted hother
    exact ⟨hle, fun hfew => ⟨hperm hfew, joined_strokes.eq_of_painted hother hfew⟩⟩
  · -- a capture inside all others is the innermost one
    intro byte i c style hget hcounts hstyle hinside
    refine painted_strokes_iff.mpr ⟨i, c, ⟨hget, hcounts, ?_, ?_, ?_⟩, hstyle⟩
    · intro d hd hd'
      obtain ⟨j, hj⟩ := List.getElem?_of_mem hd
      exact (hinside j d hj hd').1
    · intro d hd hd' _
      obtain ⟨j, hj⟩ := List.getElem?_of_mem hd
      exact (hinside j d hj hd').2.1
    · intro j d hj hd' hstart hstop
      exact (hinside j d hj hd').2.2 hstart hstop

/-- A call of a function reaches into a string.  The string is also captured as a number and, by
    the inline layer, as a keyword; a part of it is a keyword of its own, and a blank one and one
    without a style count for nothing. -/
def overlapping : SyntaxTree where
  language := "js"
  source := "call(\"ab\")"
  primary := {
    root := .node "program" ⟨0, 10⟩ []
    shape := "(program)"
    captures := [⟨0, 7, "function"⟩, ⟨5, 9, "string"⟩, ⟨5, 9, "number"⟩, ⟨6, 6, "comment"⟩,
      ⟨1, 3, "spell"⟩] }
  inline := some {
    root := .node "inline" ⟨5, 9⟩ []
    shape := "(inline)"
    captures := [⟨5, 9, "keyword"⟩, ⟨7, 8, "keyword"⟩] }

/-- Where function and string overlap, the string starts later and wins; of the three captures of
    the string the first one does. -/
theorem strokes_innermost_overlapping :
    overlapping.strokes StyleTable.standard.styleOf? =
        [⟨0, 5, "tok-function"⟩, ⟨5, 7, "tok-string"⟩, ⟨7, 8, "tok-keyword"⟩,
          ⟨8, 9, "tok-string"⟩] ∧
      (⟨5, 7, "tok-string"⟩ : Stroke).Covers 6 ∧
      ∃ i c, Innermost StyleTable.standard.styleOf? overlapping.captures 6 i c ∧
        StyleTable.standard.styleOf? c.name = some "tok-string" := by
  have hstyled : styledCaptures StyleTable.standard.styleOf? overlapping =
      [⟨0, 7, "tok-function"⟩, ⟨5, 9, "tok-string"⟩, ⟨5, 9, "tok-number"⟩, ⟨5, 9, "tok-keyword"⟩,
        ⟨7, 8, "tok-keyword"⟩] := by
    decide +kernel
  have houter : outerFirst (styledCaptures StyleTable.standard.styleOf? overlapping) =
      [⟨0, 7, "tok-function"⟩, ⟨5, 9, "tok-keyword"⟩, ⟨5, 9, "tok-number"⟩, ⟨5, 9, "tok-string"⟩,
        ⟨7, 8, "tok-keyword"⟩] := by
    rw [hstyled]
    simp [outerFirst, List.mergeSort, List.MergeSort.Internal.splitInTwo, opensBefore]
  have hstrokes : overlapping.strokes StyleTable.standard.styleOf? =
      [⟨0, 5, "tok-function"⟩, ⟨5, 7, "tok-string"⟩, ⟨7, 8, "tok-keyword"⟩,
        ⟨8, 9, "tok-string"⟩] := by
    rw [strokes, paint, houter]
    decide
  have hmem : ⟨5, 7, "tok-string"⟩ ∈ overlapping.strokes StyleTable.standard.styleOf? := by
    rw [hstrokes]
    simp
  have hcovers : (⟨5, 7, "tok-string"⟩ : Stroke).Covers 6 := by
    decide
  obtain ⟨-, hinnermost, -⟩ := strokes_innermost StyleTable.standard.styleOf? overlapping
  exact ⟨hstrokes, hcovers, hinnermost 6 _ hmem hcovers⟩

end SyntaxTree

end CodeOverlay
