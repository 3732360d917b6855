import CodeOverlay.Proofs.Scanning
import Mathlib.Data.List.Induction

namespace CodeOverlay.Json

/-!
# Reading values

A reader takes the pieces of a value, however they are written, and leaves those after it.  A list
is read item by item and an object member by member, and what has been read of them determines what
is known so far.

* `Reads` — a reader takes certain pieces and makes one result of them;
* `TakesEach` — a loop takes one entry after the other;
* `TakesEach.append` — then it comes as far as it takes them;
* `TakesEach.reads`, `TakesEach.eq_error` — it comes to the end, or to an entry that is refused;
* `ReadsItems`, `ReadsMembers` — so it is with the items of lists and the members of objects;
* `Spelled.skipValue` — every value can be passed over.
-/

variable {α β M : Type} {p : Piece} {ps rest : List Piece} {v : Value} {vs : List Value}
  {cs : List Char} {first : Bool} {close : Char} {e : List Piece} {es : List (List Piece)}

/-! ### Readers -/

/-- What may follow a value. -/
def Closing (ps : List Piece) : Prop :=
  ∀ p ∈ ps.head?, p = .mark ',' ∨ p = .mark ']' ∨ p = .mark '\x7d'

theorem closing_nil : Closing [] := nofun

theorem closing_listed (hclose : close = ']' ∨ close = '\x7d') :
    Closing (listed close false es ++ rest) := by
  cases es with
  | nil =>
    rintro p ⟨⟩
    exact .inr (hclose.imp (congrArg _) (congrArg _))
  | cons e es =>
    rintro p ⟨⟩
    exact .inl rfl

/-- What may follow a value does not go on a number. -/
theorem Spelled.ended (h : Spelled ps cs) (hps : Closing ps) : Ended cs := by
  have hblank : ∀ {c : Char}, isBlank c = true →
      c.isDigit = false ∧ c ≠ '.' ∧ c ≠ 'e' ∧ c ≠ 'E' := by
    intro c hc
    simp only [isBlank, Bool.or_eq_true, beq_iff_eq] at hc
    rcases hc with ((rfl | rfl) | rfl) | rfl <;> decide
  cases h with
  | nil hblanks => exact fun c hc => hblank (hblanks c (List.mem_of_mem_head? hc))
  | @cons p _ blanks w left hblanks hwritten h =>
    cases blanks with
    | cons b blanks =>
      rintro c ⟨⟩
      exact hblank (hblanks b List.mem_cons_self)
    | nil =>
      rcases hps p rfl with rfl | rfl | rfl
      all_goals
        cases hwritten
        rintro c ⟨⟩
        decide

/-- A reader takes some pieces, of which it makes `a`, and leaves those after them. -/
def Reads (read : List Char → Except Problem (α × List Char)) (ps : List Piece) (a : α) : Prop :=
  ∀ ⦃rest cs⦄, Closing rest → Spelled (ps ++ rest) cs →
    ∃ left, read cs = .ok (a, left) ∧ Spelled rest left

/-! ### Entries -/

theorem length_le_listed (es : List (List Piece)) :
    es.length + 1 ≤ (listed close false es).length := by
  induction es with
  | nil => exact Nat.le_refl _
  | cons e es ih =>
    simp only [listed, List.length_append, List.length_cons, if_neg Bool.false_ne_true]
    omega

/-- There are steps enough for all entries, and one more. -/
theorem Spelled.exists_steps (h : Spelled (listed close first es ++ rest) cs) :
    ∃ steps, cs.length + 1 = es.length + (steps + 1) := by
  have hlength : es.length ≤ (listed close first es).length := by
    cases es with
    | nil => exact Nat.zero_le _
    | cons e es =>
      have := @length_le_listed close es
      simp only [listed, List.length_append, List.length_cons]
      omega
  have hpieces := h.length_le
  rw [List.length_append] at hpieces
  exact ⟨cs.length - es.length, by omega⟩

theorem length_le_listed_of_mem (close : Char) (first : Bool) (h : e ∈ es) :
    e.length ≤ (listed close first es).length := by
  induction es generalizing first with
  | nil => exact absurd h List.not_mem_nil
  | cons e' es ih =>
    rw [listed, List.length_append, List.length_append]
    rcases List.mem_cons.mp h with rfl | h
    · omega
    · have := ih false h
      omega

/-- The first entry comes at once. -/
theorem Spelled.firstEntry (h : Spelled (listed close true (e :: es) ++ rest) cs) :
    Spelled (e ++ (listed close false es ++ rest)) cs := by
  rwa [listed, if_pos rfl, List.nil_append, List.append_assoc] at h

/-- Any other comes after a comma. -/
theorem Spelled.nextEntry (h : Spelled (listed close false (e :: es) ++ rest) cs) :
    ∃ left, skipBlanks cs = ',' :: left ∧
      Spelled (e ++ (listed close false es ++ rest)) left := by
  rw [listed, if_neg Bool.false_ne_true, List.singleton_append, List.cons_append,
    List.append_assoc] at h
  exact h.mark (by decide)

section

variable {loop : Nat → Bool → β → List Char → Except Problem (β × List Char)}
  {pieces : M → List Piece} {state : List M → β} {before : List M}

/-- In one step a loop takes one of the first entries, when what is known is what those before it
    come to, and then knows what it comes to together with them. -/
def TakesEach (loop : Nat → Bool → β → List Char → Except Problem (β × List Char)) (close : Char)
    (pieces : M → List Piece) (state : List M → β) (before : List M) : Prop :=
  ∀ ⦃init m⦄, init ++ [m] <+: before → ∀ ⦃steps first es rest cs⦄,
    Spelled (listed close first (pieces m :: es) ++ rest) cs →
      ∃ left, loop (steps + 1) first (state init) cs =
          loop steps false (state (init ++ [m])) left ∧
        Spelled (listed close false es ++ rest) left

/-- **Entry by entry.**  When the first entries have been taken, what is known is what these come
    to, and the other entries are left. -/
theorem TakesEach.append (h : TakesEach loop close pieces state before) (steps : Nat)
    (hcs : Spelled (listed close true (before.map pieces ++ es) ++ rest) cs) :
    ∃ left, loop (before.length + steps) true (state []) cs =
        loop steps before.isEmpty (state before) left ∧
      Spelled (listed close before.isEmpty es ++ rest) left := by
  -- the last entry is taken when those before it have been, so the induction starts at the end
  induction before using List.reverseRecOn generalizing es steps with
  | nil =>
    refine ⟨cs, ?_, hcs⟩
    rw [List.length_nil, Nat.zero_add]
    rfl
  | append_singleton init m ih =>
    rw [List.map_append, List.map_singleton, List.append_assoc, List.singleton_append] at hcs
    have hinit : TakesEach loop close pieces state init :=
      fun _ _ hpart => h (hpart.trans (List.prefix_append _ _))
    obtain ⟨left, htaken, hleft⟩ := ih hinit (steps + 1) hcs
    obtain ⟨left', hstep, hleft'⟩ := @h init m List.prefix_rfl steps _ _ _ _ hleft
    have hnonempty : (init ++ [m]).isEmpty = false := by cases init <;> rfl
    refine ⟨left', ?_, by rwa [hnonempty]⟩
    rw [List.length_append, List.length_singleton, Nat.add_assoc, Nat.add_comm 1, htaken, hstep,
      hnonempty]

/-- **All entries are taken** if each of them is and the loop stops after them. -/
theorem TakesEach.reads (h : TakesEach loop close pieces state before)
    (hstop : ∀ {steps first rest cs}, Spelled (listed close first [] ++ rest) cs →
      ∃ left, loop (steps + 1) first (state before) cs = .ok (state before, left) ∧
        Spelled rest left) :
    Reads (fun cs => loop (cs.length + 1) true (state []) cs)
      (listed close true (before.map pieces)) (state before) := by
  intro rest cs _ hcs
  obtain ⟨steps, hsteps⟩ := hcs.exists_steps
  rw [List.length_map] at hsteps
  rw [← List.append_nil (before.map pieces)] at hcs
  obtain ⟨left, htaken, hleft⟩ := h.append (steps + 1) hcs
  show ∃ left, loop (cs.length + 1) true (state []) cs = .ok (state before, left) ∧ _
  rw [hsteps, htaken]
  exact hstop hleft

/-- **An entry is refused** after all those that are taken. -/
theorem TakesEach.eq_error {problem : Problem} (h : TakesEach loop close pieces state before)
    (he : ∀ {steps first cs}, Spelled (listed close first (e :: es) ++ rest) cs →
      loop (steps + 1) first (state before) cs = .error problem)
    (hcs : Spelled (listed close true (before.map pieces ++ e :: es) ++ rest) cs) :
    loop (cs.length + 1) true (state []) cs = .error problem := by
  obtain ⟨steps, hsteps⟩ := hcs.exists_steps
  -- the entries that are taken use up one step each
  have hmore : cs.length + 1 = before.length + (es.length + 1 + steps + 1) := by
    simp only [hsteps, List.length_append, List.length_map, List.length_cons, Nat.add_assoc]
  obtain ⟨left, htaken, hleft⟩ := h.append (es.length + 1 + steps + 1) hcs
  rw [hmore, htaken]
  exact he hleft

end

/-! ### Lists -/

theorem Value.exists_pieces (v : Value) :
    ∃ p ps, v.pieces = p :: ps ∧ ∀ c, p = .mark c → isBlank c = false ∧ c ≠ ']' := by
  cases v <;> exact ⟨_, _, by rw [pieces], by simp [isBlank]⟩

/-- A value starts with something else than the bracket after a list. -/
theorem Spelled.value_start (h : Spelled (v.pieces ++ ps) cs) :
    ∃ c left, skipBlanks cs = c :: left ∧ c ≠ ']' ∧ Spelled (v.pieces ++ ps) (c :: left) := by
  obtain ⟨p, qs, hv, hp⟩ := v.exists_pieces
  rw [hv, List.cons_append] at h ⊢
  obtain ⟨w, left, hw, hleft, h⟩ := h.exists_skipBlanks fun c hc => (hp c hc).1
  obtain ⟨c, more, rfl, hc⟩ := hw.exists_cons
  exact ⟨c, more ++ left, hleft, hc.elim (fun hc => (hp c hc).2) And.right,
    @Spelled.cons _ _ [] _ _ nofun hw h⟩

theorem Spelled.nextItem_cons (h : Spelled (listed ']' first (v.pieces :: es) ++ rest) cs) :
    ∃ left, nextItem first cs = .ok (some left) ∧
      Spelled (v.pieces ++ (listed ']' false es ++ rest)) left := by
  cases first with
  | true =>
    obtain ⟨c, left, hleft, hc, h⟩ := h.firstEntry.value_start
    exact ⟨c :: left, by simp [nextItem, hleft, hc], h⟩
  | false =>
    obtain ⟨left, hcomma, h⟩ := h.nextEntry
    obtain ⟨c, left', hleft, hc, h⟩ := h.value_start
    exact ⟨c :: left', by simp [nextItem, hcomma, hleft, hc], h⟩

section

variable {f : M → Value} {state : List M → β} {before : List M}
  {read : β → List Char → Except Problem (β × List Char)}

/-- A reader of items takes each of the first ones. -/
def ReadsItems (read : β → List Char → Except Problem (β × List Char)) (f : M → Value)
    (state : List M → β) (before : List M) : Prop :=
  ∀ init m, init ++ [m] <+: before →
    Reads (read (state init)) (f m).pieces (state (init ++ [m]))

theorem ReadsItems.takesEach (h : ReadsItems read f state before) :
    TakesEach (readItemsIn read) ']' (fun m => (f m).pieces) state before := by
  intro init m hinit steps first es rest cs hcs
  obtain ⟨left, hnext, hleft⟩ := hcs.nextItem_cons
  obtain ⟨left', hm, hleft'⟩ := h init m hinit (closing_listed (.inl rfl)) hleft
  refine ⟨left', ?_, hleft'⟩
  rw [readItemsIn, hnext]
  simp only [hm]

/-- **A list is read** if each of its items is. -/
theorem ReadsItems.reads (h : ReadsItems read f state before) :
    Reads (readItems read (state [])) (listed ']' true (before.map fun m => (f m).pieces))
      (state before) := by
  refine h.takesEach.reads fun {steps first rest cs} hcs => ?_
  obtain ⟨left, hleft, hrest⟩ := Spelled.mark hcs (by decide)
  refine ⟨left, ?_, hrest⟩
  simp [readItemsIn, nextItem, expect, hleft, Except.map]

/-- **A list is refused** where the first of its items is. -/
theorem ReadsItems.eq_error {problem : Problem} (h : ReadsItems read f state before)
    (hv : ∀ rest left, Spelled (v.pieces ++ rest) left →
      read (state before) left = .error problem)
    (hcs : Spelled (listed ']' true ((before.map fun m => (f m).pieces) ++ v.pieces :: es) ++ rest)
      cs) :
    readItems read (state []) cs = .error problem := by
  refine h.takesEach.eq_error (fun {steps first cs} hcs => ?_) hcs
  obtain ⟨left, hnext, hleft⟩ := hcs.nextItem_cons
  rw [readItemsIn, hnext]
  simp only [hv _ left hleft]

end

/-! ### Objects -/

/-- The name of a member is read.  Where halves do not matter, it may be read as another one. -/
theorem Spelled.nextName_cons {halves : Bool} {member : List Sign × Value}
    (h : Spelled (listed '\x7d' first (entry member :: es) ++ rest) cs)
    (hwhole : Whole halves member.1) :
    ∃ opened name left, nextName first cs = .ok (some opened) ∧
      readText halves opened = .ok (name, left) ∧ (halves = true → member.1 = signs name) ∧
      Spelled (.mark ':' :: member.2.pieces ++ (listed '\x7d' false es ++ rest)) left := by
  cases first with
  | true =>
    obtain ⟨body, left, hleft, hbody, h⟩ := Spelled.text h.firstEntry
    obtain ⟨name, hread, hsigns⟩ := hbody.readText hwhole
    exact ⟨_, name, left, by simp [nextName, hleft], hread, hsigns, h⟩
  | false =>
    obtain ⟨left, hcomma, h⟩ := h.nextEntry
    obtain ⟨body, left', hleft, hbody, h⟩ := Spelled.text h
    obtain ⟨name, hread, hsigns⟩ := hbody.readText hwhole
    exact ⟨_, name, left', by simp [nextName, Json.expect, hcomma, hleft, Except.map], hread,
      hsigns, h⟩

section

variable {f : M → List Sign × Value} {state : List M → β} {before : List M}
  {member : List Sign × Value} {halves : Bool}
  {read : β → String → List Char → Except Problem (β × List Char)}

/-- A reader of members takes each of the first ones. -/
def ReadsMembers (halves : Bool) (read : β → String → List Char → Except Problem (β × List Char))
    (f : M → List Sign × Value) (state : List M → β) (before : List M) : Prop :=
  ∀ init m, init ++ [m] <+: before → Whole halves (f m).1 ∧
    ∀ name, (halves = true → (f m).1 = signs name) →
      Reads (read (state init) name) (.mark ':' :: (f m).2.pieces) (state (init ++ [m]))

theorem ReadsMembers.takesEach (h : ReadsMembers halves read f state before) :
    TakesEach (readMembersIn halves read) '\x7d' (fun m => entry (f m)) state before := by
  intro init m hinit steps first es rest cs hcs
  obtain ⟨hwhole, hm⟩ := h init m hinit
  obtain ⟨opened, name, left, hnext, hname, hsigns, hleft⟩ := hcs.nextName_cons hwhole
  obtain ⟨left', hm, hleft'⟩ := hm name hsigns (closing_listed (.inr rfl)) hleft
  refine ⟨left', ?_, hleft'⟩
  rw [readMembersIn, hnext]
  simp only [hname, hm]

/-- **An object is read** if each of its members is. -/
theorem ReadsMembers.reads (h : ReadsMembers halves read f state before) :
    Reads (readMembers halves read (state []))
      (listed '\x7d' true (before.map fun m => entry (f m))) (state before) := by
  refine h.takesEach.reads fun {steps first rest cs} hcs => ?_
  obtain ⟨left, hleft, hrest⟩ := Spelled.mark hcs (by decide)
  refine ⟨left, ?_, hrest⟩
  simp [readMembersIn, nextName, expect, hleft, Except.map]

/-- **An object is refused** where the first of its members is. -/
theorem ReadsMembers.eq_error {problem : Problem} (h : ReadsMembers halves read f state before)
    (hwhole : Whole halves member.1)
    (hmember : ∀ name rest left, (halves = true → member.1 = signs name) →
      Spelled (.mark ':' :: member.2.pieces ++ rest) left →
      read (state before) name left = .error problem)
    (hcs : Spelled
      (listed '\x7d' true ((before.map fun m => entry (f m)) ++ entry member :: es) ++ rest) cs) :
    readMembers halves read (state []) cs = .error problem := by
  refine h.takesEach.eq_error (fun {steps first cs} hcs => ?_) hcs
  obtain ⟨opened, name, left, hnext, hname, hsigns, hleft⟩ := hcs.nextName_cons hwhole
  rw [readMembersIn, hnext]
  simp only [hname, hmember name _ left hsigns hleft]

end

/-! ### Any value -/

/-- What holds of words, numbers and texts, and of lists and objects if it holds of all values in
    them, holds of every value. -/
theorem Value.induct {P : Value → Prop} (word : ∀ w, P (.word w)) (number : ∀ n, P (.number n))
    (text : ∀ ss, P (.text ss)) (list : ∀ items, (∀ v ∈ items, P v) → P (.list items))
    (object : ∀ members, (∀ m ∈ members, P m.2) → P (.object members)) : ∀ v, P v
  | .word w => word w
  | .number n => number n
  | .text ss => text ss
  | .list items => list items fun v _ => induct word number text list object v
  | .object members => object members fun (_, v) _ => induct word number text list object v
termination_by v => v
decreasing_by
  · decreasing_tactic
  · rename_i hmem
    have := List.sizeOf_lt_of_mem hmem
    simp only [Prod.mk.sizeOf_spec, Value.object.sizeOf_spec] at this ⊢
    omega

/-- Passes over a value and learns nothing from it. -/
def passWithin (levels : Nat) (cs : List Char) : Except Problem (Unit × List Char) :=
  (skipWithin levels .little cs).map ((), ·)

variable {levels : Nat}

theorem passWithin_scalar {c : Char} {left : List Char} (hcs : skipBlanks cs = c :: left)
    (hc : c ≠ '[' ∧ c ≠ '\x7b') :
    passWithin (levels + 1) cs = (skipScalar .little c left).map ((), ·) := by
  simp [passWithin, skipWithin, hcs, hc]

theorem reads_word (w : Word) : Reads (passWithin (levels + 1)) (Value.word w).pieces () := by
  intro rest cs _ h
  rw [Value.pieces] at h
  obtain ⟨left, hleft, h⟩ := h.word
  obtain ⟨c, more, hw, hc, hrest⟩ := w.exists_cons
  have hmark : c ≠ '[' ∧ c ≠ '\x7b' := by
    constructor <;> rintro rfl <;> revert hc <;> decide
  rw [hw, List.cons_append] at hleft
  refine ⟨left, ?_, h⟩
  rw [passWithin_scalar hleft hmark, skipScalar, hrest]
  simp only [expectWord_append more left]
  rfl

theorem reads_number (n : Numeral) :
    Reads (passWithin (levels + 1)) (Value.number n).pieces () := by
  intro rest cs hrest h
  rw [Value.pieces] at h
  obtain ⟨left, hleft, h⟩ := h.number
  obtain ⟨c, more, hn, hc, hskip⟩ := @Numeral.skipScalar left n (h.ended hrest)
  have hmark : c ≠ '[' ∧ c ≠ '\x7b' := by
    constructor <;> rintro rfl <;> revert hc <;> decide
  rw [hn] at hleft
  refine ⟨left, ?_, h⟩
  rw [passWithin_scalar hleft hmark, hskip]
  rfl

theorem reads_text (ss : List Sign) :
    Reads (passWithin (levels + 1)) (Value.text ss).pieces () := by
  intro rest cs _ h
  rw [Value.pieces] at h
  obtain ⟨body, left, hleft, hbody, h⟩ := h.text
  have hwhole : Whole false ss := fun h => absurd h Bool.false_ne_true
  obtain ⟨text, hread, -⟩ := @Spells.readText _ _ left false hbody hwhole
  refine ⟨left, ?_, h⟩
  rw [passWithin_scalar hleft (by decide), skipScalar, show wordRest? '"' = none by decide]
  simp [Care.halves, hread, Except.map]

theorem reads_list (h : ∀ v ∈ vs, Reads (passWithin levels) v.pieces ()) :
    Reads (passWithin (levels + 1)) (Value.list vs).pieces () := by
  have hread : ReadsItems (fun _ => passWithin levels) id (fun _ => ()) vs :=
    fun init v hv => h v (hv.subset (by simp))
  have hitems := hread.reads
  intro rest cs hrest h
  rw [Value.pieces_list, List.cons_append] at h
  obtain ⟨left, hleft, h⟩ := h.mark (by decide)
  obtain ⟨left', hitems, h⟩ := hitems hrest h
  refine ⟨left', ?_, h⟩
  have hskip : skipWithin (levels + 1) .little cs =
      (readItems (fun _ => passWithin levels) () left).map (·.2) := by
    simp only [skipWithin, hleft, Care.enter]
    rfl
  rw [passWithin, hskip, hitems]
  rfl

theorem reads_object {members : List (List Sign × Value)}
    (h : ∀ m ∈ members, Reads (passWithin levels) m.2.pieces ()) :
    Reads (passWithin (levels + 1)) (Value.object members).pieces () := by
  have hread : ReadsMembers false (fun _ _ cs => (expect ':' cs).bind (passWithin levels)) id
      (fun _ => ()) members := by
    refine fun init m hm => ⟨nofun, fun name _ rest cs hrest hcs => ?_⟩
    obtain ⟨left, hleft, hcs⟩ := hcs.expect (by decide)
    obtain ⟨left', hm, hcs⟩ := h m (hm.subset (by simp)) hrest hcs
    exact ⟨left', by simp only [hleft, Except.bind, hm], hcs⟩
  have hmembers := hread.reads
  intro rest cs hrest h
  rw [Value.pieces_object, List.cons_append] at h
  obtain ⟨left, hleft, h⟩ := h.mark (by decide)
  obtain ⟨left', hmembers, h⟩ := hmembers hrest h
  refine ⟨left', ?_, h⟩
  have hskip : skipWithin (levels + 1) .little cs =
      (readMembers false (fun _ _ cs => (expect ':' cs).bind (passWithin levels)) () left).map
        (·.2) := by
    simp only [skipWithin, hleft, Care.enter]
    rfl
  rw [passWithin, hskip, hmembers]
  rfl

/-- A value is passed over if there are levels enough. -/
theorem reads_passWithin (v : Value) (hlevels : v.pieces.length ≤ levels) :
    Reads (passWithin levels) v.pieces () := by
  induction v using Value.induct generalizing levels with
  | word w =>
    obtain ⟨levels, rfl⟩ := Nat.exists_eq_add_one_of_ne_zero (Nat.ne_zero_of_lt hlevels)
    exact reads_word w
  | number n =>
    obtain ⟨levels, rfl⟩ := Nat.exists_eq_add_one_of_ne_zero (Nat.ne_zero_of_lt hlevels)
    exact reads_number n
  | text ss =>
    obtain ⟨levels, rfl⟩ := Nat.exists_eq_add_one_of_ne_zero (Nat.ne_zero_of_lt hlevels)
    exact reads_text ss
  | list vs ih =>
    rw [Value.pieces_list, List.length_cons] at hlevels
    obtain ⟨levels, rfl⟩ := Nat.exists_eq_add_one_of_ne_zero (Nat.ne_zero_of_lt hlevels)
    refine reads_list fun v hv => ih v hv ?_
    exact Nat.le_trans (length_le_listed_of_mem ']' true (List.mem_map_of_mem hv))
      (Nat.le_of_succ_le_succ hlevels)
  | object members ih =>
    rw [Value.pieces_object, List.length_cons] at hlevels
    obtain ⟨levels, rfl⟩ := Nat.exists_eq_add_one_of_ne_zero (Nat.ne_zero_of_lt hlevels)
    refine reads_object fun m hm => ih m hm ?_
    have hmember := length_le_listed_of_mem '\x7d' true (List.mem_map_of_mem (f := entry) hm)
    simp only [entry, List.length_cons] at hmember
    omega

/-- **Every value can be passed over.** -/
theorem Spelled.skipValue (h : Spelled (v.pieces ++ rest) cs) (hrest : Closing rest) :
    ∃ left, Json.skipValue .little cs = .ok left ∧ Spelled rest left := by
  have hpieces := h.length_le
  rw [List.length_append] at hpieces
  have hlevels : v.pieces.length ≤ cs.length + 1 := by omega
  obtain ⟨left, hleft, h⟩ := reads_passWithin v hlevels hrest h
  obtain ⟨left', hskip, heq⟩ := map_eq_ok_iff.mp hleft
  cases heq
  exact ⟨left, hskip, h⟩

end CodeOverlay.Json
