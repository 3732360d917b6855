namespace CodeOverlay

/-!
# Sequences of sized items

The content of a node is a sequence of items that take up room: the characters of a text
take their UTF-8 bytes, the children of a container take their own size.  Positions are
measured in that room, so a position addresses such a sequence only if it falls between
two items.

* `extent` — the room a sequence takes;
* `cut?` — the two halves of a sequence at a position, if the position falls between items;
* `splice` — the sequence with the items between two positions replaced;
* `cut?_eq_some_iff` — a cut is a factorisation whose first half has the wanted extent;
* `splice_eq_ok_iff` — a splice replaces the middle of a factorisation;
* `length_flatMap_eq_extent` — the room of a sequence as the length of a list;
* `length_le_extent`, `eq_nil_of_extent_eq_zero` — items that each take room;
* `map_eq_ok_iff`, `map_eq_error_iff`, `bind_eq_ok_iff`, `bind_eq_error_iff` — what a success or an
  error comes from;
* `bind_eq_bind_of_map_eq`, `map_eq_map_of_map_eq` — results, up to a function.
-/

variable {α ε : Type}

/-- The room taken by the items together. -/
def extent (size : α → Nat) : List α → Nat
  | [] => 0
  | item :: items => size item + extent size items

/-- The items before and after `pos`, or `none` if `pos` lies inside an item or past the
    end. -/
def cut? (size : α → Nat) : List α → Nat → Option (List α × List α)
  | items, 0 => some ([], items)
  | [], _ + 1 => none
  | item :: items, pos + 1 =>
    if size item ≤ pos + 1 then
      (cut? size items (pos + 1 - size item)).map fun (before, after) => (item :: before, after)
    else none

/-- Replaces the items between `start` and `stop` by `insert`.  A bound that falls inside
    an item is reported through `unaligned`, the lower bound first. -/
def splice (size : α → Nat) (unaligned : Nat → ε) (items insert : List α) (start stop : Nat) :
    Except ε (List α) :=
  match cut? size items start, cut? size items stop with
  | none, _ => .error (unaligned start)
  | some _, none => .error (unaligned stop)
  | some (before, _), some (_, after) => .ok (before ++ insert ++ after)

/-! ### What a cut is -/

@[simp] theorem extent_nil (size : α → Nat) : extent size [] = 0 := rfl

@[simp] theorem extent_cons (size : α → Nat) (item : α) (items : List α) :
    extent size (item :: items) = size item + extent size items := rfl

@[simp] theorem extent_append (size : α → Nat) (l r : List α) :
    extent size (l ++ r) = extent size l + extent size r := by
  induction l with
  | nil => simp
  | cons item l ih => simp [ih, Nat.add_assoc]

theorem extent_reverse (size : α → Nat) (items : List α) :
    extent size items.reverse = extent size items := by
  induction items with
  | nil => rfl
  | cons item items ih =>
    rw [List.reverse_cons, extent_append, ih, extent_cons, extent_cons, extent_nil]
    omega

/-- Lists that are as long as the items are large take the room of the items together. -/
theorem length_flatMap_eq_extent {β : Type} {size : α → Nat} {f : α → List β} {items : List α}
    (h : ∀ item ∈ items, (f item).length = size item) :
    (items.flatMap f).length = extent size items := by
  induction items with
  | nil => rfl
  | cons item items ih =>
    rw [List.flatMap_cons, List.length_append, h item (by simp), ih fun a ha => h a (by simp [ha]),
      extent_cons]

/-- Items that each take room take at least as much as there are of them. -/
theorem length_le_extent {size : α → Nat} (hpos : ∀ a, 0 < size a) (items : List α) :
    items.length ≤ extent size items := by
  induction items with
  | nil => exact Nat.le_refl 0
  | cons item items ih =>
    have := hpos item
    rw [List.length_cons, extent_cons]
    omega

/-- Items that each take room take none together only if there are none. -/
theorem eq_nil_of_extent_eq_zero {size : α → Nat} (hpos : ∀ a, 0 < size a) {items : List α}
    (h : extent size items = 0) : items = [] :=
  List.eq_nil_of_length_eq_zero (Nat.le_zero.mp (h ▸ length_le_extent hpos items))

/-- When every item takes room, a cut at `pos` is the factorisation of the sequence whose
    first half takes exactly `pos`. -/
theorem cut?_eq_some_iff {size : α → Nat} (hpos : ∀ a, 0 < size a) {items l r : List α}
    {pos : Nat} : cut? size items pos = some (l, r) ↔ items = l ++ r ∧ extent size l = pos := by
  induction items generalizing pos l with
  | nil =>
    cases pos with
    | zero => cases l <;> simp [cut?, eq_comm]
    | succ pos =>
      simp only [cut?, reduceCtorEq, false_iff, not_and]
      intro h
      simp [(List.append_eq_nil_iff.mp h.symm).1]
  | cons item items ih =>
    cases pos with
    | zero =>
      cases l with
      | nil => simp [cut?, eq_comm]
      | cons a l => have := hpos a; simp [cut?]; omega
    | succ pos =>
      simp only [cut?]
      split
      · next hle =>
        cases l with
        | nil => simp
        | cons a l =>
          simp only [Option.map_eq_some_iff, Prod.mk.injEq, List.cons.injEq, List.cons_append,
            extent_cons, Prod.exists]
          constructor
          · rintro ⟨before, after, h, ⟨rfl, rfl⟩, rfl⟩
            obtain ⟨rfl, hext⟩ := ih.mp h
            exact ⟨⟨rfl, rfl⟩, by omega⟩
          · rintro ⟨⟨rfl, rfl⟩, hext⟩
            exact ⟨l, r, ih.mpr ⟨rfl, by omega⟩, ⟨rfl, rfl⟩, rfl⟩
      · next hgt =>
        simp only [reduceCtorEq, false_iff, not_and]
        cases l with
        | nil => simp
        | cons a l => rintro ⟨rfl, rfl⟩; simp; omega

/-! ### What a splice is -/

/-- When every item takes room, a splice puts `insert` in the place of the items that lie
    between the two positions. -/
theorem splice_eq_ok_iff {size : α → Nat} (hpos : ∀ a, 0 < size a) {unaligned : Nat → ε}
    {items insert result : List α} {start stop : Nat} (hle : start ≤ stop) :
    splice size unaligned items insert start stop = .ok result ↔
      ∃ l m r, items = l ++ m ++ r ∧ extent size l = start ∧ extent size (l ++ m) = stop ∧
        result = l ++ insert ++ r := by
  constructor
  · intro h
    unfold splice at h
    split at h
    · exact absurd h (by simp)
    · exact absurd h (by simp)
    · rename_i l rest init r hstart hstop
      obtain ⟨hl, hlen⟩ := (cut?_eq_some_iff hpos).mp hstart
      obtain ⟨hr, hrlen⟩ := (cut?_eq_some_iff hpos).mp hstop
      have hprefix : l <+: init := by
        rcases List.prefix_or_prefix_of_prefix ⟨rest, hl.symm⟩ ⟨r, hr.symm⟩ with hp | ⟨t, rfl⟩
        · exact hp
        · -- if `l` were longer than `init`, it would take more room
          cases t with
          | nil => simp
          | cons a t =>
            have := hpos a
            simp only [extent_append, extent_cons] at hlen
            omega
      obtain ⟨m, rfl⟩ := hprefix
      exact ⟨l, m, r, hr, hlen, hrlen, by simpa using h.symm⟩
  · rintro ⟨l, m, r, rfl, rfl, rfl, rfl⟩
    have hstart : cut? size (l ++ m ++ r) (extent size l) = some (l, m ++ r) :=
      (cut?_eq_some_iff hpos).mpr ⟨by simp, rfl⟩
    have hstop : cut? size (l ++ m ++ r) (extent size (l ++ m)) = some (l ++ m, r) :=
      (cut?_eq_some_iff hpos).mpr ⟨rfl, rfl⟩
    simp only [splice, hstart, hstop]

/-- A result under a function is a success only through a success. -/
theorem map_eq_ok_iff {β : Type} {f : α → β} {x : Except ε α} {b : β} :
    x.map f = .ok b ↔ ∃ a, x = .ok a ∧ f a = b := by
  cases x <;> simp [Except.map]

/-- It is an error just if the result is. -/
theorem map_eq_error_iff {β : Type} {f : α → β} {x : Except ε α} {e : ε} :
    x.map f = .error e ↔ x = .error e := by
  cases x <;> simp [Except.map]

/-- A computation in two parts succeeds if both do. -/
theorem bind_eq_ok_iff {β : Type} {x : Except ε α} {f : α → Except ε β} {b : β} :
    x.bind f = .ok b ↔ ∃ a, x = .ok a ∧ f a = .ok b := by
  cases x <;> simp [Except.bind]

/-- A computation in two parts fails if the first does, or the second after the first. -/
theorem bind_eq_error_iff {β : Type} {x : Except ε α} {f : α → Except ε β} {e : ε} :
    x.bind f = .error e ↔ x = .error e ∨ ∃ a, x = .ok a ∧ f a = .error e := by
  cases x <;> simp [Except.bind]

/-- Two computations that agree up to `f` agree when they go on in the same way. -/
theorem bind_eq_bind_of_map_eq {β γ : Type} {f : α → β} {g h : α → Except ε γ}
    {x y : Except ε α} (hxy : x.map f = y.map f)
    (hgo : ∀ a b, x = .ok a → y = .ok b → f a = f b → g a = h b) : x.bind g = y.bind h := by
  cases x with
  | error e =>
    cases y with
    | error e' => cases hxy; rfl
    | ok b => cases hxy
  | ok a =>
    cases y with
    | error e' => cases hxy
    | ok b => exact hgo a b rfl rfl (Except.ok.inj hxy)

theorem map_eq_map_of_map_eq {β γ : Type} {f : α → β} {g : α → γ} {x y : Except ε α}
    (hxy : x.map f = y.map f)
    (hg : ∀ a b, x = .ok a → y = .ok b → f a = f b → g a = g b) : x.map g = y.map g := by
  have hbind : ∀ z : Except ε α, z.map g = z.bind fun a => .ok (g a) := by
    intro z
    cases z <;> rfl
  rw [hbind, hbind]
  exact bind_eq_bind_of_map_eq hxy fun a b ha hb hab => congrArg _ (hg a b ha hb hab)

end CodeOverlay
