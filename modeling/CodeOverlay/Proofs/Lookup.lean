import CodeOverlay.Document.Traversal

namespace CodeOverlay.Node

/-!
# Nodes found by their positions

* `nodeAtAll?_append` — a position is sought among the nodes whose room it falls into;
* `nodeAt?_le` — a node found below another one lies within its content;
* `nodeAtAll?_cases` — what is found among nodes lies before one of them, in it or after it.
-/

@[simp] theorem nodeAt?_leaf (tag : Tag) (text : String) (pos : Nat) :
    (leaf tag text).nodeAt? pos = none := by
  simp [nodeAt?]

@[simp] theorem nodeAt?_branch (tag : Tag) (children : List Node) (pos : Nat) :
    (branch tag children).nodeAt? pos = nodeAtAll? children pos := by
  simp [nodeAt?]

/-- The first of consecutive nodes starts at their first position. -/
@[simp] theorem nodeAtAll?_cons_zero (n : Node) (ns : List Node) :
    nodeAtAll? (n :: ns) 0 = some n := by
  simp [nodeAtAll?]

/-- After the opening boundary of the first of consecutive nodes come the positions of its
    content. -/
theorem nodeAtAll?_cons_of_lt {n : Node} {pos : Nat} (ns : List Node) (hpos : pos + 1 < n.size) :
    nodeAtAll? (n :: ns) (pos + 1) = n.nodeAt? pos := by
  simp [nodeAtAll?, hpos]

/-- Positions after the first of consecutive nodes belong to the others. -/
theorem nodeAtAll?_cons_of_le {n : Node} {pos : Nat} (ns : List Node) (hpos : n.size ≤ pos) :
    nodeAtAll? (n :: ns) pos = nodeAtAll? ns (pos - n.size) := by
  have := n.size_pos
  rw [nodeAtAll?, if_neg (by omega), if_neg (by omega)]

theorem nodeAtAll?_append (l r : List Node) (pos : Nat) :
    nodeAtAll? (l ++ r) pos =
      if pos < extent size l then nodeAtAll? l pos else nodeAtAll? r (pos - extent size l) := by
  induction l generalizing pos with
  | nil => simp
  | cons n l ih =>
    rw [List.cons_append, extent_cons]
    rcases Nat.lt_or_ge pos n.size with hlt | hge
    · rw [if_pos (by omega)]
      cases pos with
      | zero => simp
      | succ pos => rw [nodeAtAll?_cons_of_lt _ hlt, nodeAtAll?_cons_of_lt _ hlt]
    · rw [nodeAtAll?_cons_of_le _ hge, nodeAtAll?_cons_of_le _ hge, ih, Nat.sub_sub]
      by_cases h : pos - n.size < extent size l
      · rw [if_pos h, if_pos (by omega)]
      · rw [if_neg h, if_neg (by omega)]

/-- A node found among consecutive nodes lies within their room, if each of them contains
    what is found in it. -/
private theorem nodeAtAll?_le_of {ns : List Node} {pos : Nat} {m : Node}
    (hns : ∀ c ∈ ns, ∀ {p}, c.nodeAt? p = some m → p + m.size ≤ c.contentSize)
    (h : nodeAtAll? ns pos = some m) : pos + m.size ≤ extent size ns := by
  induction ns generalizing pos with
  | nil => simp [nodeAtAll?] at h
  | cons n ns ih =>
    rw [extent_cons]
    rcases Nat.lt_or_ge pos n.size with hlt | hge
    · cases pos with
      | zero =>
        rw [nodeAtAll?_cons_zero, Option.some.injEq] at h
        rw [h]
        omega
      | succ pos =>
        rw [nodeAtAll?_cons_of_lt _ hlt] at h
        have := hns n (by simp) h
        have := n.size_eq
        omega
    · rw [nodeAtAll?_cons_of_le _ hge] at h
      have := ih (fun c hc => hns c (by simp [hc])) h
      omega

/-- A node found below another one lies within its content. -/
theorem nodeAt?_le {n m : Node} {pos : Nat} (h : n.nodeAt? pos = some m) :
    pos + m.size ≤ n.contentSize := by
  induction n using Node.induct generalizing pos with
  | leaf tag text => simp at h
  | branch tag children ih =>
    rw [contentSize_branch]
    exact nodeAtAll?_le_of (fun c hc _ => ih c hc) (by simpa using h)

/-- Only a node with content has nodes below it. -/
theorem contentSize_ne_zero {n m : Node} {pos : Nat} (h : n.nodeAt? pos = some m) :
    n.contentSize ≠ 0 := by
  have := nodeAt?_le h
  have := m.size_pos
  omega

/-- A node found among consecutive nodes lies within their room. -/
theorem nodeAtAll?_le {ns : List Node} {m : Node} {pos : Nat} (h : nodeAtAll? ns pos = some m) :
    pos + m.size ≤ extent size ns :=
  nodeAtAll?_le_of (fun _ _ _ => nodeAt?_le) h

/-- What is found among consecutive nodes is found in those before one of them, is this one, is
    found in it, or is found in those after it. -/
theorem nodeAtAll?_cases {l r : List Node} {n m : Node} {pos : Nat}
    (h : nodeAtAll? (l ++ n :: r) pos = some m) :
    (nodeAtAll? l pos = some m ∧ pos + m.size ≤ extent size l) ∨
      (pos = extent size l ∧ m = n) ∨
      (∃ p, pos = extent size l + 1 + p ∧ n.nodeAt? p = some m ∧ p + m.size ≤ n.contentSize) ∨
      ∃ p, pos = extent size l + n.size + p ∧ nodeAtAll? r p = some m := by
  rw [nodeAtAll?_append] at h
  by_cases hl : pos < extent size l
  · rw [if_pos hl] at h
    exact .inl ⟨h, nodeAtAll?_le h⟩
  rw [if_neg hl] at h
  obtain ⟨p, rfl⟩ := Nat.exists_eq_add_of_le (Nat.le_of_not_lt hl)
  rw [Nat.add_sub_cancel_left] at h
  rcases Nat.lt_or_ge p n.size with hlt | hge
  · cases p with
    | zero =>
      rw [nodeAtAll?_cons_zero, Option.some.injEq] at h
      exact .inr (.inl ⟨rfl, h.symm⟩)
    | succ p =>
      rw [nodeAtAll?_cons_of_lt _ hlt] at h
      exact .inr (.inr (.inl ⟨p, by omega, h, nodeAt?_le h⟩))
  · rw [nodeAtAll?_cons_of_le _ hge] at h
    exact .inr (.inr (.inr ⟨p - n.size, by omega, h⟩))

/-- What is found in the first of consecutive lists of nodes is found in all of them. -/
theorem nodeAtAll?_append_left {l : List Node} {m : Node} {pos : Nat} (r : List Node)
    (h : nodeAtAll? l pos = some m) : nodeAtAll? (l ++ r) pos = some m := by
  have := nodeAtAll?_le h
  have := m.size_pos
  rw [nodeAtAll?_append, if_pos (by omega), h]

/-- What is found in the second of two lists of nodes is found after the first. -/
theorem nodeAtAll?_append_right {r : List Node} {m : Node} {pos : Nat} (l : List Node)
    (h : nodeAtAll? r pos = some m) :
    nodeAtAll? (l ++ r) (extent size l + pos) = some m := by
  rw [nodeAtAll?_append, if_neg (by omega), Nat.add_sub_cancel_left, h]

/-- What is found in a node is found after its opening boundary. -/
theorem nodeAtAll?_cons_inside {n m : Node} {pos : Nat} (ns : List Node)
    (h : n.nodeAt? pos = some m) :
    nodeAtAll? (n :: ns) (1 + pos) = some m := by
  have := nodeAt?_le h
  have := m.size_pos
  have := n.size_eq
  rw [Nat.add_comm, nodeAtAll?_cons_of_lt _ (by omega), h]

end CodeOverlay.Node
