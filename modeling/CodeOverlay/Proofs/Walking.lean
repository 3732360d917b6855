import CodeOverlay.Proofs.Lookup
import CodeOverlay.Proofs.Tokens

namespace CodeOverlay.Node

/-!
# Nodes in document order

A walk lists nodes with the positions at which they start, and descending to a position finds the
node that starts there.  The two agree.

* `mem_walk_iff` — a node is listed at a position if it is found there and the walk descends into
  every node around it;
* `mem_descendants_iff` — a walk that always descends lists what can be found, and only that;
* `walk_ascending` — the positions ascend, so no node is listed twice.
-/

variable {n m : Node} {pos base : Nat}

/-! ### Which nodes are listed -/

/-- What is listed of consecutive nodes, if it is known what is listed below each of them. -/
private theorem mem_walkAll_iff {enter : Tag → Bool} {ns : List Node}
    (hns : ∀ c ∈ ns, ∀ base pos, ⟨m, pos⟩ ∈ c.walk (fun c _ => enter c.tag) base ↔
      ∃ p, pos = base + p ∧ c.nodeAt? p = some m ∧ ∀ tag ∈ c.tagsAround p, enter tag = true) :
    ⟨m, pos⟩ ∈ walkAll (fun c _ => enter c.tag) base ns ↔
      ∃ p, pos = base + p ∧ nodeAtAll? ns p = some m ∧
        ∀ tag ∈ tagsAroundAll ns p, enter tag = true := by
  induction ns generalizing base with
  | nil => simp [walkAll, nodeAtAll?]
  | cons c ns ih =>
    have hrest := @ih (base + c.size) fun d hd => hns d (by simp [hd])
    simp only [walkAll, List.mem_cons, List.mem_append, Placed.mk.injEq]
    constructor
    · rintro (⟨rfl, rfl⟩ | hbelow | hafter)
      · exact ⟨0, rfl, by simp, by simp⟩
      · -- below `c` something is listed only if the walk descends into it
        by_cases hc : enter c.tag = true
        · rw [if_pos hc] at hbelow
          obtain ⟨p, rfl, hp, htags⟩ := (hns c (by simp) _ _).mp hbelow
          have hlt : p + 1 < c.size := by
            have := nodeAt?_le hp
            have := m.size_pos
            have := c.size_eq
            omega
          refine ⟨p + 1, by omega, by rw [nodeAtAll?_cons_of_lt _ hlt]; exact hp, ?_⟩
          rw [tagsAroundAll_cons_of_lt _ hlt]
          intro tag htag
          rcases List.mem_append.mp htag with htag | htag
          · exact htags tag htag
          · rw [List.mem_singleton.mp htag]
            exact hc
        · rw [if_neg hc] at hbelow
          cases hbelow
      · obtain ⟨p, rfl, hp, htags⟩ := hrest.mp hafter
        refine ⟨c.size + p, by omega, ?_, ?_⟩
        · rw [nodeAtAll?_cons_of_le _ (by omega), Nat.add_sub_cancel_left]
          exact hp
        · rw [tagsAroundAll_cons_of_le _ (by omega), Nat.add_sub_cancel_left]
          exact htags
    · rintro ⟨p, rfl, hp, htags⟩
      rcases Nat.lt_or_ge p c.size with hlt | hge
      · cases p with
        | zero =>
          rw [nodeAtAll?_cons_zero, Option.some.injEq] at hp
          exact .inl ⟨hp.symm, rfl⟩
        | succ p =>
          rw [nodeAtAll?_cons_of_lt _ hlt] at hp
          rw [tagsAroundAll_cons_of_lt _ hlt] at htags
          have hc : enter c.tag = true := htags c.tag (by simp)
          refine .inr (.inl ?_)
          rw [if_pos hc]
          exact (hns c (by simp) _ _).mpr
            ⟨p, by omega, hp, fun tag htag => htags tag (by simp [htag])⟩
      · rw [nodeAtAll?_cons_of_le _ hge] at hp
        rw [tagsAroundAll_cons_of_le _ hge] at htags
        exact .inr (.inr (hrest.mpr ⟨p - c.size, by omega, hp, htags⟩))

/-- **Which nodes are listed.**  If it depends on what a node is whether the walk descends into
    it, the walk lists the nodes that can be found, except those around which there is a node
    into which it does not descend. -/
theorem mem_walk_iff (enter : Tag → Bool) :
    ⟨m, pos⟩ ∈ n.walk (fun c _ => enter c.tag) base ↔
      ∃ p, pos = base + p ∧ n.nodeAt? p = some m ∧ ∀ tag ∈ n.tagsAround p, enter tag = true := by
  induction n using Node.induct generalizing base pos with
  | leaf tag text => simp [walk]
  | branch tag children ih =>
    simp only [walk, nodeAt?_branch, tagsAround_branch]
    exact mem_walkAll_iff fun c hc _ _ => ih c hc

/-- A walk that always descends lists the nodes that can be found. -/
theorem mem_descendants_iff :
    ⟨m, pos⟩ ∈ n.descendants (fun _ _ => true) ↔ n.nodeAt? pos = some m := by
  rw [descendants]
  exact (mem_walk_iff fun _ => true).trans (by simp)

/-! ### In which order -/

variable {descend : Node → Nat → Bool} {p : Placed}

/-- What is listed of consecutive nodes starts in the room of one of them. -/
theorem walkAll_bounds {ns : List Node}
    (hns : ∀ c ∈ ns, ∀ base, ∀ p ∈ c.walk descend base,
      base ≤ p.pos ∧ p.pos < base + c.contentSize)
    (hp : p ∈ walkAll descend base ns) : base ≤ p.pos ∧ p.pos < base + extent size ns := by
  induction ns generalizing base with
  | nil => cases hp
  | cons c ns ih =>
    have hc := c.size_eq
    rw [extent_cons]
    rw [walkAll] at hp
    rcases List.mem_cons.mp hp with rfl | hp
    · exact ⟨Nat.le_refl _, by show base < _; omega⟩
    rcases List.mem_append.mp hp with hbelow | hafter
    · by_cases henter : descend c base = true
      · rw [if_pos henter] at hbelow
        have := hns c (by simp) _ p hbelow
        omega
      · rw [if_neg henter] at hbelow
        cases hbelow
    · have := ih (fun d hd => hns d (by simp [hd])) hafter
      omega

/-- The nodes listed below a node start within its content. -/
theorem walk_bounds (hp : p ∈ n.walk descend base) :
    base ≤ p.pos ∧ p.pos < base + n.contentSize := by
  induction n using Node.induct generalizing base p with
  | leaf tag text => simp [walk] at hp
  | branch tag children ih =>
    rw [contentSize_branch]
    rw [walk] at hp
    exact walkAll_bounds (fun c hc _ _ => ih c hc) hp

private theorem walkAll_ascending {ns : List Node}
    (hns : ∀ c ∈ ns, ∀ base, (c.walk descend base).Pairwise (·.pos < ·.pos)) :
    (walkAll descend base ns).Pairwise (·.pos < ·.pos) := by
  induction ns generalizing base with
  | nil => exact .nil
  | cons c ns ih =>
    have hc := c.size_eq
    have hafter : ∀ q ∈ walkAll descend (base + c.size) ns, base + c.size ≤ q.pos :=
      fun q hq => (walkAll_bounds (fun _ _ _ _ => walk_bounds) hq).1
    have hbelow : ∀ p ∈ (if descend c base then c.walk descend (base + 1) else []),
        base < p.pos ∧ p.pos < base + c.size := by
      intro p hp
      split at hp
      · have := walk_bounds hp
        omega
      · cases hp
    rw [walkAll]
    refine List.pairwise_cons.mpr ⟨fun p hp => ?_, List.pairwise_append.mpr ⟨?_, ?_, ?_⟩⟩
    · show base < p.pos
      rcases List.mem_append.mp hp with hp | hp
      · exact (hbelow p hp).1
      · have := hafter p hp
        omega
    · split
      · exact hns c (by simp) _
      · exact .nil
    · exact ih fun d hd => hns d (by simp [hd])
    · intro p hp q hq
      have := hbelow p hp
      have := hafter q hq
      omega

/-- **The positions ascend**, whatever the walk descends into. -/
theorem walk_ascending : (n.walk descend base).Pairwise (·.pos < ·.pos) := by
  induction n using Node.induct generalizing base with
  | leaf tag text =>
    rw [walk]
    exact .nil
  | branch tag children ih =>
    rw [walk]
    exact walkAll_ascending fun c hc _ => ih c hc

end CodeOverlay.Node
