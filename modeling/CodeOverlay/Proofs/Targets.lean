import Mathlib.Data.List.Pairwise
import CodeOverlay.Overlay.Target
import CodeOverlay.Proofs.Surroundings
import CodeOverlay.Proofs.Walking

namespace CodeOverlay

open Node

/-!
# What is highlighted, before and after a revision

Whether a node is to be highlighted depends on what it is and on what is around it, and the
latter stays under a revision.

* `mem_innerTargets_iff` — the targets below the root are the blocks of the kinds around which
  there is no other such block;
* `targets_distinct` — no two targets stand at the same place;
* `Revised.mem_targets` — a node to which the position of a target leads is a target, if it is
  a block of the kinds.
-/

variable {kinds : Kinds} {n m : Node} {pos : Nat}

/-- Whether what a node is makes it a block of one of the kinds. -/
def Tag.isTarget (kinds : Kinds) (tag : Tag) : Bool :=
  !tag.inline && kinds.contains tag.kind

/-- **Which nodes are targets.**  A target below the root is a block of the kinds that stands
    in no other one. -/
theorem mem_innerTargets_iff :
    ⟨m, pos⟩ ∈ n.innerTargets kinds ↔
      n.nodeAt? pos = some m ∧ m.isTarget kinds = true ∧
        ∀ tag ∈ n.tagsAround pos, tag.isTarget kinds = false := by
  -- whether the walk descends into a node depends on what the node is
  rw [innerTargets, descendants, List.mem_filter]
  refine (and_congr_left' (mem_walk_iff fun tag => !tag.isTarget kinds)).trans ?_
  simp only [Nat.zero_add, Bool.not_eq_true']
  constructor
  · rintro ⟨⟨_, rfl, hm, htags⟩, htarget⟩
    exact ⟨hm, htarget, htags⟩
  · rintro ⟨hm, htarget, htags⟩
    exact ⟨⟨_, rfl, hm, htags⟩, htarget⟩

/-- The targets that have a position are those below the root. -/
theorem mem_targets_inner_iff :
    ⟨m, .inner pos⟩ ∈ n.targets kinds ↔ ⟨m, pos⟩ ∈ n.innerTargets kinds := by
  constructor
  · intro h
    rcases List.mem_append.mp h with h | h
    · split at h <;> simp at h
    · obtain ⟨p, hp, heq⟩ := List.mem_map.mp h
      cases heq
      exact hp
  · intro h
    exact List.mem_append_right _ (List.mem_map.mpr ⟨_, h, rfl⟩)

/-- A target below the root is the node at its position. -/
theorem nodeAt?_of_mem_targets (h : ⟨m, .inner pos⟩ ∈ n.targets kinds) :
    n.nodeAt? pos = some m :=
  (mem_innerTargets_iff.mp (mem_targets_inner_iff.mp h)).1

/-- **No two targets stand at the same place.** -/
theorem targets_distinct (kinds : Kinds) (n : Node) :
    (n.targets kinds).Pairwise (·.pos ≠ ·.pos) := by
  have hinner : ((n.innerTargets kinds).map fun p => (⟨p.node, .inner p.pos⟩ : Target)).Pairwise
      (·.pos ≠ ·.pos) := by
    rw [List.pairwise_map]
    refine (walk_ascending.filter _).imp fun hlt heq => ?_
    exact Nat.ne_of_lt hlt (Spot.inner.inj heq)
  refine List.pairwise_append.mpr ⟨?_, hinner, ?_⟩
  · split
    · exact List.pairwise_singleton _ _
    · exact .nil
  · intro s hs t ht
    obtain ⟨p, -, rfl⟩ := List.mem_map.mp ht
    split at hs
    · rw [List.mem_singleton.mp hs]
      exact nofun
    · cases hs

/-- There are targets below the root only if kinds are asked for. -/
theorem isEmpty_of_mem_targets (h : ⟨m, .inner pos⟩ ∈ n.targets kinds) :
    kinds.isEmpty = false := by
  obtain ⟨-, htarget, -⟩ := mem_innerTargets_iff.mp (mem_targets_inner_iff.mp h)
  have hkind : m.kind ∈ kinds := (Bool.and_eq_true_iff.mp htarget).2
  refine Std.ExtTreeSet.isEmpty_eq_false_iff.mpr ?_
  rintro rfl
  exact Std.ExtTreeSet.not_mem_empty hkind

/-- Where no kinds are asked for there are no targets. -/
theorem targets_eq_nil (h : kinds.isEmpty = true) : n.targets kinds = [] := by
  obtain rfl := Std.ExtTreeSet.isEmpty_iff.mp h
  simp [targets, innerTargets, isTarget]

/-- **Targets stay targets.**  If a revision leads the position of a target to the same node,
    that node is a target again. -/
theorem Node.Revised.mem_targets {n' : Node} {shifts : List Shift} {bias : Bias}
    (h : Revised n shifts n') (hm : ⟨m, .inner pos⟩ ∈ n.targets kinds)
    (hland : (Route.landThrough shifts pos bias).deleted = false)
    (hm' : n'.nodeAt? (Route.landThrough shifts pos bias).pos = some m) :
    ⟨m, .inner (Route.landThrough shifts pos bias).pos⟩ ∈ n'.targets kinds := by
  obtain ⟨-, htarget, htags⟩ := mem_innerTargets_iff.mp (mem_targets_inner_iff.mp hm)
  refine mem_targets_inner_iff.mpr (mem_innerTargets_iff.mpr ⟨hm', htarget, ?_⟩)
  rw [h.tagsAround_land hland]
  exact htags

end CodeOverlay
