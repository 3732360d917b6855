import CodeOverlay.Proofs.Descending
import CodeOverlay.Proofs.Layout

namespace CodeOverlay

open Node

/-!
# The outermost blocks

What is highlighted below the root are blocks of certain kinds, and of these the outermost: what
stands inside such a block is highlighted with it.  Inline nodes of these kinds are passed through.

* `Node.Wanted` — a block of one of the kinds;
* `mem_innerTargets_iff_reaches` — the targets below the root are the wanted nodes with no wanted
  one around them;
* `head?_targets` — the root comes first, if it is asked for;
* `targets_outermost` — **exactly these are highlighted**, each once, in order and apart.
-/

variable {kinds : Kinds} {n : Node} {p : Placed}

/-- A block of one of the kinds. -/
def Node.Wanted (kinds : Kinds) (m : Node) : Prop :=
  m.isBlock = true ∧ m.kind ∈ kinds

instance (m : Node) : Decidable (m.Wanted kinds) :=
  inferInstanceAs (Decidable (_ ∧ _))

theorem isTarget_iff_wanted (m : Node) : m.isTarget kinds = true ↔ m.Wanted kinds := by
  rw [isTarget, Bool.and_eq_true, Std.ExtTreeSet.contains_iff_mem, Wanted]

/-- **The targets below the root** are the wanted nodes with no wanted one around them. -/
theorem mem_innerTargets_iff_reaches :
    p ∈ n.innerTargets kinds ↔
      (∃ path, n.Reaches path p) ∧ p.node.Wanted kinds ∧
        ∀ q, n.Above q p → ¬q.node.Wanted kinds := by
  rw [innerTargets, List.mem_filter, mem_descendants_iff_reaches, isTarget_iff_wanted]
  simp only [Bool.not_eq_true', ← Bool.not_eq_true, isTarget_iff_wanted]
  constructor
  · rintro ⟨⟨hpath, habove⟩, hwanted⟩
    exact ⟨hpath, hwanted, habove⟩
  · rintro ⟨hpath, hwanted, habove⟩
    exact ⟨⟨hpath, habove⟩, hwanted⟩

/-- The root comes first, if it is asked for, and nowhere otherwise. -/
theorem head?_targets : (n.targets kinds).head? = some ⟨n, .root⟩ ↔ rootKind ∈ kinds := by
  rw [targets, ← Std.ExtTreeSet.contains_iff_mem]
  by_cases hroot : kinds.contains rootKind = true
  · rw [if_pos hroot]
    exact ⟨fun _ => hroot, fun _ => rfl⟩
  · rw [if_neg hroot, List.nil_append, List.head?_map]
    refine ⟨fun h => ?_, fun h => absurd h hroot⟩
    obtain ⟨p, -, hp⟩ := Option.map_eq_some_iff.mp h
    cases hp

/-- **Exactly the outermost blocks are highlighted.**  The root comes first just if it is asked for.
    The rest are the blocks of the kinds around which there is no other such block, each once, in
    the order of their positions, at which they are found, and without overlap. -/
theorem targets_outermost (kinds : Kinds) (n : Node) :
    ((n.targets kinds).head? = some ⟨n, .root⟩ ↔ rootKind ∈ kinds) ∧
    ∃ inner : List Placed,
      n.targets kinds = (if rootKind ∈ kinds then [⟨n, .root⟩] else []) ++
        inner.map (fun p => ⟨p.node, .inner p.pos⟩) ∧
      (∀ p, p ∈ inner ↔ (∃! path, n.Reaches path p) ∧ p.node.Wanted kinds ∧
        ∀ q, n.Above q p → ¬q.node.Wanted kinds) ∧
      inner.Pairwise (fun p q => p.pos < q.pos) ∧
      (∀ p ∈ inner, n.nodeAt? p.pos = some p.node) ∧
      inner.Pairwise (fun p q => p.pos + p.node.size ≤ q.pos) := by
  refine ⟨head?_targets, n.innerTargets kinds, ?_, fun p => ?_, walk_ascending.filter _,
    fun p hp => (mem_innerTargets_iff.mp hp).1, innerTargets_apart kinds n⟩
  · rw [targets, if_congr Std.ExtTreeSet.contains_iff_mem rfl rfl]
  · rw [mem_innerTargets_iff_reaches]
    refine and_congr_left' ⟨?_, ExistsUnique.exists⟩
    rintro ⟨path, hpath⟩
    exact ⟨path, hpath, fun path' hpath' => hpath'.path_unique hpath rfl⟩

/-- A figure that holds a block of code. -/
def figure : Node :=
  .branch { kind := "figure" } [.codeBlock "js" "a"]

/-- The figure is highlighted after the root, and the block of code with it. -/
theorem targets_outermost_figure :
    ∃ inner : List Placed,
      (doc [figure]).targets (.ofList ["doc", "figure", "code_block"]) =
        [⟨doc [figure], .root⟩] ++ inner.map (fun p => ⟨p.node, .inner p.pos⟩) ∧
      ⟨figure, 0⟩ ∈ inner ∧ ⟨.codeBlock "js" "a", 1⟩ ∉ inner ∧
      (doc [figure]).nodeAt? 0 = some figure := by
  obtain ⟨-, inner, htargets, hmem, -, hfound, -⟩ :=
    targets_outermost (.ofList ["doc", "figure", "code_block"]) (doc [figure])
  have hfigure : (doc [figure]).Reaches [0] ⟨figure, 0⟩ := @ReachedAmong.child _ [] [] _ rfl
  have hcode : (doc [figure]).Reaches [0, 0] ⟨.codeBlock "js" "a", 1⟩ :=
    @ReachedAmong.inside _ [] [] figure _ _ rfl (@ReachedAmong.child _ [] [] _ rfl)
  have hinner : ⟨figure, 0⟩ ∈ inner := by
    refine (hmem _).mpr ⟨⟨[0], hfigure, fun path hpath => hpath.path_unique hfigure rfl⟩,
      by decide, hfigure.allOnWay_iff.mp ?_⟩
    -- the figure is a child of the root, so nothing is around it
    exact allOnWay_singleton 0
  refine ⟨inner, htargets, hinner, fun h => ?_, hfound _ hinner⟩
  obtain ⟨-, -, habove⟩ := (hmem _).mp h
  exact habove ⟨figure, 0⟩ ⟨[0], [0], by decide, hfigure, hcode⟩ (by decide)

end CodeOverlay
