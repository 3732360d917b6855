import CodeOverlay.Proofs.Boundaries
import CodeOverlay.Proofs.Walking

namespace CodeOverlay

/-!
# The ways to nodes

Every node below a root is reached by going from child to child, and which children these are tells
it apart from all others.  This module says where a node is reached and shows that both searches,
the one by a position and the walk, find what can be reached.

* `Node.Reaches` — which node is reached by which way, and at which position;
* `exists_reaches_iff` — the node at a position is the one that is reached there;
* `ReachedAmong.path_unique` — by only one way;
* `Node.Above` — what is around a node;
* `mem_descendants_iff_reaches` — a walk lists what is reached through nodes into which it descends;
* `mem_allBelow_iff` — a walk that always descends lists all that is reached.
-/

/-- The same node, its position counted from `k` positions earlier. -/
def Placed.shift (k : Nat) (p : Placed) : Placed :=
  ⟨p.node, k + p.pos⟩

@[simp] theorem Placed.shift_node (k : Nat) (p : Placed) : (p.shift k).node = p.node := rfl

@[simp] theorem Placed.shift_pos (k : Nat) (p : Placed) : (p.shift k).pos = k + p.pos := rfl

@[simp] theorem Placed.shift_zero (p : Placed) : p.shift 0 = p := by
  rw [shift, Nat.zero_add]

@[simp] theorem Placed.shift_shift (k l : Nat) (p : Placed) :
    (p.shift l).shift k = p.shift (k + l) := by
  simp [shift, Nat.add_assoc]

namespace Node

/-! ### Going from child to child -/

/-- Which node is reached among consecutive nodes by which way, and where it starts.  A way names
    the nodes to go to by how many stand before them. -/
inductive ReachedAmong : List Node → List Nat → Placed → Prop
  /-- One of the nodes starts after those before it. -/
  | child {ns before after : List Node} {m : Node} (h : ns = before ++ m :: after) :
      ReachedAmong ns [before.length] ⟨m, extent size before⟩
  /-- What is reached among the children of one of them starts after its opening boundary. -/
  | inside {ns before after : List Node} {c : Node} {path : List Nat} {p : Placed}
      (h : ns = before ++ c :: after) (hp : ReachedAmong c.children path p) :
      ReachedAmong ns (before.length :: path) (p.shift (extent size before + 1))

/-- Which node is reached below this one by which way, and where it starts. -/
def Reaches (n : Node) (path : List Nat) (p : Placed) : Prop :=
  ReachedAmong n.children path p

variable {n m c : Node} {ns : List Node} {path path' : List Nat} {p q : Placed} {pos base : Nat}

theorem ReachedAmong.path_ne_nil (h : ReachedAmong ns path p) : path ≠ [] := by
  cases h <;> exact List.cons_ne_nil _ _

theorem not_reachedAmong_nil : ¬ReachedAmong [] path p := by
  intro h
  cases h with
  | child h => exact List.append_ne_nil_of_right_ne_nil _ (List.cons_ne_nil _ _) h.symm
  | inside h _ => exact List.append_ne_nil_of_right_ne_nil _ (List.cons_ne_nil _ _) h.symm

/-- One more node in front counts on the way and takes its room. -/
theorem ReachedAmong.cons {i : Nat} (c : Node) (h : ReachedAmong ns (i :: path) p) :
    ReachedAmong (c :: ns) ((i + 1) :: path) (p.shift c.size) := by
  cases h with
  | @child _ before after m h =>
    have hcons : c :: ns = (c :: before) ++ m :: after := by rw [h, List.cons_append]
    exact .child hcons
  | @inside _ before after d path p h hp =>
    have hcons : c :: ns = (c :: before) ++ d :: after := by rw [h, List.cons_append]
    have hinside := ReachedAmong.inside hcons hp
    rw [extent_cons, Nat.add_assoc] at hinside
    rw [Placed.shift_shift]
    exact hinside

/-- What is reached among consecutive nodes is the first one, or is reached in it or after it. -/
theorem reachedAmong_cons_iff :
    ReachedAmong (c :: ns) path p ↔
      (path = [0] ∧ p = ⟨c, 0⟩) ∨
      (∃ path' q, c.Reaches path' q ∧ path = 0 :: path' ∧ p = q.shift 1) ∨
      ∃ i path' q, ReachedAmong ns (i :: path') q ∧ path = (i + 1) :: path' ∧
        p = q.shift c.size := by
  constructor
  · intro h
    cases h with
    | @child _ before after m h =>
      cases before with
      | nil =>
        obtain ⟨rfl, rfl⟩ := List.cons.inj h
        exact .inl ⟨rfl, rfl⟩
      | cons b before =>
        obtain ⟨rfl, hns⟩ := List.cons.inj h
        exact .inr (.inr ⟨_, _, _, .child hns, rfl, rfl⟩)
    | @inside _ before after d path p h hp =>
      cases before with
      | nil =>
        obtain ⟨rfl, rfl⟩ := List.cons.inj h
        exact .inr (.inl ⟨path, p, hp, rfl, by rw [extent_nil]⟩)
      | cons b before =>
        obtain ⟨rfl, hns⟩ := List.cons.inj h
        exact .inr (.inr ⟨_, _, _, .inside hns hp, rfl, by
          rw [Placed.shift_shift, extent_cons, Nat.add_assoc]⟩)
  · rintro (⟨rfl, rfl⟩ | ⟨path', q, hq, rfl, rfl⟩ | ⟨i, path', q, hq, rfl, rfl⟩)
    · exact @ReachedAmong.child _ [] ns c rfl
    · exact @ReachedAmong.inside _ [] ns c path' q rfl hq
    · exact hq.cons c

/-! ### Found by a position -/

theorem nodeAt?_eq_nodeAtAll? (n : Node) (pos : Nat) :
    n.nodeAt? pos = nodeAtAll? n.children pos := by
  cases n with
  | leaf tag text => simp [children, nodeAtAll?]
  | branch tag children => rw [nodeAt?_branch, Node.children]

theorem ReachedAmong.nodeAtAll? (h : ReachedAmong ns path p) :
    nodeAtAll? ns p.pos = some p.node := by
  induction h with
  | child h =>
    rw [h]
    exact nodeAtAll?_append_right _ (nodeAtAll?_cons_zero _ _)
  | @inside _ before after c _ p h _ ih =>
    rw [h, Placed.shift_pos, Nat.add_assoc]
    refine nodeAtAll?_append_right _ (nodeAtAll?_cons_inside _ ?_)
    rw [nodeAt?_eq_nodeAtAll?, ih, Placed.shift_node]

/-- What is found among consecutive nodes is reached, if this holds below each of them. -/
private theorem exists_reachedAmong_of
    (hns : ∀ c ∈ ns, ∀ pos, c.nodeAt? pos = some m → ∃ path, c.Reaches path ⟨m, pos⟩)
    (h : nodeAtAll? ns pos = some m) : ∃ path, ReachedAmong ns path ⟨m, pos⟩ := by
  induction ns generalizing pos with
  | nil => cases h
  | cons c ns ih =>
    rcases Nat.lt_or_ge pos c.size with hlt | hge
    · cases pos with
      | zero =>
        rw [nodeAtAll?_cons_zero, Option.some.injEq] at h
        exact ⟨[0], reachedAmong_cons_iff.mpr (.inl ⟨rfl, by rw [h]⟩)⟩
      | succ pos =>
        rw [nodeAtAll?_cons_of_lt _ hlt] at h
        obtain ⟨path, hpath⟩ := hns c List.mem_cons_self pos h
        refine ⟨0 :: path, reachedAmong_cons_iff.mpr (.inr (.inl ⟨path, _, hpath, rfl, ?_⟩))⟩
        rw [Placed.shift, Nat.add_comm]
    · rw [nodeAtAll?_cons_of_le _ hge] at h
      obtain ⟨path, hpath⟩ := ih (fun d hd => hns d (List.mem_cons_of_mem _ hd)) h
      cases path with
      | nil => exact absurd rfl hpath.path_ne_nil
      | cons i path =>
        have hcons := hpath.cons c
        rw [Placed.shift, Nat.add_sub_cancel' hge] at hcons
        exact ⟨_, hcons⟩

/-- **The node at a position** is the one that is reached there. -/
theorem exists_reaches_iff : (∃ path, n.Reaches path ⟨m, pos⟩) ↔ n.nodeAt? pos = some m := by
  constructor
  · rintro ⟨path, h⟩
    rw [nodeAt?_eq_nodeAtAll?]
    exact h.nodeAtAll?
  · intro h
    induction n using Node.induct generalizing pos with
    | leaf tag text => simp at h
    | branch tag children ih =>
      rw [nodeAt?_branch] at h
      exact exists_reachedAmong_of (fun c hc pos => ih c hc) h

/-- What is reached below a node starts before its closing boundary. -/
theorem Reaches.pos_lt (h : n.Reaches path p) : p.pos + 1 < n.size := by
  have hle := nodeAt?_le (exists_reaches_iff.mp ⟨path, h⟩)
  have := p.node.size_pos
  have := n.size_eq
  omega

/-- The first step of a way, and the room in which it ends. -/
theorem ReachedAmong.head (h : ReachedAmong ns path p) :
    ∃ before c after, ns = before ++ c :: after ∧
      extent size before ≤ p.pos ∧ p.pos < extent size before + c.size ∧
      ((path = [before.length] ∧ p.pos = extent size before) ∨
        ∃ rest q, c.Reaches rest q ∧ path = before.length :: rest ∧
          p.pos = extent size before + 1 + q.pos) := by
  cases h with
  | @child _ before after m h =>
    have := m.size_pos
    exact ⟨before, m, after, h, Nat.le_refl _, Nat.lt_add_of_pos_right this, .inl ⟨rfl, rfl⟩⟩
  | @inside _ before after c rest q h hq =>
    have := Reaches.pos_lt hq
    refine ⟨before, c, after, h, ?_, ?_, .inr ⟨rest, q, hq, rfl, rfl⟩⟩
    · rw [Placed.shift_pos]
      omega
    · rw [Placed.shift_pos]
      omega

/-- **Only one way** leads to a position. -/
theorem ReachedAmong.path_unique (h : ReachedAmong ns path p) (h' : ReachedAmong ns path' q)
    (heq : p.pos = q.pos) : path = path' := by
  induction path generalizing ns path' p q with
  | nil => exact absurd rfl h.path_ne_nil
  | cons i path ih =>
    obtain ⟨before, c, after, hns, hle, hlt, hway⟩ := h.head
    obtain ⟨before', c', after', hns', hle', hlt', hway'⟩ := h'.head
    -- the rooms of two different nodes have no position in common
    obtain ⟨rfl, rfl⟩ : before = before' ∧ c = c' := by
      rcases eq_or_extent_le size (hns.symm.trans hns') with hsame | hbefore | hbefore
      · exact hsame
      · omega
      · omega
    rcases hway with ⟨hpath, hpos⟩ | ⟨rest, r, hr, hpath, hpos⟩ <;>
      rcases hway' with ⟨hpath', hpos'⟩ | ⟨rest', r', hr', hpath', hpos'⟩
    · rw [hpath, hpath']
    · omega
    · omega
    · obtain ⟨rfl, rfl⟩ := List.cons.inj hpath
      rw [hpath', ih hr hr' (by omega)]

/-! ### What is around a node -/

/-- Whether a node is around another one below `n`: the way to it goes on to the other one. -/
def Above (n : Node) (q p : Placed) : Prop :=
  ∃ path rest, rest ≠ [] ∧ n.Reaches path q ∧ n.Reaches (path ++ rest) p

/-- Every node on a way satisfies `P`, the one apart to which it leads. -/
def AllOnWay (P : Placed → Prop) (ns : List Node) (path : List Nat) : Prop :=
  ∀ front rest a, path = front ++ rest → rest ≠ [] → ReachedAmong ns front a → P a

variable {P : Placed → Prop}

/-- The nodes on the way to a node are those around it. -/
theorem Reaches.allOnWay_iff (h : n.Reaches path p) :
    AllOnWay P n.children path ↔ ∀ q, n.Above q p → P q := by
  constructor
  · rintro hway q ⟨front, rest, hrest, hq, hp⟩
    exact hway front rest q (h.path_unique hp rfl) hrest hq
  · rintro habove front rest a rfl hrest ha
    exact habove a ⟨front, rest, hrest, ha, h⟩

/-- There is nothing on the way to one of the nodes themselves. -/
theorem allOnWay_singleton (i : Nat) : AllOnWay P ns [i] := by
  intro front rest a hpath hrest ha
  cases front with
  | nil => exact absurd rfl ha.path_ne_nil
  | cons j front =>
    have hnil := (List.append_eq_nil_iff.mp (List.cons.inj hpath).2.symm).2
    exact absurd hnil hrest

/-- The way to a node inside the first of some nodes leads through that one. -/
theorem allOnWay_zero_iff (hpath : path ≠ []) :
    AllOnWay P (c :: ns) (0 :: path) ↔
      P ⟨c, 0⟩ ∧ AllOnWay (fun a => P (a.shift 1)) c.children path := by
  constructor
  · intro h
    refine ⟨h [0] path _ rfl hpath (reachedAmong_cons_iff.mpr (.inl ⟨rfl, rfl⟩)), ?_⟩
    rintro front rest a rfl hrest ha
    exact h (0 :: front) rest _ rfl hrest
      (reachedAmong_cons_iff.mpr (.inr (.inl ⟨_, _, ha, rfl, rfl⟩)))
  · rintro ⟨hc, hway⟩ front rest a hfront hrest ha
    rcases reachedAmong_cons_iff.mp ha with
      ⟨-, rfl⟩ | ⟨front, b, hb, rfl, rfl⟩ | ⟨i, _, _, _, rfl, _⟩
    · exact hc
    · exact hway front rest b (List.cons.inj hfront).2 hrest hb
    · exact absurd (List.cons.inj hfront).1 (Nat.succ_ne_zero i).symm

/-- The way to a node after the first of some nodes does not lead through that one. -/
theorem allOnWay_succ_iff {i : Nat} :
    AllOnWay P (c :: ns) ((i + 1) :: path) ↔
      AllOnWay (fun a => P (a.shift c.size)) ns (i :: path) := by
  constructor
  · intro h front rest a hfront hrest ha
    cases front with
    | nil => exact absurd rfl ha.path_ne_nil
    | cons j front =>
      obtain ⟨rfl, rfl⟩ := List.cons.inj hfront
      exact h ((i + 1) :: front) rest _ rfl hrest (ha.cons c)
  · intro h front rest a hfront hrest ha
    rcases reachedAmong_cons_iff.mp ha with
      ⟨rfl, -⟩ | ⟨_, _, _, rfl, _⟩ | ⟨j, front, b, hb, rfl, rfl⟩
    · exact absurd (List.cons.inj hfront).1 (Nat.succ_ne_zero i)
    · exact absurd (List.cons.inj hfront).1 (Nat.succ_ne_zero i)
    · obtain ⟨hi, rfl⟩ := List.cons.inj hfront
      exact h (j :: front) rest b (by rw [Nat.succ_inj.mp hi]; rfl) hrest hb

/-! ### Found by walking -/

variable {descend : Node → Nat → Bool}

/-- Whether a walk descends into a node, if it counts positions from `base`. -/
abbrev Enters (descend : Node → Nat → Bool) (base : Nat) (a : Placed) : Prop :=
  descend a.node (base + a.pos) = true

/-- What is listed of consecutive nodes, if it is known what is listed below each of them. -/
private theorem mem_walkAll_iff_reached
    (hns : ∀ c ∈ ns, ∀ base p, p ∈ c.walk descend base ↔ ∃ path q, c.Reaches path q ∧
      p = q.shift base ∧ AllOnWay (Enters descend base) c.children path) :
    p ∈ walkAll descend base ns ↔ ∃ path q, ReachedAmong ns path q ∧ p = q.shift base ∧
      AllOnWay (Enters descend base) ns path := by
  induction ns generalizing base with
  | nil =>
    rw [walkAll]
    constructor
    · intro hp
      cases hp
    · rintro ⟨_, _, hq, -⟩
      exact absurd hq not_reachedAmong_nil
  | cons c ns ih =>
    have hc := hns c List.mem_cons_self
    have hrest := @ih (base + c.size) fun d hd => hns d (List.mem_cons_of_mem _ hd)
    -- the walk goes on with a later base, from which the same positions are counted
    have hinside (a : Placed) : Enters descend base (a.shift 1) ↔ Enters descend (base + 1) a := by
      rw [Enters, Enters, Placed.shift_node, Placed.shift_pos, Nat.add_assoc]
    have hafter (a : Placed) :
        Enters descend base (a.shift c.size) ↔ Enters descend (base + c.size) a := by
      rw [Enters, Enters, Placed.shift_node, Placed.shift_pos, Nat.add_assoc]
    rw [walkAll, List.mem_cons, List.mem_append]
    constructor
    · rintro (rfl | hp | hp)
      · exact ⟨[0], ⟨c, 0⟩, reachedAmong_cons_iff.mpr (.inl ⟨rfl, rfl⟩), rfl, allOnWay_singleton 0⟩
      · by_cases henter : descend c base = true
        · rw [if_pos henter] at hp
          obtain ⟨path, q, hq, rfl, hway⟩ := (hc _ _).mp hp
          refine ⟨0 :: path, q.shift 1, reachedAmong_cons_iff.mpr (.inr (.inl ⟨_, _, hq, rfl, rfl⟩)),
            (Placed.shift_shift ..).symm, (allOnWay_zero_iff hq.path_ne_nil).mpr ⟨henter, ?_⟩⟩
          simpa only [hinside] using hway
        · rw [if_neg henter] at hp
          cases hp
      · obtain ⟨path, q, hq, rfl, hway⟩ := hrest.mp hp
        cases path with
        | nil => exact absurd rfl hq.path_ne_nil
        | cons i path =>
          refine ⟨(i + 1) :: path, q.shift c.size, hq.cons c, (Placed.shift_shift ..).symm,
            allOnWay_succ_iff.mpr ?_⟩
          simpa only [hafter] using hway
    · rintro ⟨path, q, hq, rfl, hway⟩
      rcases reachedAmong_cons_iff.mp hq with
        ⟨rfl, rfl⟩ | ⟨rest, r, hr, rfl, rfl⟩ | ⟨i, rest, r, hr, rfl, rfl⟩
      · exact .inl rfl
      · obtain ⟨henter, hway⟩ := (allOnWay_zero_iff hr.path_ne_nil).mp hway
        refine .inr (.inl ?_)
        rw [if_pos (show descend c base = true from henter)]
        exact (hc _ _).mpr ⟨rest, r, hr, Placed.shift_shift .., by simpa only [hinside] using hway⟩
      · refine .inr (.inr (hrest.mpr ⟨i :: rest, r, hr, Placed.shift_shift .., ?_⟩))
        simpa only [hafter] using allOnWay_succ_iff.mp hway

/-- What is listed below a node is reached through nodes into which the walk descends. -/
theorem mem_walk_iff_reaches :
    p ∈ n.walk descend base ↔ ∃ path q, n.Reaches path q ∧ p = q.shift base ∧
      AllOnWay (Enters descend base) n.children path := by
  induction n using Node.induct generalizing base p with
  | leaf tag text =>
    rw [walk]
    constructor
    · intro hp
      cases hp
    · rintro ⟨_, _, hq, -⟩
      exact absurd hq not_reachedAmong_nil
  | branch tag children ih =>
    rw [walk]
    exact mem_walkAll_iff_reached fun c hc _ _ => ih c hc

/-- **Which nodes are listed**: those that are reached, unless there is a node around them into
    which the walk does not descend. -/
theorem mem_descendants_iff_reaches :
    p ∈ n.descendants descend ↔
      (∃ path, n.Reaches path p) ∧ ∀ q, n.Above q p → descend q.node q.pos = true := by
  have henters : Enters descend 0 = fun a => descend a.node a.pos = true := by
    funext a
    rw [Enters, Nat.zero_add]
  rw [descendants, mem_walk_iff_reaches, henters]
  constructor
  · rintro ⟨path, q, hq, rfl, hway⟩
    rw [Placed.shift_zero]
    exact ⟨⟨path, hq⟩, hq.allOnWay_iff.mp hway⟩
  · rintro ⟨⟨path, hp⟩, habove⟩
    exact ⟨path, p, hp, p.shift_zero.symm, hp.allOnWay_iff.mpr habove⟩

/-- All nodes below a node, in document order. -/
abbrev allBelow (n : Node) : List Placed :=
  n.descendants fun _ _ => true

/-- A walk that always descends lists all that is reached. -/
theorem mem_allBelow_iff : p ∈ n.allBelow ↔ ∃ path, n.Reaches path p := by
  rw [allBelow, mem_descendants_iff_reaches]
  exact and_iff_left fun _ _ => rfl

end Node

end CodeOverlay
