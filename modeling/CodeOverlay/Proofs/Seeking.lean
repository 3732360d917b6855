import Mathlib.Logic.Function.Iterate
import CodeOverlay.Syntax.Parser

namespace CodeOverlay

/-!
# Seeking hosts with a cursor

The hosts of an inline layer are found by a cursor that moves through the tree: to the first child, or
to the next sibling, or else to the next sibling of the innermost node around it that has one.  Below
a host it does not go.

* `Cursor`, `Cursor.next?` — a place in a tree, and the place to which the search moves on;
* `Cursor.seek` — the search from a place on;
* `Cursor.next?_cases`, `Cursor.hostsAll_ahead` — what one move leaves to be found;
* `Cursor.seek_eq`, `Cursor.iterate_next?` — the search ends, and finds the hosts;
* `SyntaxNode.OutermostAt`, `SyntaxNode.mem_sites_iff`, `SyntaxNode.pairwise_sites` — which nodes
  these are, and in which order;
* `SyntaxNode.Nested`, `SyntaxNode.Nested.pairwise_hosts` — their ranges do not overlap;
* `GrammarParser.hasInline_iff` — whether there is an inline layer;
* `SyntaxNode.hosts_outermost` — **exactly the outermost hosts are found**.
-/

/-! ### Trees and the hosts in them -/

namespace SyntaxNode

variable {host : String} {n m : SyntaxNode} {ns : List SyntaxNode}

/-- Induction over the children. -/
theorem induct {P : SyntaxNode → Prop}
    (node : ∀ kind range children, (∀ c ∈ children, P c) → P (.node kind range children)) :
    ∀ n, P n
  | .node kind range children => node kind range children fun c _ => induct node c

mutual

/-- The number of nodes of a tree. -/
def count : SyntaxNode → Nat
  | .node _ _ children => countAll children + 1

/-- The number of nodes of consecutive trees. -/
def countAll : List SyntaxNode → Nat
  | [] => 0
  | n :: ns => count n + countAll ns

end

theorem countAll_append (l r : List SyntaxNode) : countAll (l ++ r) = countAll l + countAll r := by
  induction l with
  | nil => rw [List.nil_append, countAll, Nat.zero_add]
  | cons n l ih => rw [List.cons_append, countAll, countAll, ih, Nat.add_assoc]

/-- The hosts of consecutive trees are those of each of them. -/
theorem hostsAll_eq_flatMap (host : String) (ns : List SyntaxNode) :
    hostsAll host ns = ns.flatMap (hosts host) := by
  induction ns with
  | nil => rfl
  | cons n ns ih => rw [hostsAll, ih, List.flatMap_cons]

/-- The trees in which hosts are sought below a node: none below a host. -/
def inner (host : String) (n : SyntaxNode) : List SyntaxNode :=
  if n.kind = host then [] else n.children

/-- The range of the node, if it is a host. -/
def here (host : String) (n : SyntaxNode) : List ByteRange :=
  if n.kind = host then [n.range] else []

theorem hosts_eq (host : String) (n : SyntaxNode) :
    n.hosts host = n.here host ++ hostsAll host (n.inner host) := by
  obtain ⟨kind, range, children⟩ := n
  rw [hosts, here, inner]
  show ite _ _ _ = ite (kind = host) [range] [] ++ hostsAll host (ite (kind = host) [] children)
  by_cases hkind : kind = host
  · rw [if_pos hkind, if_pos hkind, if_pos hkind, hostsAll]
    rfl
  · rw [if_neg hkind, if_neg hkind, if_neg hkind, List.nil_append]

theorem countAll_inner_lt (host : String) (n : SyntaxNode) : countAll (n.inner host) < n.count := by
  obtain ⟨kind, range, children⟩ := n
  rw [count, inner, Nat.lt_succ_iff]
  split
  · rw [countAll]
    exact Nat.zero_le _
  · exact Nat.le_refl _

end SyntaxNode

/-! ### The search -/

/-- A node of a tree with what is still to be visited after it: the siblings after it and, from the
    innermost on, the nodes around it, each with the siblings after it. -/
structure Cursor where
  /-- The node. -/
  node : SyntaxNode
  /-- The siblings after the node. -/
  later : List SyntaxNode
  /-- The nodes around it, each with the siblings after it, the innermost first. -/
  around : List (SyntaxNode × List SyntaxNode)

namespace Cursor

/-- The root of a tree, around and after which there is nothing. -/
def start (root : SyntaxNode) : Cursor :=
  ⟨root, [], []⟩

/-- The first child of the node. -/
def firstChild? (c : Cursor) : Option Cursor :=
  match c.node.children with
  | [] => none
  | n :: ns => some ⟨n, ns, (c.node, c.later) :: c.around⟩

/-- The sibling that follows the node. -/
def nextSibling? (c : Cursor) : Option Cursor :=
  match c.later with
  | [] => none
  | n :: ns => some ⟨n, ns, c.around⟩

/-- The node of which the node is a child. -/
def parent? (c : Cursor) : Option Cursor :=
  match c.around with
  | [] => none
  | (n, later) :: around => some ⟨n, later, around⟩

theorem length_around_of_parent? {c p : Cursor} (h : c.parent? = some p) :
    p.around.length < c.around.length := by
  obtain ⟨node, later, _ | ⟨⟨n, ns⟩, around⟩⟩ := c
  · cases h
  · cases h
    exact Nat.lt_succ_self _

/-- The first node that comes after the node and all below it: its next sibling, or else that of the
    innermost node around it that has one. -/
def onward? (c : Cursor) : Option Cursor :=
  match c.nextSibling? with
  | some next => some next
  | none =>
    match _h : c.parent? with
    | some parent => parent.onward?
    | none => none
termination_by c.around.length
decreasing_by exact length_around_of_parent? _h

/-- Where the search moves on to.  It leaves out what is below a host. -/
def next? (host : String) (c : Cursor) : Option Cursor :=
  if c.node.kind = host then c.onward?
  else
    match c.firstChild? with
    | some child => some child
    | none => c.onward?

variable {host : String} {c d : Cursor} {found : List ByteRange}

/-- What comes after the node and all below it. -/
def after (c : Cursor) : List SyntaxNode :=
  c.later ++ c.around.flatMap Prod.snd

/-- What the search has still to go through, from the node on. -/
def ahead (c : Cursor) : List SyntaxNode :=
  c.node :: c.after

/-- The cursor climbs no further than to the next node, and ends if there is none. -/
theorem onward?_cases (c : Cursor) :
    (c.onward? = none ∧ c.after = []) ∨ ∃ d, c.onward? = some d ∧ d.ahead = c.after := by
  fun_induction onward? c with
  | case1 c next hnext =>
    obtain ⟨node, _ | ⟨n, ns⟩, around⟩ := c
    · cases hnext
    · cases hnext
      exact .inr ⟨_, rfl, rfl⟩
  | case2 c hnext parent hparent ih =>
    -- nothing comes after the node before what comes after its parent
    have hafter : parent.after = c.after := by
      obtain ⟨node, _ | ⟨n, ns⟩, _ | ⟨⟨m, later⟩, around⟩⟩ := c <;> cases hnext <;> cases hparent
      rfl
    rwa [← hafter]
  | case3 c hnext hparent =>
    obtain ⟨node, _ | ⟨n, ns⟩, _ | ⟨⟨m, later⟩, around⟩⟩ := c <;> cases hnext <;> cases hparent
    exact .inl ⟨rfl, rfl⟩

/-- **One move.**  What is ahead afterwards is what was ahead, with the node replaced by what the
    search goes through below it. -/
theorem next?_cases (host : String) (c : Cursor) :
    (c.next? host = none ∧ c.node.inner host ++ c.after = []) ∨
      ∃ d, c.next? host = some d ∧ d.ahead = c.node.inner host ++ c.after := by
  rw [next?, SyntaxNode.inner]
  by_cases hkind : c.node.kind = host
  · rw [if_pos hkind, if_pos hkind, List.nil_append]
    exact c.onward?_cases
  · rw [if_neg hkind, if_neg hkind, firstChild?]
    cases hchildren : c.node.children with
    | nil => exact c.onward?_cases
    | cons n ns => exact .inr ⟨_, rfl, rfl⟩

theorem ahead_of_next? (h : c.next? host = some d) : d.ahead = c.node.inner host ++ c.after := by
  rcases c.next?_cases host with ⟨hnone, -⟩ | ⟨d', hsome, hahead⟩
  · cases hnone.symm.trans h
  · cases hsome.symm.trans h
    exact hahead

theorem eq_nil_of_next? (h : c.next? host = none) : c.node.inner host ++ c.after = [] := by
  rcases c.next?_cases host with ⟨-, hnil⟩ | ⟨d, hsome, -⟩
  · exact hnil
  · cases h.symm.trans hsome

/-- The search has fewer nodes ahead after each move. -/
theorem countAll_ahead_lt (h : c.next? host = some d) :
    SyntaxNode.countAll d.ahead < SyntaxNode.countAll c.ahead := by
  rw [ahead_of_next? h, ahead, SyntaxNode.countAll_append, SyntaxNode.countAll]
  exact Nat.add_lt_add_right (c.node.countAll_inner_lt host) _

/-- The hosts ahead are the node, if it is one, and those ahead after the move. -/
theorem hostsAll_ahead (host : String) (c : Cursor) :
    SyntaxNode.hostsAll host c.ahead =
      c.node.here host ++ SyntaxNode.hostsAll host (c.node.inner host ++ c.after) := by
  rw [ahead, SyntaxNode.hostsAll, SyntaxNode.hosts_eq, List.append_assoc]
  simp only [SyntaxNode.hostsAll_eq_flatMap, List.flatMap_append]

/-- The search from a place on: the ranges of the hosts that it comes upon are added to those found
    before. -/
def seek (host : String) (c : Cursor) (found : List ByteRange) : List ByteRange :=
  match _h : c.next? host with
  | some next => next.seek host (found ++ c.node.here host)
  | none => found ++ c.node.here host
termination_by SyntaxNode.countAll c.ahead
decreasing_by exact countAll_ahead_lt _h

/-- **The search finds the hosts** that are ahead. -/
theorem seek_eq (host : String) (c : Cursor) (found : List ByteRange) :
    c.seek host found = found ++ SyntaxNode.hostsAll host c.ahead := by
  fun_induction seek host c found with
  | case1 c found next h ih => rw [ih, hostsAll_ahead host c, ahead_of_next? h, List.append_assoc]
  | case2 c found h =>
    rw [hostsAll_ahead, eq_nil_of_next? h, SyntaxNode.hostsAll, List.append_nil]

/-- **The search ends** after no more moves than there are nodes ahead. -/
theorem iterate_next? (host : String) {moves : Nat} (h : SyntaxNode.countAll c.ahead ≤ moves) :
    (fun place => place.bind (next? host))^[moves] (some c) = none := by
  induction moves generalizing c with
  | zero =>
    have := c.node.countAll_inner_lt host
    rw [ahead, SyntaxNode.countAll] at h
    omega
  | succ moves ih =>
    rw [Function.iterate_succ_apply, Option.bind_some]
    cases hnext : c.next? host with
    | none => exact Function.iterate_fixed rfl moves
    | some d =>
      have := countAll_ahead_lt hnext
      exact ih (by omega)

end Cursor

namespace SyntaxNode

variable {host : String} {n m root : SyntaxNode} {ns : List SyntaxNode} {way : List Nat}

/-! ### Outermost nodes -/

/-- The node to which a way leads from the root, by the indices of the children taken. -/
def at? : SyntaxNode → List Nat → Option SyntaxNode
  | n, [] => some n
  | n, i :: way => n.children[i]?.bind (at? · way)

/-- The way leads to a host around which there is no other one. -/
structure OutermostAt (host : String) (root : SyntaxNode) (way : List Nat) (n : SyntaxNode) :
    Prop where
  /-- The way leads to the node. -/
  at_eq : root.at? way = some n
  /-- The node is a host. -/
  kind_eq : n.kind = host
  /-- No node on the way is one. -/
  alone : ∀ front rest a, way = front ++ rest → rest ≠ [] → root.at? front = some a → a.kind ≠ host

mutual

/-- The outermost hosts with the ways to them, in order. -/
def sites (host : String) : SyntaxNode → List (List Nat × SyntaxNode)
  | .node kind range children =>
    if kind = host then [([], .node kind range children)] else sitesAll host 0 children

/-- The outermost hosts of consecutive trees with the ways to them, in order.  The first tree has
    index `i`. -/
def sitesAll (host : String) (i : Nat) : List SyntaxNode → List (List Nat × SyntaxNode)
  | [] => []
  | n :: ns => (sites host n).map (fun site => (i :: site.1, site.2)) ++ sitesAll host (i + 1) ns

end

theorem map_sitesAll_of (hns : ∀ c ∈ ns, (c.sites host).map (·.2.range) = c.hosts host) (i : Nat) :
    (sitesAll host i ns).map (·.2.range) = hostsAll host ns := by
  induction ns generalizing i with
  | nil => rfl
  | cons n ns ih =>
    rw [sitesAll, hostsAll, List.map_append, List.map_map, ← hns n List.mem_cons_self,
      ih fun c hc => hns c (List.mem_cons_of_mem _ hc)]
    rfl

/-- The ranges of the outermost hosts are those that are found. -/
theorem map_sites (host : String) (n : SyntaxNode) :
    (n.sites host).map (·.2.range) = n.hosts host := by
  induction n using induct with
  | node kind range children ih =>
    rw [sites, hosts]
    split
    · rfl
    · exact map_sitesAll_of ih 0

theorem mem_sitesAll_iff {i : Nat} :
    (way, m) ∈ sitesAll host i ns ↔
      ∃ j c rest, ns[j]? = some c ∧ way = (i + j) :: rest ∧ (rest, m) ∈ c.sites host := by
  induction ns generalizing i with
  | nil => simp [sitesAll]
  | cons n ns ih =>
    rw [sitesAll, List.mem_append, List.mem_map, ih]
    constructor
    · rintro (⟨⟨rest, m'⟩, hmem, heq⟩ | ⟨j, c, rest, hc, rfl, hmem⟩)
      · cases heq
        exact ⟨0, n, rest, rfl, rfl, hmem⟩
      · exact ⟨j + 1, c, rest, hc, by rw [Nat.add_right_comm, Nat.add_assoc], hmem⟩
    · rintro ⟨j, c, rest, hc, rfl, hmem⟩
      cases j with
      | zero =>
        cases hc
        exact .inl ⟨(rest, m), hmem, rfl⟩
      | succ j => exact .inr ⟨j, c, rest, hc, by rw [Nat.add_right_comm, Nat.add_assoc], hmem⟩

/-- Around a node that is no host, the outermost hosts are those of its children. -/
theorem outermostAt_iff_of_ne (h : root.kind ≠ host) :
    root.OutermostAt host way m ↔
      ∃ j c rest, root.children[j]? = some c ∧ way = j :: rest ∧ c.OutermostAt host rest m := by
  constructor
  · rintro ⟨hat, hkind, halone⟩
    cases way with
    | nil =>
      cases hat
      exact absurd hkind h
    | cons j rest =>
      obtain ⟨c, hc, hat⟩ := Option.bind_eq_some_iff.mp hat
      refine ⟨j, c, rest, hc, rfl, hat, hkind, ?_⟩
      rintro front tail a rfl htail ha
      exact halone (j :: front) tail a rfl htail (Option.bind_eq_some_iff.mpr ⟨c, hc, ha⟩)
  · rintro ⟨j, c, rest, hc, rfl, hat, hkind, halone⟩
    refine ⟨Option.bind_eq_some_iff.mpr ⟨c, hc, hat⟩, hkind, fun front tail a hway htail ha => ?_⟩
    cases front with
    | nil =>
      cases ha
      exact h
    | cons i front =>
      obtain ⟨rfl, rfl⟩ := List.cons.inj hway
      obtain ⟨c', hc', ha⟩ := Option.bind_eq_some_iff.mp ha
      cases hc.symm.trans hc'
      exact halone front tail a rfl htail ha

/-- **Which hosts are found**: those around which there is no other one. -/
theorem mem_sites_iff : (way, m) ∈ root.sites host ↔ root.OutermostAt host way m := by
  induction root using induct generalizing way with
  | node kind range children ih =>
    rw [sites]
    by_cases hkind : kind = host
    · rw [if_pos hkind, List.mem_singleton]
      constructor
      · intro heq
        cases heq
        exact ⟨rfl, hkind, fun front rest a hway hrest _ =>
          absurd (List.append_eq_nil_iff.mp hway.symm).2 hrest⟩
      · rintro ⟨hat, -, halone⟩
        -- the root is on every way but the empty one
        cases way with
        | nil => cases hat; rfl
        | cons i way => exact absurd hkind (halone [] _ _ rfl (List.cons_ne_nil _ _) rfl)
    · have hne : (node kind range children).kind ≠ host := hkind
      rw [if_neg hkind, mem_sitesAll_iff, outermostAt_iff_of_ne hne]
      refine exists_congr fun j => exists_congr fun c => exists_congr fun rest => ?_
      rw [Nat.zero_add]
      exact and_congr_right fun hc => and_congr_right fun _ => ih c (List.mem_of_getElem? hc)

theorem pairwise_sitesAll_of (hns : ∀ c ∈ ns, (c.sites host).Pairwise fun s t => s.1 < t.1)
    (i : Nat) :
    (sitesAll host i ns).Pairwise fun s t => s.1 < t.1 := by
  induction ns generalizing i with
  | nil => exact .nil
  | cons n ns ih =>
    rw [sitesAll, List.pairwise_append, List.pairwise_map]
    refine ⟨(hns n List.mem_cons_self).imp fun h => List.cons_lt_cons_iff.mpr (.inr ⟨rfl, h⟩),
      ih (fun c hc => hns c (List.mem_cons_of_mem _ hc)) (i + 1), ?_⟩
    rintro s hs ⟨way, m⟩ ht
    obtain ⟨site, -, rfl⟩ := List.mem_map.mp hs
    obtain ⟨j, c, rest, -, rfl, -⟩ := mem_sitesAll_iff.mp ht
    exact List.cons_lt_cons_iff.mpr (.inl (by omega))

/-- **In which order** hosts are found: from node to child and from sibling to sibling. -/
theorem pairwise_sites (host : String) (n : SyntaxNode) :
    (n.sites host).Pairwise fun s t => s.1 < t.1 := by
  induction n using induct with
  | node kind range children ih =>
    rw [sites]
    split
    · exact List.pairwise_singleton _ _
    · exact pairwise_sitesAll_of ih 0

/-! ### Ranges in order -/

/-- The children of every node have ranges that lie in order inside that of the node. -/
inductive Nested : SyntaxNode → Prop
  /-- The children of the root lie so, and so do those below. -/
  | node {kind : String} {range : ByteRange} {children : List SyntaxNode}
      (inside : ∀ c ∈ children, range.start ≤ c.range.start ∧ c.range.stop ≤ range.stop)
      (apart : children.Pairwise fun c d => c.range.stop ≤ d.range.start)
      (each : ∀ c ∈ children, Nested c) : Nested (.node kind range children)

theorem nested_node_iff {kind : String} {range : ByteRange} {children : List SyntaxNode} :
    (node kind range children).Nested ↔
      (∀ c ∈ children, range.start ≤ c.range.start ∧ c.range.stop ≤ range.stop) ∧
      children.Pairwise (fun c d => c.range.stop ≤ d.range.start) ∧ ∀ c ∈ children, c.Nested := by
  constructor
  · rintro ⟨inside, apart, each⟩
    exact ⟨inside, apart, each⟩
  · rintro ⟨inside, apart, each⟩
    exact .node inside apart each

/-- What is found in a tree lies inside the range of its root. -/
theorem Nested.inside_of_mem_hosts (h : n.Nested) :
    ∀ r ∈ n.hosts host, n.range.start ≤ r.start ∧ r.stop ≤ n.range.stop := by
  induction h with
  | @node kind range children inside _ _ ih =>
    intro r hr
    rw [hosts] at hr
    split at hr
    · obtain rfl := List.mem_singleton.mp hr
      exact ⟨Nat.le_refl _, Nat.le_refl _⟩
    · rw [hostsAll_eq_flatMap] at hr
      obtain ⟨c, hc, hr⟩ := List.mem_flatMap.mp hr
      obtain ⟨hstart, hstop⟩ := inside c hc
      obtain ⟨hstart', hstop'⟩ := ih c hc r hr
      exact ⟨Nat.le_trans hstart hstart', Nat.le_trans hstop' hstop⟩

/-- **What is found is in order**: each range ends before the ones after it start. -/
theorem Nested.pairwise_hosts (h : n.Nested) (host : String) :
    (n.hosts host).Pairwise fun r s => r.stop ≤ s.start := by
  induction h with
  | @node kind range children _ apart each ih =>
    rw [hosts]
    split
    · exact List.pairwise_singleton _ _
    · rw [hostsAll_eq_flatMap, List.pairwise_flatMap]
      refine ⟨ih, apart.imp_of_mem fun hc hd hle r hr s hs => ?_⟩
      have hstop := ((each _ hc).inside_of_mem_hosts r hr).2
      have hstart := ((each _ hd).inside_of_mem_hosts s hs).1
      exact Nat.le_trans hstop (Nat.le_trans hle hstart)

end SyntaxNode

/-! ### The inline layer -/

/-- **Whether there is an inline layer**: just if the language has one and there is a host for it. -/
theorem GrammarParser.hasInline_iff {p : GrammarParser} {text : String} {prior : Option SyntaxTree}
    {tree : SyntaxTree} (h : p.parse text prior = .ok tree) :
    tree.hasInline = true ↔
      ∃ second, p.grammars.inline = some second ∧ tree.primary.root.hosts second.host ≠ [] := by
  obtain ⟨primary, -, hrest⟩ := bind_eq_ok_iff.mp h
  obtain ⟨inline, hinline, heq⟩ := bind_eq_ok_iff.mp hrest
  cases heq
  show inline.isSome = true ↔ ∃ second : InlineGrammar, _ ∧ primary.root.hosts second.host ≠ []
  unfold inlineLayer at hinline
  cases hgrammar : p.grammars.inline with
  | none =>
    rw [hgrammar] at hinline
    cases hinline
    simp
  | some second =>
    rw [hgrammar] at hinline
    cases hhosts : primary.root.hosts second.host with
    | nil =>
      simp only [hhosts] at hinline
      cases hinline
      simp [hhosts]
    | cons r ranges =>
      simp only [hhosts] at hinline
      obtain ⟨layer, -, rfl⟩ := map_eq_ok_iff.mp hinline
      simp [hhosts]

/-- **Exactly the outermost hosts are found.**  The search ends after at most as many moves as the
    tree has nodes.  What it finds are the ranges of the hosts around which there is no other one, in
    the order of the ways to them, only the root if it is a host itself.  Where the ranges of children
    are in order, those found are too, and there is an inline layer just if any are found for it. -/
theorem SyntaxNode.hosts_outermost (host : String) (root : SyntaxNode) :
    (fun place => place.bind (Cursor.next? host))^[root.count] (some (.start root)) = none ∧
    (Cursor.start root).seek host [] = root.hosts host ∧
    (∃ sites : List (List Nat × SyntaxNode),
      root.hosts host = sites.map (·.2.range) ∧
      (∀ way n, (way, n) ∈ sites ↔ root.OutermostAt host way n) ∧
      sites.Pairwise fun s t => s.1 < t.1) ∧
    (root.kind = host → root.hosts host = [root.range]) ∧
    (root.Nested → (root.hosts host).Pairwise fun r s => r.stop ≤ s.start) ∧
    ∀ (p : GrammarParser) text prior tree, p.parse text prior = .ok tree →
      (tree.hasInline = true ↔
        ∃ second, p.grammars.inline = some second ∧ tree.primary.root.hosts second.host ≠ []) := by
  have hahead : (Cursor.start root).ahead = [root] := rfl
  refine ⟨Cursor.iterate_next? host ?_, ?_, ⟨root.sites host, (map_sites host root).symm,
    fun _ _ => mem_sites_iff, pairwise_sites host root⟩, fun hkind => ?_,
    fun h => h.pairwise_hosts host, fun _ _ _ _ => GrammarParser.hasInline_iff⟩
  · exact Nat.le_of_eq (by rw [hahead, countAll, countAll, Nat.add_zero])
  · rw [Cursor.seek_eq, hahead, List.nil_append, hostsAll, hostsAll, List.append_nil]
  · rw [hosts_eq, here, inner, if_pos hkind, if_pos hkind, hostsAll, List.append_nil]

/-- A section with a heading, of which the last part is a host with another one inside, and after the
    section a paragraph with one more. -/
def sectioned : SyntaxNode :=
  .node "document" ⟨0, 9⟩
    [.node "section" ⟨0, 6⟩
      [.node "heading" ⟨0, 5⟩
        [.node "marker" ⟨0, 1⟩ [], .node "inline" ⟨2, 5⟩ [.node "inline" ⟨3, 4⟩ []]]],
      .node "paragraph" ⟨6, 9⟩ [.node "inline" ⟨7, 9⟩ []]]

/-- A parser that makes this tree of any text, with an inline layer over its hosts. -/
def sectionParser : GrammarParser where
  language := "sections"
  grammars :=
    { primary := { parse := fun _ _ _ => some { root := sectioned, shape := "", captures := [] } }
      inline := some
        { grammar :=
            { parse := fun _ _ _ => some { root := sectioned, shape := "", captures := [] } }
          host := "inline" } }

theorem nested_sectioned : sectioned.Nested := by
  simp [sectioned, SyntaxNode.nested_node_iff, SyntaxNode.range]

/-- From the host of the heading the cursor climbs over the heading and the section to the paragraph,
    and leaves out what is inside that host. -/
theorem SyntaxNode.hosts_outermost_sectioned :
    sectioned.Nested ∧ (Cursor.start sectioned).seek "inline" [] = [⟨2, 5⟩, ⟨7, 9⟩] ∧
      (sectioned.hosts "inline").Pairwise (fun r s => r.stop ≤ s.start) ∧
      (sectioned.kind = "document" ∧ sectioned.hosts "document" = [⟨0, 9⟩]) ∧
      ∃ tree, sectionParser.parse "# ab\n\nab" none = .ok tree ∧ tree.hasInline = true := by
  obtain ⟨-, hseek, -, -, hordered, hlayer⟩ := hosts_outermost "inline" sectioned
  obtain ⟨-, -, -, hroot, -, -⟩ := hosts_outermost "document" sectioned
  have hparse : ∃ tree, sectionParser.parse "# ab\n\nab" none = .ok tree := ⟨_, rfl⟩
  obtain ⟨tree, htree⟩ := hparse
  refine ⟨nested_sectioned, hseek.trans (by decide), hordered nested_sectioned,
    ⟨rfl, hroot rfl⟩, tree, htree, (hlayer _ _ _ _ htree).mpr ⟨_, rfl, ?_⟩⟩
  cases htree
  decide

end CodeOverlay
