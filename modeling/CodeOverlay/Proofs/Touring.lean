import Mathlib.Data.List.Nodup
import CodeOverlay.Proofs.Descending
import CodeOverlay.Proofs.Reading

namespace CodeOverlay.Node

/-!
# Walks and what they leave out

Whoever walks through a document is asked at each node whether to descend into it, and may remember
what was visited before.  Whatever the answers, the walk is the one that descends everywhere, less
what stands inside the nodes that were refused.

* `Node.visited` — the nodes visited, if the answer may depend on those before;
* `exists_visited_eq` — each node is asked about once, so the answers are as if given beforehand;
* `mem_visited_iff`, `walk_sublist` — what is left out, and that the order stays;
* `exists_nodeAt?_iff_opening` — a node is found just at the opening boundaries;
* `text_add_walk` — a node has two boundaries for each node below it, and else text;
* `walk_and_lookup_agree` — **both ways to find nodes agree**, and leave nothing out.
-/

/-! ### Answers that depend on what was visited -/

mutual

/-- The nodes visited so far, and those visited below a node whose content starts at `base`. -/
def tour (answer : List Placed → Placed → Bool) (base : Nat) :
    Node → List Placed → List Placed
  | .leaf _ _, seen => seen
  | .branch _ children, seen => tourAll answer base children seen

/-- The nodes visited so far, and those visited of consecutive nodes and below them.  A node is
    visited before it is asked whether to descend into it. -/
def tourAll (answer : List Placed → Placed → Bool) (pos : Nat) :
    List Node → List Placed → List Placed
  | [], seen => seen
  | n :: ns, seen =>
    tourAll answer (pos + n.size) ns
      (if answer seen ⟨n, pos⟩ then tour answer (pos + 1) n (seen ++ [⟨n, pos⟩])
        else seen ++ [⟨n, pos⟩])

end

/-- The nodes below the root that are visited, in this order.  Whether to descend into a node may
    depend on those visited before it. -/
def visited (n : Node) (answer : List Placed → Placed → Bool) : List Placed :=
  n.tour answer 0 []

variable {n m c : Node} {ns : List Node} {p q : Placed} {pos base : Nat}
variable {descend descend' : Node → Nat → Bool} {answer : List Placed → Placed → Bool}
variable {seen : List Placed}

private theorem walkAll_congr
    (hns : ∀ c ∈ ns, ∀ base, (∀ m pos, base ≤ pos → pos < base + c.contentSize →
      descend m pos = descend' m pos) → c.walk descend base = c.walk descend' base)
    (h : ∀ m pos, base ≤ pos → pos < base + extent size ns → descend m pos = descend' m pos) :
    walkAll descend base ns = walkAll descend' base ns := by
  induction ns generalizing base with
  | nil => rw [walkAll, walkAll]
  | cons c ns ih =>
    have hsize := c.size_eq
    rw [extent_cons] at h
    have hc : c.walk descend (base + 1) = c.walk descend' (base + 1) :=
      hns c List.mem_cons_self _ fun m pos hle hlt => h m pos (by omega) (by omega)
    have hrest : walkAll descend (base + c.size) ns = walkAll descend' (base + c.size) ns :=
      ih (fun d hd => hns d (List.mem_cons_of_mem _ hd)) fun m pos hle hlt =>
        h m pos (by omega) (by omega)
    rw [walkAll, walkAll, hc, hrest, h c base (Nat.le_refl _) (by omega)]

/-- A walk asks only about positions in the content that it walks through. -/
theorem walk_congr
    (h : ∀ m pos, base ≤ pos → pos < base + n.contentSize → descend m pos = descend' m pos) :
    n.walk descend base = n.walk descend' base := by
  induction n using Node.induct generalizing base with
  | leaf tag text => rw [walk, walk]
  | branch tag children ih =>
    rw [contentSize_branch] at h
    rw [walk, walk]
    exact walkAll_congr (fun c hc _ => ih c hc) h

/-- Whether `descend` answers for some visits, one after the other, as `answer` does, if `seen` was
    visited before. -/
def Answers (answer : List Placed → Placed → Bool) (descend : Node → Nat → Bool) :
    List Placed → List Placed → Prop
  | _, [] => True
  | seen, p :: ps => descend p.node p.pos = answer seen p ∧ Answers answer descend (seen ++ [p]) ps

theorem answers_append_iff {l r : List Placed} :
    Answers answer descend seen (l ++ r) ↔
      Answers answer descend seen l ∧ Answers answer descend (seen ++ l) r := by
  induction l generalizing seen with
  | nil => simp [Answers]
  | cons p l ih => simp [Answers, ih, and_assoc]

theorem Answers.congr {l : List Placed} (h : Answers answer descend seen l)
    (hl : ∀ p ∈ l, descend' p.node p.pos = descend p.node p.pos) :
    Answers answer descend' seen l := by
  induction l generalizing seen with
  | nil => exact trivial
  | cons p l ih =>
    exact ⟨(hl p List.mem_cons_self).trans h.1,
      ih h.2 fun q hq => hl q (List.mem_cons_of_mem _ hq)⟩

/-- What is visited of consecutive nodes, if it is known what is visited below each of them. -/
private theorem exists_walkAll_eq
    (hns : ∀ c ∈ ns, ∀ base seen, ∃ descend,
      c.tour answer base seen = seen ++ c.walk descend base ∧
        Answers answer descend seen (c.walk descend base)) :
    ∃ descend, tourAll answer base ns seen = seen ++ walkAll descend base ns ∧
      Answers answer descend seen (walkAll descend base ns) := by
  induction ns generalizing base seen with
  | nil =>
    refine ⟨fun _ _ => true, ?_, ?_⟩
    · rw [tourAll, walkAll, List.append_nil]
    · rw [walkAll]
      trivial
  | cons c ns ih =>
    have hsize := c.size_eq
    obtain ⟨inner, hinner, hanswers⟩ :=
      hns c List.mem_cons_self (base + 1) (seen ++ [⟨c, base⟩])
    let below := if answer seen ⟨c, base⟩ then c.walk inner (base + 1) else []
    obtain ⟨later, hlater, hanswers'⟩ := @ih (base + c.size) (seen ++ [⟨c, base⟩] ++ below)
      fun d hd => hns d (List.mem_cons_of_mem _ hd)
    -- the node, those below it and those after it are asked about at positions of their own
    let descend : Node → Nat → Bool := fun m pos =>
      if pos = base then answer seen ⟨c, base⟩
      else if pos < base + c.size then inner m pos else later m pos
    have hself : descend c base = answer seen ⟨c, base⟩ := if_pos rfl
    have hin : ∀ m pos, base < pos → pos < base + c.size → descend m pos = inner m pos := by
      intro m pos hlt hlt'
      show ite _ _ _ = _
      rw [if_neg (by omega), if_pos hlt']
    have hout : ∀ m pos, base + c.size ≤ pos → descend m pos = later m pos := by
      intro m pos hle
      show ite _ _ _ = _
      rw [if_neg (by omega), if_neg (by omega)]
    have hbelow : (if descend c base then c.walk descend (base + 1) else []) = below := by
      have hwalk : c.walk descend (base + 1) = c.walk inner (base + 1) :=
        walk_congr fun m pos hle hlt => hin m pos (by omega) (by omega)
      rw [hself, hwalk]
    have hrest : walkAll descend (base + c.size) ns = walkAll later (base + c.size) ns :=
      walkAll_congr (fun _ _ _ => walk_congr) fun m pos hle _ => hout m pos hle
    have hwalk : walkAll descend base (c :: ns) =
        ⟨c, base⟩ :: (below ++ walkAll later (base + c.size) ns) := by
      rw [walkAll, hbelow, hrest]
    refine ⟨descend, ?_, ?_⟩
    · have hnext : (if answer seen ⟨c, base⟩ then c.tour answer (base + 1) (seen ++ [⟨c, base⟩])
          else seen ++ [⟨c, base⟩]) = seen ++ [⟨c, base⟩] ++ below := by
        show _ = _ ++ ite _ _ _
        split
        · exact hinner
        · rw [List.append_nil]
      rw [tourAll, hnext, hlater, hwalk, List.append_assoc, List.append_assoc]
      rfl
    · rw [hwalk]
      refine ⟨hself, answers_append_iff.mpr ⟨?_, ?_⟩⟩
      · show Answers _ _ _ (ite _ _ _)
        split
        · refine hanswers.congr fun p hp => ?_
          have := walk_bounds hp
          exact hin _ _ (by omega) (by omega)
        · trivial
      · refine hanswers'.congr fun p hp => hout _ _ ?_
        exact (walkAll_bounds (fun _ _ _ _ => walk_bounds) hp).1

/-- What is visited is what a walk lists that gives the same answers. -/
theorem exists_walk_eq (answer : List Placed → Placed → Bool) (n : Node) (base : Nat)
    (seen : List Placed) : ∃ descend, n.tour answer base seen = seen ++ n.walk descend base ∧
      Answers answer descend seen (n.walk descend base) := by
  induction n using Node.induct generalizing base seen with
  | leaf tag text =>
    refine ⟨fun _ _ => true, ?_, ?_⟩
    · rw [tour, walk, List.append_nil]
    · rw [walk]
      trivial
  | branch tag children ih =>
    simp only [tour, walk]
    exact exists_walkAll_eq ih

/-- **Answers as if given beforehand.**  Each node is asked about once, so it does not matter that
    an answer may depend on the visits before. -/
theorem exists_visited_eq (answer : List Placed → Placed → Bool) (n : Node) :
    ∃ descend, n.visited answer = n.descendants descend ∧
      ∀ front q rest, n.visited answer = front ++ q :: rest →
        descend q.node q.pos = answer front q := by
  obtain ⟨descend, hvisited, hanswers⟩ := exists_walk_eq answer n 0 []
  refine ⟨descend, hvisited, fun front q rest hsplit => ?_⟩
  rw [show n.walk descend 0 = front ++ q :: rest from hvisited.symm.trans hsplit] at hanswers
  exact (answers_append_iff.mp hanswers).2.1

private theorem tourAll_eq_of
    (hns : ∀ c ∈ ns, ∀ base seen,
      c.tour (fun _ p => descend p.node p.pos) base seen = seen ++ c.walk descend base) :
    tourAll (fun _ p => descend p.node p.pos) base ns seen = seen ++ walkAll descend base ns := by
  induction ns generalizing base seen with
  | nil => rw [tourAll, walkAll, List.append_nil]
  | cons c ns ih =>
    rw [tourAll, walkAll, hns c List.mem_cons_self, ih fun d hd => hns d (List.mem_cons_of_mem _ hd)]
    split <;> simp

/-- Where the answers do not depend on the visits before, what is visited is what is listed. -/
theorem visited_eq_descendants (descend : Node → Nat → Bool) (n : Node) :
    (n.visited fun _ p => descend p.node p.pos) = n.descendants descend := by
  have htour : ∀ n : Node, ∀ base seen,
      n.tour (fun _ p => descend p.node p.pos) base seen = seen ++ n.walk descend base := by
    intro n
    induction n using Node.induct with
    | leaf tag text => simp [tour, walk]
    | branch tag children ih =>
      intro base seen
      rw [tour, walk]
      exact tourAll_eq_of ih
  exact htour n 0 []

/-! ### What is left out -/

/-- **What is left out.**  A node is visited unless there is one around it that was visited and
    refused. -/
theorem mem_visited_iff :
    p ∈ n.visited answer ↔ p ∈ n.allBelow ∧
      ∀ front q rest, n.visited answer = front ++ q :: rest → n.Above q p →
        answer front q = true := by
  obtain ⟨descend, hvisited, hanswers⟩ := exists_visited_eq answer n
  constructor
  · intro hp
    obtain ⟨hpath, habove⟩ := mem_descendants_iff_reaches.mp (hvisited ▸ hp)
    refine ⟨mem_allBelow_iff.mpr hpath, fun front q rest hsplit hq => ?_⟩
    rw [← hanswers front q rest hsplit]
    exact habove q hq
  · rintro ⟨hp, hleft⟩
    obtain ⟨path, hpath⟩ := mem_allBelow_iff.mp hp
    rw [hvisited]
    refine mem_descendants_iff_reaches.mpr ⟨⟨path, hpath⟩, hpath.allOnWay_iff.mp ?_⟩
    -- from the root down, each node on the way is visited, and so the walk descends into it
    intro front rest a hsplit hrest ha
    induction hlength : front.length using Nat.strong_induction_on generalizing front rest a with
    | h k ih =>
      have hvisit : a ∈ n.visited answer := by
        rw [hvisited]
        refine mem_descendants_iff_reaches.mpr ⟨⟨front, ha⟩, Reaches.allOnWay_iff ha |>.mp ?_⟩
        rintro front' rest' b rfl hrest' hb
        refine ih front'.length ?_ front' (rest' ++ rest) b ?_ ?_ hb rfl
        · rw [← hlength, List.length_append]
          exact Nat.lt_add_of_pos_right (List.length_pos_iff.mpr hrest')
        · rw [hsplit, List.append_assoc]
        · exact List.append_ne_nil_of_left_ne_nil hrest' _
      obtain ⟨before, after, hbefore⟩ := List.append_of_mem hvisit
      rw [hanswers before a after hbefore]
      exact hleft before a after hbefore ⟨front, rest, hrest, ha, hsplit ▸ hpath⟩

private theorem walkAll_sublist
    (hns : ∀ c ∈ ns, ∀ base, (c.walk descend base).Sublist (c.walk (fun _ _ => true) base)) :
    (walkAll descend base ns).Sublist (walkAll (fun _ _ => true) base ns) := by
  induction ns generalizing base with
  | nil => rw [walkAll, walkAll]
  | cons c ns ih =>
    rw [walkAll, walkAll, if_pos rfl]
    refine .cons_cons _ (.append ?_ (ih fun d hd => hns d (List.mem_cons_of_mem _ hd)))
    split
    · exact hns c List.mem_cons_self _
    · exact List.nil_sublist _

/-- What is listed keeps its place in the order of all nodes. -/
theorem walk_sublist (descend : Node → Nat → Bool) (n : Node) (base : Nat) :
    (n.walk descend base).Sublist (n.walk (fun _ _ => true) base) := by
  induction n using Node.induct generalizing base with
  | leaf tag text => rw [walk, walk]
  | branch tag children ih =>
    rw [walk, walk]
    exact walkAll_sublist ih

/-! ### Boundaries and text -/

private theorem textAll_add
    (hns : ∀ c ∈ ns, ∀ base,
      c.text.utf8ByteSize + 2 * (c.walk (fun _ _ => true) base).length = c.contentSize) :
    (textAll ns).utf8ByteSize + 2 * (walkAll (fun _ _ => true) base ns).length =
      extent size ns := by
  induction ns generalizing base with
  | nil =>
    rw [textAll, walkAll]
    rfl
  | cons c ns ih =>
    have hsize := c.size_eq
    have hc := hns c List.mem_cons_self (base + 1)
    have hrest := @ih (base + c.size) fun d hd => hns d (List.mem_cons_of_mem _ hd)
    rw [textAll, walkAll, if_pos rfl, String.utf8ByteSize_append, List.length_cons,
      List.length_append, extent_cons]
    omega

/-- **Text and boundaries.**  The content of a node is its text and two boundaries for each node
    below it. -/
theorem text_add_walk (n : Node) (base : Nat) :
    n.text.utf8ByteSize + 2 * (n.walk (fun _ _ => true) base).length = n.contentSize := by
  induction n using Node.induct generalizing base with
  | leaf tag text =>
    rw [text_leaf, walk, contentSize_leaf]
    rfl
  | branch tag children ih =>
    rw [text, walk, contentSize_branch]
    exact textAll_add ih

/-- At an opening boundary among consecutive nodes there is a node, if this holds below each. -/
private theorem exists_nodeAtAll?_of_opening {tag : Tag}
    (hns : ∀ c ∈ ns, ∀ pos, c.tokens[pos]? = some (.opening tag) → ∃ m, c.nodeAt? pos = some m)
    (h : (ns.flatMap enclosed)[pos]? = some (.opening tag)) : ∃ m, nodeAtAll? ns pos = some m := by
  induction ns generalizing pos with
  | nil => cases h
  | cons c ns ih =>
    rw [List.flatMap_cons] at h
    rcases Nat.lt_or_ge pos c.size with hlt | hge
    · rw [List.getElem?_append_left (by rw [length_enclosed]; exact hlt)] at h
      cases pos with
      | zero => exact ⟨c, nodeAtAll?_cons_zero c ns⟩
      | succ pos =>
        rw [nodeAtAll?_cons_of_lt _ hlt]
        rw [enclosed, List.getElem?_cons_succ] at h
        rcases Nat.lt_or_ge pos c.tokens.length with hin | hend
        · rw [List.getElem?_append_left hin] at h
          exact hns c List.mem_cons_self pos h
        · rw [List.getElem?_append_right hend] at h
          cases List.mem_singleton.mp (List.mem_of_getElem? h)
    · rw [List.getElem?_append_right (by rw [length_enclosed]; exact hge), length_enclosed] at h
      rw [nodeAtAll?_cons_of_le _ hge]
      exact ih (fun d hd => hns d (List.mem_cons_of_mem _ hd)) h

/-- **Nodes start at opening boundaries**, and at each of these there is one. -/
theorem exists_nodeAt?_iff_opening :
    (∃ m, n.nodeAt? pos = some m) ↔ ∃ tag, n.tokens[pos]? = some (.opening tag) := by
  constructor
  · rintro ⟨m, hm⟩
    obtain ⟨before, after, hn, rfl⟩ := exists_tokens_of_nodeAt? hm
    refine ⟨m.tag, ?_⟩
    rw [hn, List.append_assoc, List.getElem?_append_right (Nat.le_refl _), Nat.sub_self]
    rfl
  · rintro ⟨tag, h⟩
    induction n using Node.induct generalizing pos with
    | leaf _ text =>
      rw [tokens_leaf, textTokens] at h
      obtain ⟨byte, -, hbyte⟩ := List.mem_map.mp (List.mem_of_getElem? h)
      cases hbyte
    | branch _ children ih =>
      rw [tokens_branch] at h
      simp only [nodeAt?_branch]
      exact exists_nodeAtAll?_of_opening (fun c hc pos => ih c hc) h

/-- No node starts at a byte of text, at a closing boundary or after the content. -/
theorem nodeAt?_eq_none_iff :
    n.nodeAt? pos = none ↔
      (∃ value, n.tokens[pos]? = some (.byte value)) ∨ n.tokens[pos]? = some .closing ∨
        n.contentSize ≤ pos := by
  have hopening : n.nodeAt? pos = none ↔ ¬∃ tag, n.tokens[pos]? = some (.opening tag) := by
    rw [← exists_nodeAt?_iff_opening, ← Option.ne_none_iff_exists', not_not]
  rw [hopening, ← length_tokens, ← List.getElem?_eq_none_iff]
  cases n.tokens[pos]? with
  | none => simp
  | some token => cases token <;> simp

/-! ### Both ways to find nodes -/

/-- **Walking and looking up agree.**  A walk that descends everywhere visits each node that can be
    reached, once and in the order of positions, and the nodes visited are those that are found at
    their positions.  A walk that does not descend everywhere leaves out what stands inside the
    nodes that it refuses, and nothing else. -/
theorem walk_and_lookup_agree (n : Node) :
    (n.allBelow.Pairwise (·.pos < ·.pos) ∧ (∀ p ∈ n.allBelow, ∃! path, n.Reaches path p) ∧
      ∀ path p, n.Reaches path p → n.allBelow.count p = 1) ∧
    (∀ m pos, n.nodeAt? pos = some m ↔ ⟨m, pos⟩ ∈ n.allBelow) ∧
    (∀ pos, n.nodeAt? pos = none ↔
      (∃ value, n.tokens[pos]? = some (.byte value)) ∨ n.tokens[pos]? = some .closing ∨
        n.contentSize ≤ pos) ∧
    (∀ answer, (n.visited answer).Sublist n.allBelow ∧
      ∀ p, p ∈ n.visited answer ↔ p ∈ n.allBelow ∧
        ∀ front q rest, n.visited answer = front ++ q :: rest → n.Above q p →
          answer front q = true) ∧
    (∀ descend, n.descendants descend = n.visited fun _ p => descend p.node p.pos) ∧
    n.text.utf8ByteSize + 2 * n.allBelow.length = n.contentSize := by
  have hascending : n.allBelow.Pairwise (·.pos < ·.pos) := walk_ascending
  have hnodup : n.allBelow.Nodup := hascending.imp fun hlt heq => by
    rw [heq] at hlt
    exact Nat.lt_irrefl _ hlt
  refine ⟨⟨hascending, fun p hp => ?_, fun path p hp => ?_⟩, fun m pos => ?_,
    fun pos => nodeAt?_eq_none_iff, fun answer => ⟨?_, fun p => mem_visited_iff⟩,
    fun descend => (visited_eq_descendants descend n).symm, text_add_walk n 0⟩
  · obtain ⟨path, hpath⟩ := mem_allBelow_iff.mp hp
    exact ⟨path, hpath, fun path' hpath' => hpath'.path_unique hpath rfl⟩
  · exact List.count_eq_one_of_mem hnodup (mem_allBelow_iff.mpr ⟨path, hp⟩)
  · rw [mem_allBelow_iff, exists_reaches_iff]
  · obtain ⟨descend, hvisited, -⟩ := exists_visited_eq answer n
    rw [hvisited]
    exact walk_sublist descend n 0

/-- Two quotes, of which the first holds a paragraph without text, with a paragraph between them. -/
def twoQuotes : Node :=
  .doc [.branch { kind := "quote" } [.paragraph ""], .paragraph "é",
    .branch { kind := "quote" } [.paragraph ""]]

/-- Whoever descends into the first node only leaves out what stands in the second quote. -/
theorem walk_and_lookup_agree_twoQuotes :
    twoQuotes.allBelow.count ⟨.paragraph "", 9⟩ = 1 ∧
      twoQuotes.nodeAt? 9 = some (.paragraph "") ∧ twoQuotes.nodeAt? 6 = none ∧
      ⟨.paragraph "", 1⟩ ∈ twoQuotes.visited (fun before _ => before.isEmpty) ∧
      ⟨.paragraph "", 9⟩ ∉ twoQuotes.visited (fun before _ => before.isEmpty) ∧
      twoQuotes.text.utf8ByteSize + 2 * 5 = twoQuotes.contentSize := by
  obtain ⟨⟨-, -, hcount⟩, hlookup, hnone, hvisited, -, htext⟩ := walk_and_lookup_agree twoQuotes
  have hsecond : twoQuotes.children =
      [.branch { kind := "quote" } [.paragraph ""], .paragraph "é"] ++
        .branch { kind := "quote" } [.paragraph ""] :: [] := rfl
  have hquote : twoQuotes.Reaches [2] ⟨.branch { kind := "quote" } [.paragraph ""], 8⟩ :=
    .child hsecond
  have hpath : twoQuotes.Reaches [2, 0] ⟨.paragraph "", 9⟩ :=
    .inside hsecond (@ReachedAmong.child _ [] [] (.paragraph "") rfl)
  have hone := hcount [2, 0] _ hpath
  refine ⟨hone, (hlookup _ 9).mpr (List.count_pos_iff.mp (hone ▸ Nat.one_pos)),
    (hnone 6).mpr (.inl ⟨169, by decide⟩), by decide, fun h => ?_, htext⟩
  -- the second quote was refused
  obtain ⟨-, hleft⟩ := ((hvisited fun before _ => before.isEmpty).2 _).mp h
  have hrefused := hleft [⟨.branch { kind := "quote" } [.paragraph ""], 0⟩, ⟨.paragraph "", 1⟩,
    ⟨.paragraph "é", 4⟩] _ [] (by decide) ⟨[2], [0], by decide, hquote, hpath⟩
  cases hrefused

end CodeOverlay.Node
