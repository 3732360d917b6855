import Mathlib.Logic.Relation
import CodeOverlay.Proofs.Boundaries
import CodeOverlay.Proofs.Splicing

namespace CodeOverlay

open Node

/-!
# Why a replacement is refused

A range within the content of a node is judged by the deepest node that strictly encloses it, and
in positions of the content of that node.  The nodes around it pass on what it says.

* `Passage`, `Passage.Enters` — a range within the content of a node, and in the child that
  strictly encloses it;
* `Passage.Deepest` — a passage from which no child can be entered any more;
* `Passage.refusal?` — what there is against a replacement in such a passage;
* `Enters.replace_eq_error_iff`, `Deepest.replace_eq_error_iff` — each node refuses what the next
  one refuses, and so what the deepest one does;
* `replace_judged` — which replacements are refused and why, and that no others are.
-/

variable {new : Replacement} {n : Node} {start stop : Nat}

/-! ### Consecutive nodes -/

/-- A range strictly inside one of consecutive nodes is replaced in that node. -/
theorem replaceWithin_enclosed {l r : List Node} (hle : start ≤ stop)
    (hstart : extent size l < start) (hstop : stop < extent size l + n.size) :
    replaceWithin new (l ++ n :: r) start stop =
      some ((n.replace new (start - (extent size l + 1)) (stop - (extent size l + 1))).map
        (l ++ · :: r)) := by
  rw [replaceWithin_append _ hle (by omega), replaceWithin, if_pos (by omega), Nat.sub_sub,
    Nat.sub_sub, Option.map_some]
  cases n.replace new (start - (extent size l + 1)) (stop - (extent size l + 1)) <;> rfl

/-- Consecutive nodes of which none strictly encloses the range have no answer. -/
theorem replaceWithin_eq_none {ns : List Node}
    (h : ∀ l n r, ns = l ++ n :: r → extent size l < start → extent size l + n.size ≤ stop) :
    replaceWithin new ns start stop = none := by
  induction ns generalizing start stop with
  | nil => rfl
  | cons n ns ih =>
    have hfirst := h [] n ns rfl
    rw [extent_nil, Nat.zero_add] at hfirst
    rw [replaceWithin, if_neg (by omega), ih, Option.map_none]
    intro l m r hns hstart
    have hlater := h (n :: l) m r (by rw [hns, List.cons_append])
    rw [extent_cons] at hlater
    omega

/-! ### Passages -/

/-- A range within the content of a node. -/
@[ext]
structure Passage where
  /-- The node. -/
  node : Node
  /-- The start of the range. -/
  start : Nat
  /-- The end of the range. -/
  stop : Nat
  /-- The range is not reversed. -/
  start_le : start ≤ stop
  /-- It does not end after the content. -/
  stop_le : stop ≤ node.contentSize

namespace Passage

variable {outer inner inner' host : Passage} {error : EditError}

/-- The same range in the child that strictly encloses it.  The child starts before the range and
    ends after it, and the range is counted from the start of the content of the child. -/
def Enters (outer inner : Passage) : Prop :=
  ∃ tag before after, outer.node = .branch tag (before ++ inner.node :: after) ∧
    extent size before < outer.start ∧ outer.stop < extent size before + inner.node.size ∧
    inner.start = outer.start - (extent size before + 1) ∧
    inner.stop = outer.stop - (extent size before + 1)

/-- The passage reached by entering children as long as one of them strictly encloses the range. -/
def Deepest (outer host : Passage) : Prop :=
  Relation.ReflTransGen Enters outer host ∧ ∀ inner, ¬host.Enters inner

/-- What there is against a replacement if no child encloses the range: that it is of another sort
    than the content, or else the first bound that is not between two items of the content. -/
def refusal? (s : Passage) (new : Replacement) : Option EditError :=
  match s.node, new with
  | .leaf _ _, .nodes _ => some (.wrongSort s.start)
  | .leaf _ text, _ => (firstInside? Char.utf8Size text.toList s.start s.stop).map .insideChar
  | .branch _ _, .text _ => some (.wrongSort s.start)
  | .branch _ children, _ => (firstInside? size children s.start s.stop).map .insideNode

/-- A child that strictly encloses the range can be entered. -/
theorem exists_enters {tag : Tag} {before after : List Node}
    (hnode : outer.node = .branch tag (before ++ n :: after))
    (hstart : extent size before < outer.start)
    (hstop : outer.stop < extent size before + n.size) : ∃ inner, outer.Enters inner := by
  have hle := outer.start_le
  have hn := n.size_eq
  exact ⟨⟨n, outer.start - (extent size before + 1), outer.stop - (extent size before + 1),
    by omega, by omega⟩, tag, before, after, hnode, hstart, hstop, rfl, rfl⟩

/-- Only one child strictly encloses the range. -/
theorem Enters.unique (h : outer.Enters inner) (h' : outer.Enters inner') : inner = inner' := by
  obtain ⟨tag, l, r, hnode, hstart, hstop, hinner⟩ := h
  obtain ⟨tag', l', r', hnode', hstart', hstop', hinner'⟩ := h'
  have hle := outer.start_le
  have hchildren : l ++ inner.node :: r = l' ++ inner'.node :: r' := by
    rw [hnode] at hnode'
    exact (Node.branch.inj hnode').2
  obtain ⟨rfl, hnodes⟩ | hbefore | hafter := eq_or_extent_le size hchildren
  · exact Passage.ext hnodes (hinner.1.trans hinner'.1.symm) (hinner.2.trans hinner'.2.symm)
  · -- the range would end before one of them and start after the other
    omega
  · omega

/-! ### The deepest node -/

/-- However children are entered, there is a deepest passage. -/
theorem exists_deepest (s : Passage) : ∃ host, s.Deepest host := by
  obtain ⟨node, start, stop, hle, hfits⟩ := s
  induction node using Node.induct generalizing start stop with
  | leaf tag text =>
    refine ⟨_, .refl, fun inner h => ?_⟩
    obtain ⟨_, _, _, hnode, -⟩ := h
    cases hnode
  | branch tag children ih =>
    by_cases h : ∃ inner, Enters ⟨.branch tag children, start, stop, hle, hfits⟩ inner
    · obtain ⟨inner, h⟩ := h
      have hmem : inner.node ∈ children := by
        obtain ⟨_, before, after, hnode, -⟩ := h
        rw [(Node.branch.inj hnode).2]
        simp
      obtain ⟨host, hreach, hlast⟩ :=
        ih inner.node hmem inner.start inner.stop inner.start_le inner.stop_le
      exact ⟨host, .head h hreach, hlast⟩
    · exact ⟨_, .refl, not_exists.mp h⟩

/-- There is only one deepest passage. -/
theorem Deepest.unique {host' : Passage} (h : outer.Deepest host) (h' : outer.Deepest host') :
    host = host' := by
  have hunique : Relator.RightUnique Enters := fun _ _ _ h h' => h.unique h'
  rcases Relation.ReflTransGen.total_of_right_unique hunique h.1 h'.1 with hreach | hreach
  · exact ((Relation.reflTransGen_iff_eq h.2).mp hreach).symm
  · exact (Relation.reflTransGen_iff_eq h'.2).mp hreach

/-! ### What the nodes answer -/

/-- **A node around the range** refuses what the child that encloses it refuses, and says the
    same. -/
theorem Enters.replace_eq_error_iff (h : outer.Enters inner) :
    outer.node.replace new outer.start outer.stop = .error error ↔
      inner.node.replace new inner.start inner.stop = .error error := by
  obtain ⟨tag, l, r, hnode, hstart, hstop, hinner⟩ := h
  have hle := outer.start_le
  have hfits := outer.stop_le
  rw [hnode, contentSize_branch, ← sizeAll_eq_extent] at hfits
  rw [hnode, replace, if_neg (by omega), replaceWithin_enclosed hle hstart hstop, hinner.1,
    hinner.2]
  dsimp only
  rw [map_eq_error_iff, map_eq_error_iff]

/-- **A node of which no child encloses the range** refuses what there is something against. -/
theorem replace_eq_error_iff_refusal? (h : ∀ inner, ¬host.Enters inner) :
    host.node.replace new host.start host.stop = .error error ↔
      host.refusal? new = some error := by
  obtain ⟨node, start, stop, hle, hfits⟩ := host
  cases node with
  | leaf tag text =>
    have htext : stop ≤ text.utf8ByteSize := contentSize_leaf tag text ▸ hfits
    dsimp only
    rw [replace, if_neg (by omega)]
    cases new with
    | nodes inserted => simp [refusal?, Replacement.chars?]
    | empty => exact map_eq_error_iff.trans (splice_eq_error_iff Char.utf8Size_pos)
    | text inserted => exact map_eq_error_iff.trans (splice_eq_error_iff Char.utf8Size_pos)
  | branch tag children =>
    have hwithin : replaceWithin new children start stop = none := by
      refine replaceWithin_eq_none fun l n r hchildren hstart => ?_
      by_contra hstop
      let outer : Passage := ⟨.branch tag children, start, stop, hle, hfits⟩
      have hnode : outer.node = .branch tag (l ++ n :: r) := congrArg (Node.branch tag) hchildren
      obtain ⟨inner, hinner⟩ := exists_enters hnode hstart (Nat.lt_of_not_le hstop)
      exact h inner hinner
    have hsize : stop ≤ sizeAll children := by
      rw [sizeAll_eq_extent, ← contentSize_branch tag children]
      exact hfits
    dsimp only
    rw [replace, if_neg (by omega), hwithin]
    cases new with
    | text inserted => simp [refusal?, Replacement.nodes?]
    | empty => exact map_eq_error_iff.trans (splice_eq_error_iff size_pos)
    | nodes inserted => exact map_eq_error_iff.trans (splice_eq_error_iff size_pos)

/-- **Each node refuses** what there is something against in the deepest one. -/
theorem Deepest.replace_eq_error_iff (h : outer.Deepest host) :
    outer.node.replace new outer.start outer.stop = .error error ↔
      host.refusal? new = some error := by
  obtain ⟨hreach, hlast⟩ := h
  induction hreach using Relation.ReflTransGen.head_induction_on with
  | refl => exact replace_eq_error_iff_refusal? hlast
  | head hstep _ ih => exact hstep.replace_eq_error_iff.trans ih

/-- There is never that against a replacement that it lies outside. -/
theorem refusal?_ne_outside (s : Passage) (a b size : Nat) :
    s.refusal? new ≠ some (.outside a b size) := by
  obtain ⟨node, start, stop, hle, hfits⟩ := s
  cases node <;> cases new <;> simp [refusal?]

end Passage

/-! ### Which replacements are refused -/

/-- **The deepest node around the range is the judge.**  A range that is reversed or ends after the
    content is refused as such.  Any other leads to one deepest passage, by entering the child that
    strictly encloses it again and again, and the replacement is refused just if there is something
    against it there, and with these very words.  No node on the way finds the range outside its
    content. -/
theorem replace_judged (new : Replacement) :
    (∀ (n : Node) (start stop : Nat), stop < start ∨ n.contentSize < stop →
      n.replace new start stop = .error (.outside start stop n.contentSize)) ∧
    ∀ s : Passage, ∃ host, s.Deepest host ∧ (∀ host', s.Deepest host' → host' = host) ∧
      (∀ error, s.node.replace new s.start s.stop = .error error ↔
        host.refusal? new = some error) ∧
      ((∃ n', s.node.replace new s.start s.stop = .ok n') ↔ host.refusal? new = none) ∧
      ∀ inner, Relation.ReflTransGen Passage.Enters s inner → ∀ start stop size,
        inner.node.replace new inner.start inner.stop ≠ .error (.outside start stop size) := by
  refine ⟨fun n start stop hout => ?_, fun s => ?_⟩
  · cases n with
    | leaf tag text => rw [contentSize_leaf] at hout ⊢; rw [replace, if_pos hout]
    | branch tag children =>
      rw [contentSize_branch, ← sizeAll_eq_extent] at hout ⊢
      rw [replace, if_pos hout]
  · obtain ⟨host, hhost⟩ := s.exists_deepest
    have herror : ∀ error, s.node.replace new s.start s.stop = .error error ↔
        host.refusal? new = some error := fun _ => hhost.replace_eq_error_iff
    refine ⟨host, hhost, fun host' h => h.unique hhost, herror, ?_, ?_⟩
    · cases hresult : s.node.replace new s.start s.stop with
      | error error => simp [(herror error).mp hresult]
      | ok n' =>
        have hnone : host.refusal? new = none :=
          Option.eq_none_iff_forall_ne_some.mpr fun error h => by
            simpa [hresult] using (herror error).mpr h
        simp [hnone]
    · intro inner _ start stop size houtside
      obtain ⟨last, hlast⟩ := inner.exists_deepest
      exact last.refusal?_ne_outside start stop size (hlast.replace_eq_error_iff.mp houtside)

/-- Half of a letter in a quoted paragraph. -/
def halfLetter : Passage where
  node := quoted "céd"
  start := 7
  stop := 8
  start_le := by decide
  stop_le := by decide

/-- The same half, in the paragraph. -/
def halfLetterInside : Passage where
  node := paragraph "céd"
  start := 1
  stop := 2
  start_le := by decide
  stop_le := by decide

/-- The quote is entered, and then the paragraph, which has no children. -/
theorem deepest_halfLetter : halfLetter.Deepest halfLetterInside := by
  let quote : Passage :=
    ⟨.branch { kind := "quote" } [paragraph "céd"], 2, 3, by decide, by decide⟩
  have hquote : halfLetter.Enters quote :=
    ⟨_, [paragraph "ab"], [], rfl, by decide, by decide, rfl, rfl⟩
  have hpar : quote.Enters halfLetterInside := ⟨_, [], [], rfl, by decide, by decide, rfl, rfl⟩
  exact ⟨.head hquote (.head hpar .refl), fun _ ⟨_, _, _, hnode, _⟩ => nomatch hnode⟩

/-- The end of the range is inside the letter.  Before that is found out, nodes are refused, even if
    there are none.  A range that ends after the content is refused by the root. -/
theorem replace_judged_halfLetter :
    (quoted "céd").replace (.text "x") 7 8 = .error (.insideChar 2) ∧
      (quoted "céd").replace (.nodes []) 7 8 = .error (.wrongSort 1) ∧
      (12 < 13 ∧ (quoted "céd").replace .empty 3 13 = .error (.outside 3 13 12)) := by
  refine ⟨?_, ?_, by decide, (replace_judged .empty).1 (quoted "céd") 3 13 (.inr (by decide))⟩
  · obtain ⟨host, -, hunique, herror, -⟩ := (replace_judged (.text "x")).2 halfLetter
    obtain rfl := hunique _ deepest_halfLetter
    exact (herror _).mpr (by decide)
  · obtain ⟨host, -, hunique, herror, -⟩ := (replace_judged (.nodes [])).2 halfLetter
    obtain rfl := hunique _ deepest_halfLetter
    exact (herror _).mpr (by decide)

end CodeOverlay
