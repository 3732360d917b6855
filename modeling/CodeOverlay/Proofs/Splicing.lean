import CodeOverlay.Proofs.Lookup
import CodeOverlay.Proofs.Tokens

namespace CodeOverlay

open Node

/-!
# Replacements splice the linear document

The replacement of a range works its way down a tree, with positions counted anew at every
level.  Seen from the linear document it is a splice: the tokens between the two positions
give way to the tokens of what is put in.

* `Node.Replaced` — what a successful replacement did, as a relation;
* `replaced_of_replace`, `replace_eq_ok_iff` — a replacement that succeeds did just that, and what
  it can do succeeds;
* `Replaced.split` — the tokens before and after, and the range is balanced;
* `Replaced.nodeAt?_around` — a node around the range is replaced in at its own position;
* `replace_tokens` — the splice, and the sizes of all nodes around it.
-/

variable {new : Replacement} {n n' : Node} {start stop : Nat}

/-! ### What a replacement does -/

/-- The content of a node between `start` and `stop` gave way to `new`. -/
inductive Node.Replaced (new : Replacement) : Node → Nat → Nat → Node → Prop
  /-- In the text of a leaf. -/
  | text {tag : Tag} {l m r inserted : List Char} (h : new.chars? = some inserted) :
      Replaced new (.leaf tag (.ofList (l ++ m ++ r))) (extent Char.utf8Size l)
        (extent Char.utf8Size (l ++ m)) (.leaf tag (.ofList (l ++ inserted ++ r)))
  /-- Among the children of a branch. -/
  | nodes {tag : Tag} {l m r inserted : List Node} (h : new.nodes? = some inserted) :
      Replaced new (.branch tag (l ++ m ++ r)) (extent size l) (extent size (l ++ m))
        (.branch tag (l ++ inserted ++ r))
  /-- Inside one of the children. -/
  | within {tag : Tag} {l r : List Node} {n n' : Node} {start stop : Nat}
      (h : Replaced new n start stop n') :
      Replaced new (.branch tag (l ++ n :: r)) (extent size l + 1 + start)
        (extent size l + 1 + stop) (.branch tag (l ++ n' :: r))

/-- A replacement inside one of several consecutive nodes leaves the others as they are. -/
theorem replaceWithin_eq_some {ns ns' : List Node} (hle : start ≤ stop)
    (h : replaceWithin new ns start stop = some (.ok ns')) :
    ∃ l n r n' a b, ns = l ++ n :: r ∧ ns' = l ++ n' :: r ∧ start = extent size l + 1 + a ∧
      stop = extent size l + 1 + b ∧ n.replace new a b = .ok n' := by
  induction ns generalizing start stop ns' with
  | nil => simp [replaceWithin] at h
  | cons n ns ih =>
    rw [replaceWithin] at h
    split at h
    · rename_i hin
      obtain ⟨n', hn, rfl⟩ := map_eq_ok_iff.mp (Option.some.inj h)
      exact ⟨[], n, ns, n', start - 1, stop - 1, rfl, rfl, by simp; omega, by simp; omega, hn⟩
    · obtain ⟨rest, hrest, hmap⟩ := Option.map_eq_some_iff.mp h
      obtain ⟨ms, rfl, rfl⟩ := map_eq_ok_iff.mp hmap
      obtain ⟨l, m, r, m', a, b, rfl, rfl, ha, hb, hm⟩ := ih (by omega) hrest
      exact ⟨n :: l, m, r, m', a, b, rfl, rfl, by simp; omega, by simp; omega, hm⟩

/-- A replacement that succeeds takes place in a text, among children, or inside a child. -/
theorem replaced_of_replace (h : n.replace new start stop = .ok n') :
    Replaced new n start stop n' := by
  induction n using Node.induct generalizing start stop n' with
  | leaf tag text =>
    rw [replace] at h
    split at h
    · exact absurd h (by simp)
    rename_i hin
    split at h
    · exact absurd h (by simp)
    rename_i inserted hnew
    obtain ⟨chars, hs, rfl⟩ := map_eq_ok_iff.mp h
    obtain ⟨l, m, r, htext, rfl, rfl, rfl⟩ :=
      (splice_eq_ok_iff Char.utf8Size_pos (by omega)).mp hs
    rw [← String.ofList_toList (s := text), htext]
    exact .text hnew
  | branch tag children ih =>
    rw [replace] at h
    split at h
    · exact absurd h (by simp)
    rename_i hin
    split at h
    · rename_i result hwithin
      obtain ⟨ns', rfl, rfl⟩ := map_eq_ok_iff.mp h
      obtain ⟨l, m, r, m', a, b, rfl, rfl, rfl, rfl, hm⟩ :=
        replaceWithin_eq_some (by omega) hwithin
      exact .within (ih m (by simp) hm)
    · split at h
      · exact absurd h (by simp)
      rename_i inserted hnew
      obtain ⟨ns', hs, rfl⟩ := map_eq_ok_iff.mp h
      obtain ⟨l, m, r, rfl, rfl, rfl, rfl⟩ := (splice_eq_ok_iff size_pos (by omega)).mp hs
      exact .nodes hnew

namespace Node.Replaced

/-! ### The tokens -/

/-- The node in whose content the range lies stays what it is. -/
theorem tag_eq (h : Replaced new n start stop n') : n'.tag = n.tag := by
  cases h <;> rfl

/-- The tokens before the range and those after it stay, and those of the range close what
    they open. -/
theorem split (h : Replaced new n start stop n') :
    ∃ before removed after, n.tokens = before ++ removed ++ after ∧
      n'.tokens = before ++ new.tokens ++ after ∧ before.length = start ∧
      (before ++ removed).length = stop ∧ Balanced removed := by
  induction h with
  | @text tag l m r inserted h =>
    refine ⟨textTokens l, textTokens m, textTokens r, by simp, ?_, by simp, by simp,
      balanced_textTokens m⟩
    simp [new.tokens_of_chars? h]
  | @nodes tag l m r inserted h =>
    refine ⟨l.flatMap enclosed, m.flatMap enclosed, r.flatMap enclosed, by simp, ?_,
      length_flatMap_enclosed l, ?_, .flatMap fun n _ => balanced_enclosed n⟩
    · simp [new.tokens_of_nodes? h]
    · rw [← List.flatMap_append, length_flatMap_enclosed]
  | @within tag l r n n' start stop h ih =>
    obtain ⟨before, removed, after, hn, hn', rfl, rfl, hbalanced⟩ := ih
    -- the boundaries of the child, and its neighbours, come around what the child gives
    refine ⟨l.flatMap enclosed ++ .opening n.tag :: before, removed,
      after ++ .closing :: r.flatMap enclosed, ?_, ?_, ?_, ?_, hbalanced⟩
    · simp [enclosed, hn]
    · simp [enclosed, hn', h.tag_eq]
    · rw [List.length_append, length_flatMap_enclosed, List.length_cons]
      omega
    · rw [List.append_assoc, List.length_append, length_flatMap_enclosed, List.cons_append,
        List.length_cons]
      omega

/-- The range lies within the content. -/
theorem range_le (h : Replaced new n start stop n') :
    start ≤ stop ∧ stop ≤ n.contentSize := by
  obtain ⟨before, removed, after, hn, -, rfl, rfl, -⟩ := h.split
  rw [← length_tokens, hn]
  simp

/-- The tokens between the two positions give way to those of what is put in. -/
theorem tokens_eq (h : Replaced new n start stop n') :
    n'.tokens = n.tokens.take start ++ new.tokens ++ n.tokens.drop stop := by
  obtain ⟨before, removed, after, hn, hn', rfl, rfl, -⟩ := h.split
  rw [hn, hn', List.append_assoc before removed, List.take_left' rfl, ← List.append_assoc,
    List.drop_left' rfl]

/-- The content grows by what is put in and shrinks by the range. -/
theorem contentSize_eq (h : Replaced new n start stop n') :
    n'.contentSize + (stop - start) = n.contentSize + new.size := by
  obtain ⟨before, removed, after, hn, hn', rfl, rfl, -⟩ := h.split
  rw [← length_tokens, ← length_tokens, ← new.length_tokens, hn, hn']
  simp only [List.length_append]
  omega

/-! ### The nodes around the range -/

/-- A node around the range keeps its position, and the range is replaced in it. -/
theorem nodeAt?_around {pos : Nat} {m : Node} (h : Replaced new n start stop n')
    (hm : n.nodeAt? pos = some m) (hstart : pos < start) (hstop : stop < pos + m.size) :
    ∃ m', n'.nodeAt? pos = some m' ∧
      Replaced new m (start - (pos + 1)) (stop - (pos + 1)) m' := by
  induction h generalizing pos with
  | text => simp at hm
  | @nodes tag l mid r inserted =>
    -- the range lies between children, so a node that starts before it ends before it
    rw [nodeAt?_branch, List.append_assoc, nodeAtAll?_append, if_pos hstart] at hm
    have := nodeAtAll?_le hm
    rw [extent_append] at hstop
    omega
  | @within tag l r n n' start stop h ih =>
    have hrange := h.range_le
    have hn := n.size_eq
    rw [nodeAt?_branch] at hm ⊢
    obtain ⟨-, hle⟩ | ⟨rfl, rfl⟩ | ⟨p, rfl, hp, -⟩ | ⟨p, rfl, -⟩ := nodeAtAll?_cases hm
    · omega
    · -- it is the child with the range
      have hchild := nodeAtAll?_append_right l (nodeAtAll?_cons_zero n' r)
      exact ⟨n', hchild, by simpa using h⟩
    · obtain ⟨m', hm', hreplaced⟩ := ih hp (by omega) (by omega)
      refine ⟨m', ?_, ?_⟩
      · rw [Nat.add_assoc]
        exact nodeAtAll?_append_right l (nodeAtAll?_cons_inside r hm')
      · have hshift : ∀ a, extent size l + 1 + a - (extent size l + 1 + p + 1) = a - (p + 1) := by
          intro a
          omega
        rw [hshift, hshift]
        exact hreplaced
    · omega

end Node.Replaced

/-! ### What can be replaced -/

/-- A range that starts after some of several consecutive nodes is not strictly enclosed by one of
    them. -/
theorem replaceWithin_append {l : List Node} (ns : List Node) (hle : start ≤ stop)
    (hl : extent size l ≤ start) :
    replaceWithin new (l ++ ns) start stop =
      (replaceWithin new ns (start - extent size l) (stop - extent size l)).map
        (·.map (l ++ ·)) := by
  induction l generalizing start stop with
  | nil =>
    have hid : (fun x : Except EditError (List Node) => x.map ([] ++ ·)) = id := by
      funext x
      cases x <;> rfl
    rw [hid, Option.map_id]
    rfl
  | cons n l ih =>
    rw [extent_cons] at hl
    have hcomp : (fun x : Except EditError (List Node) => (x.map (l ++ ·)).map (n :: ·)) =
        fun x => x.map (n :: l ++ ·) := by
      funext x
      cases x <;> rfl
    rw [List.cons_append, replaceWithin, if_neg (by omega), ih (by omega) (by omega),
      Option.map_map, Nat.sub_sub, Nat.sub_sub, extent_cons, ← hcomp]
    rfl

/-- No node strictly encloses a range that starts where the first of them starts. -/
theorem replaceWithin_zero (ns : List Node) : replaceWithin new ns 0 stop = none := by
  induction ns generalizing stop with
  | nil => rfl
  | cons n ns ih => rw [replaceWithin, if_neg (by omega), Nat.zero_sub, ih, Option.map_none]

/-- What a replacement can do in a text, among children or inside a child, it does. -/
theorem replace_of_replaced (h : Replaced new n start stop n') :
    n.replace new start stop = .ok n' := by
  induction h with
  | @text tag l m r inserted h =>
    have hsize : (String.ofList (l ++ m ++ r)).utf8ByteSize = extent Char.utf8Size (l ++ m ++ r) := by
      rw [Text.utf8ByteSize_eq_extent, String.toList_ofList]
    have hsplice : splice Char.utf8Size EditError.insideChar (l ++ m ++ r) inserted
        (extent Char.utf8Size l) (extent Char.utf8Size (l ++ m)) = .ok (l ++ inserted ++ r) :=
      (splice_eq_ok_iff Char.utf8Size_pos (by simp)).mpr ⟨l, m, r, rfl, rfl, rfl, rfl⟩
    rw [replace, if_neg (by simp only [hsize, extent_append]; omega), h, String.toList_ofList]
    dsimp only
    rw [hsplice]
    rfl
  | @nodes tag l m r inserted h =>
    have hwithin : replaceWithin new (l ++ m ++ r) (extent size l) (extent size (l ++ m)) = none := by
      rw [List.append_assoc, replaceWithin_append _ (by simp) (Nat.le_refl _), Nat.sub_self,
        replaceWithin_zero, Option.map_none]
    have hsplice : splice size EditError.insideNode (l ++ m ++ r) inserted
        (extent size l) (extent size (l ++ m)) = .ok (l ++ inserted ++ r) :=
      (splice_eq_ok_iff size_pos (by simp)).mpr ⟨l, m, r, rfl, rfl, rfl, rfl⟩
    rw [replace, if_neg (by simp only [sizeAll_eq_extent, extent_append]; omega), hwithin, h]
    dsimp only
    rw [hsplice]
    rfl
  | @within tag l r n n' start stop h ih =>
    have hrange := h.range_le
    have hn := n.size_eq
    have hwithin : replaceWithin new (l ++ n :: r) (extent size l + 1 + start)
        (extent size l + 1 + stop) = some (.ok (l ++ n' :: r)) := by
      have hshift : ∀ a, extent size l + 1 + a - extent size l - 1 = a := by omega
      rw [replaceWithin_append _ (by omega) (by omega), replaceWithin, if_pos (by omega), hshift,
        hshift, ih]
      rfl
    rw [replace, if_neg (by simp only [sizeAll_eq_extent, extent_append, extent_cons]; omega),
      hwithin]
    rfl

/-- **A replacement succeeds** just if it takes place in a text, among children, or inside a
    child. -/
theorem replace_eq_ok_iff : n.replace new start stop = .ok n' ↔ Replaced new n start stop n' :=
  ⟨replaced_of_replace, replace_of_replaced⟩

/-! ### The splice -/

/-- **A replacement is a splice.**  The tokens between the two positions give way to those of
    what is put in, and the node itself stays what it is.  As sizes count tokens, the node and
    all nodes around the range grow by what is put in and shrink by the range. -/
theorem replace_tokens (h : n.replace new start stop = .ok n') :
    n'.tokens = n.tokens.take start ++ new.tokens ++ n.tokens.drop stop ∧
      n'.tag = n.tag ∧ start ≤ stop ∧ stop ≤ n.contentSize ∧
      (∀ m : Node, m.contentSize = m.tokens.length) ∧
      n'.contentSize + (stop - start) = n.contentSize + new.size ∧
      ∀ pos m, n.nodeAt? pos = some m → pos < start → stop < pos + m.size →
        ∃ m', n'.nodeAt? pos = some m' ∧ m'.tag = m.tag ∧
          m'.contentSize + (stop - start) = m.contentSize + new.size := by
  have hreplaced := replaced_of_replace h
  refine ⟨hreplaced.tokens_eq, hreplaced.tag_eq, hreplaced.range_le.1, hreplaced.range_le.2,
    fun m => (length_tokens m).symm, hreplaced.contentSize_eq, ?_⟩
  intro pos m hm hstart hstop
  obtain ⟨m', hm', hinner⟩ := hreplaced.nodeAt?_around hm hstart hstop
  refine ⟨m', hm', hinner.tag_eq, ?_⟩
  have := hinner.contentSize_eq
  omega

/-- A paragraph, and another one in a quote. -/
def quoted (text : String) : Node :=
  doc [paragraph "ab", .branch { kind := "quote" } [paragraph text]]

/-- The splice for a text two levels down: the quote and the paragraph in it grow alike. -/
theorem replace_tokens_quoted :
    (quoted "cd").replace (.text "xyz") 7 8 = .ok (quoted "cxyz") ∧
      (quoted "cxyz").tokens =
        (quoted "cd").tokens.take 7 ++ (Replacement.text "xyz").tokens ++
          (quoted "cd").tokens.drop 8 ∧
      (∃ quote, (quoted "cxyz").nodeAt? 4 = some quote ∧ quote.contentSize + 1 = 4 + 3) ∧
      ∃ par, (quoted "cxyz").nodeAt? 5 = some par ∧ par.contentSize + 1 = 2 + 3 := by
  have h : (quoted "cd").replace (.text "xyz") 7 8 = .ok (quoted "cxyz") := rfl
  obtain ⟨htokens, -, -, -, -, -, haround⟩ := replace_tokens h
  obtain ⟨quote, hquote, -, hquoteSize⟩ := haround 4 _ rfl (by decide) (by decide)
  obtain ⟨par, hpar, -, hparSize⟩ := haround 5 _ rfl (by decide) (by decide)
  exact ⟨h, htokens, ⟨quote, hquote, hquoteSize⟩, par, hpar, hparSize⟩

end CodeOverlay
