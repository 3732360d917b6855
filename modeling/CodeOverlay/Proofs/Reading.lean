import CodeOverlay.Proofs.Coherence
import CodeOverlay.Proofs.Strokes
import CodeOverlay.Proofs.Targets

namespace CodeOverlay

open Node

/-!
# What is read where a node is painted

A grammar sees the text of a node and counts its bytes.  Positions also count the boundaries of the
nodes inside, and the text has none.  So a stroke lies on the bytes that were captured if the node
holds its text itself, and too early if the text is that of nodes inside it.

* `bytesOf`, `Node.bytesBetween` — the bytes of text between two positions;
* `bytesOf_tokens` — the text of a node is what its tokens have of bytes;
* `exists_tokens_of_nodeAt?`, `exists_tokens_of_mem_targets` — a node below a root, and a target,
  in the linear document;
* `Node.boundariesBefore` — the boundaries of nodes before a position;
* `bytesBetween_eq` — what lies between two positions, as a part of the text;
* `strokes_read` — what lies where a target is painted;
* `misread_nested` — this need not be what was captured.
-/

/-! ### The bytes of some tokens -/

/-- The byte for which a token stands, unless it is a boundary. -/
def Token.byte? : Token → Option UInt8
  | .byte value => some value
  | _ => none

/-- Whether a token is the boundary of a node. -/
def Token.isBoundary (t : Token) : Bool :=
  t.byte?.isNone

/-- The bytes of text among some tokens. -/
def bytesOf (ts : List Token) : List UInt8 :=
  ts.filterMap Token.byte?

@[simp] theorem bytesOf_append (l r : List Token) : bytesOf (l ++ r) = bytesOf l ++ bytesOf r :=
  List.filterMap_append

@[simp] theorem bytesOf_opening (tag : Tag) (ts : List Token) :
    bytesOf (.opening tag :: ts) = bytesOf ts := rfl

@[simp] theorem bytesOf_closing (ts : List Token) : bytesOf (.closing :: ts) = bytesOf ts := rfl

/-- Every token is a byte or a boundary. -/
theorem length_bytesOf_add (ts : List Token) :
    (bytesOf ts).length + ts.countP Token.isBoundary = ts.length := by
  have hboundary : Token.isBoundary = fun t => decide ¬(t.byte?.isSome = true) := by
    funext t
    cases t <;> rfl
  rw [bytesOf, List.length_filterMap_eq_countP, hboundary]
  exact (List.length_eq_countP_add_countP fun t : Token => t.byte?.isSome).symm

/-- A text is made of its bytes. -/
@[simp] theorem bytesOf_textTokens (text : String) :
    bytesOf (textTokens text.toList) = Text.bytes text := by
  rw [bytesOf, textTokens, List.filterMap_map]
  exact List.filterMap_some

namespace Node

variable {n m : Node} {pos start stop origin : Nat}

/-! ### The text of a node -/

theorem text_leaf (tag : Tag) (text : String) : (leaf tag text).text = text := by
  simp [Node.text]

/-- The text of consecutive nodes is that of each of them, one after the other. -/
theorem bytes_textAll (ns : List Node) :
    Text.bytes (textAll ns) = ns.flatMap fun n => Text.bytes n.text := by
  induction ns with
  | nil => rfl
  | cons n ns ih =>
    rw [textAll, List.flatMap_cons, ← ih]
    simp [Text.bytes]

/-- **The text of a node is what its tokens have of bytes.** -/
theorem bytesOf_tokens (n : Node) : bytesOf n.tokens = Text.bytes n.text := by
  induction n using Node.induct with
  | leaf tag text => rw [tokens_leaf, bytesOf_textTokens, text_leaf]
  | branch tag children ih =>
    have henclosed : ∀ c ∈ children, bytesOf c.enclosed = Text.bytes c.text := by
      intro c hc
      rw [enclosed, bytesOf_opening, bytesOf_append, bytesOf_closing, ih c hc]
      exact List.append_nil _
    rw [tokens_branch, text, bytes_textAll, bytesOf, List.filterMap_flatMap]
    exact List.flatMap_congr henclosed

/-- A node takes at least the room of its text. -/
theorem utf8ByteSize_text_le (n : Node) : n.text.utf8ByteSize ≤ n.contentSize := by
  rw [← Text.length_bytes, ← bytesOf_tokens, ← length_tokens]
  exact List.length_filterMap_le _ _

/-! ### Nodes in the linear document -/

/-- A node found among consecutive nodes has its tokens there, if this holds below each of them. -/
private theorem exists_tokens_of_nodeAtAll? {ns : List Node}
    (hns : ∀ c ∈ ns, ∀ {p}, c.nodeAt? p = some m →
      ∃ before after, c.tokens = before ++ m.enclosed ++ after ∧ before.length = p)
    (h : nodeAtAll? ns pos = some m) :
    ∃ before after, ns.flatMap enclosed = before ++ m.enclosed ++ after ∧ before.length = pos := by
  induction ns generalizing pos with
  | nil => simp [nodeAtAll?] at h
  | cons c ns ih =>
    rw [List.flatMap_cons]
    -- the node found is the first one, inside of it, or among those after it
    rcases Nat.lt_or_ge pos c.size with hlt | hge
    · cases pos with
      | zero =>
        rw [nodeAtAll?_cons_zero, Option.some.injEq] at h
        exact ⟨[], ns.flatMap enclosed, by rw [h]; rfl, rfl⟩
      | succ pos =>
        rw [nodeAtAll?_cons_of_lt _ hlt] at h
        obtain ⟨before, after, hc, rfl⟩ := hns c (by simp) h
        exact ⟨.opening c.tag :: before, after ++ .closing :: ns.flatMap enclosed,
          by simp [enclosed, hc], rfl⟩
    · rw [nodeAtAll?_cons_of_le _ hge] at h
      obtain ⟨before, after, hafter, hlen⟩ := ih (fun d hd => hns d (by simp [hd])) h
      refine ⟨c.enclosed ++ before, after, by simp [hafter], ?_⟩
      rw [List.length_append, length_enclosed, hlen]
      omega

/-- A node found at a position has its tokens there. -/
theorem exists_tokens_of_nodeAt? (h : n.nodeAt? pos = some m) :
    ∃ before after, n.tokens = before ++ m.enclosed ++ after ∧ before.length = pos := by
  induction n using Node.induct generalizing pos with
  | leaf tag text => simp at h
  | branch tag children ih =>
    rw [tokens_branch]
    exact exists_tokens_of_nodeAtAll? (fun c hc _ => ih c hc) (by simpa using h)

/-- **The content of a target** has its tokens at the origin of the target. -/
theorem exists_tokens_of_mem_targets {kinds : Kinds} {target : Target}
    (h : target ∈ n.targets kinds) :
    ∃ before after, n.tokens = before ++ target.node.tokens ++ after ∧
      before.length = target.pos.origin := by
  rcases target with ⟨m, pos⟩
  cases pos with
  | root =>
    have hm : m = n := by
      rcases List.mem_append.mp h with h | h
      · split at h
        · exact (Target.mk.inj (List.mem_singleton.mp h)).1
        · cases h
      · obtain ⟨p, -, hp⟩ := List.mem_map.mp h
        cases hp
    exact ⟨[], [], by simp [hm], rfl⟩
  | inner pos =>
    obtain ⟨before, after, hn, hpos⟩ := exists_tokens_of_nodeAt? (nodeAt?_of_mem_targets h)
    refine ⟨before ++ [.opening m.tag], .closing :: after, by simp [hn, enclosed], ?_⟩
    rw [List.length_append, hpos]
    rfl

/-! ### Between two positions -/

end Node

/-- The bytes of a text between two offsets. -/
def Text.bytesBetween (text : String) (start stop : Nat) : List UInt8 :=
  ((bytes text).take stop).drop start

namespace Node

variable {n m : Node} {pos start stop origin : Nat}

/-- The bytes of text between two positions. -/
def bytesBetween (n : Node) (start stop : Nat) : List UInt8 :=
  bytesOf ((n.tokens.take stop).drop start)

/-- How many boundaries of nodes are before a position. -/
def boundariesBefore (n : Node) (pos : Nat) : Nat :=
  (n.tokens.take pos).countP Token.isBoundary

/-- Whether the content of the node is text. -/
def isLeaf : Node → Bool
  | .leaf _ _ => true
  | .branch _ _ => false

/-- What lies between two positions of a node's content lies between two positions of the document,
    and is the same. -/
theorem bytesBetween_of_tokens {before after : List Token}
    (hn : n.tokens = before ++ m.tokens ++ after) (hbefore : before.length = origin)
    (hstop : stop ≤ m.contentSize) :
    n.bytesBetween (start + origin) (stop + origin) = m.bytesBetween start stop := by
  have hlen : stop ≤ m.tokens.length := by rw [length_tokens]; exact hstop
  rw [bytesBetween, hn, ← hbefore, Nat.add_comm start, Nat.add_comm stop, List.append_assoc,
    List.take_length_add_append, List.drop_length_add_append, List.take_append_of_le_length hlen,
    bytesBetween]

/-- Before a position there are as many bytes as there are tokens that are no boundaries. -/
theorem length_bytesOf_take (hpos : pos ≤ n.contentSize) :
    (bytesOf (n.tokens.take pos)).length = pos - n.boundariesBefore pos := by
  have hlen := length_bytesOf_add (n.tokens.take pos)
  rw [List.length_take, length_tokens, Nat.min_eq_left hpos] at hlen
  rw [boundariesBefore]
  omega

/-- **What lies between two positions** is a part of the text.  It begins and ends as many bytes
    before the positions as there are boundaries before them. -/
theorem bytesBetween_eq (hle : start ≤ stop) (hstop : stop ≤ n.contentSize) :
    n.bytesBetween start stop = Text.bytesBetween n.text (start - n.boundariesBefore start)
      (stop - n.boundariesBefore stop) := by
  have htake : n.tokens.take start = (n.tokens.take stop).take start := by
    rw [List.take_take, Nat.min_eq_left hle]
  -- the text is what lies before the positions, between them and after them
  have htext : Text.bytes n.text = bytesOf (n.tokens.take start) ++ n.bytesBetween start stop ++
      bytesOf (n.tokens.drop stop) := by
    rw [bytesBetween, ← bytesOf_append, ← bytesOf_append, htake, List.take_append_drop,
      List.take_append_drop, bytesOf_tokens]
  have hbefore : (bytesOf (n.tokens.take start)).length = start - n.boundariesBefore start :=
    length_bytesOf_take (Nat.le_trans hle hstop)
  have hwithin : (bytesOf (n.tokens.take start) ++ n.bytesBetween start stop).length =
      stop - n.boundariesBefore stop := by
    rw [bytesBetween, ← bytesOf_append, htake, List.take_append_drop, length_bytesOf_take hstop]
  rw [Text.bytesBetween, htext, List.take_left' hwithin, List.drop_left' hbefore]

/-- In a text there are no boundaries. -/
theorem boundariesBefore_leaf (tag : Tag) (text : String) (pos : Nat) :
    (leaf tag text).boundariesBefore pos = 0 := by
  rw [boundariesBefore, tokens_leaf, List.countP_eq_zero]
  intro t ht
  obtain ⟨value, -, rfl⟩ := List.mem_map.mp (List.mem_of_mem_take ht)
  exact Bool.false_ne_true

/-- The content of a branch begins with a boundary, if there is any content. -/
theorem boundariesBefore_branch_pos {tag : Tag} {children : List Node} (hpos : 0 < pos)
    (hcontent : 0 < (branch tag children).contentSize) :
    0 < (branch tag children).boundariesBefore pos := by
  cases children with
  | nil => simp at hcontent
  | cons c children =>
    obtain ⟨pos, rfl⟩ := Nat.exists_eq_succ_of_ne_zero (Nat.ne_of_gt hpos)
    rw [boundariesBefore, tokens_branch, List.flatMap_cons, enclosed, List.cons_append,
      List.take_succ_cons, List.countP_cons]
    exact Nat.succ_pos _

/-- Within its content, a node has no boundary before a position just if it is a leaf. -/
theorem boundariesBefore_eq_zero_iff (hpos : 0 < pos) (hcontent : pos ≤ n.contentSize) :
    n.boundariesBefore pos = 0 ↔ n.isLeaf = true := by
  cases n with
  | leaf tag text => exact ⟨fun _ => rfl, fun _ => boundariesBefore_leaf tag text pos⟩
  | branch tag children =>
    have := boundariesBefore_branch_pos hpos (Nat.lt_of_lt_of_le hpos hcontent)
    exact ⟨fun h => by omega, fun h => by cases h⟩

end Node

/-! ### Strokes -/

variable {doc : Node} {kinds : Kinds} {target : Target} {styling : Styling} {parser : Parser}
variable {prior : Option SyntaxTree} {r : Rendering}

/-- **What is read where a target is painted.**  Strokes are those of the tree, moved to the origin
    of the target.  Where one is painted there lies the part of the text that begins and ends as
    many bytes earlier as there are boundaries before, inside of the target.  There are none just if
    the target holds its text itself, and then that part is what was captured. -/
theorem strokes_read (htarget : target ∈ doc.targets kinds)
    (hr : render styling parser target.node.text target.pos prior = .ok r) :
    r.strokes = (r.tree.strokes styling).map (·.shift target.pos.origin) ∧
      ∀ t ∈ r.tree.strokes styling, t.stop ≤ target.node.text.utf8ByteSize →
        doc.bytesBetween (t.start + target.pos.origin) (t.stop + target.pos.origin) =
          Text.bytesBetween target.node.text (t.start - target.node.boundariesBefore t.start)
            (t.stop - target.node.boundariesBefore t.stop) ∧
        (target.node.boundariesBefore t.stop = 0 ↔ target.node.isLeaf = true) ∧
        (target.node.isLeaf = true →
          doc.bytesBetween (t.start + target.pos.origin) (t.stop + target.pos.origin) =
            Text.bytesBetween target.node.text t.start t.stop) := by
  obtain ⟨tree, -, rfl⟩ := map_eq_ok_iff.mp hr
  refine ⟨rfl, fun t ht hstop => ?_⟩
  obtain ⟨before, after, hdoc, hbefore⟩ := exists_tokens_of_mem_targets htarget
  have hlt : t.start < t.stop := tree.lt_of_mem_strokes ht
  have hcontent : t.stop ≤ target.node.contentSize :=
    Nat.le_trans hstop target.node.utf8ByteSize_text_le
  have hread : doc.bytesBetween (t.start + target.pos.origin) (t.stop + target.pos.origin) =
      Text.bytesBetween target.node.text (t.start - target.node.boundariesBefore t.start)
        (t.stop - target.node.boundariesBefore t.stop) := by
    rw [bytesBetween_of_tokens hdoc hbefore hcontent, bytesBetween_eq (Nat.le_of_lt hlt) hcontent]
  refine ⟨hread, boundariesBefore_eq_zero_iff (by omega) hcontent, fun hleaf => ?_⟩
  rw [hread]
  -- the offsets in a leaf are those of its text
  rcases target with ⟨node | node, pos⟩
  · rw [boundariesBefore_leaf, boundariesBefore_leaf]
    rfl
  · cases hleaf

namespace Overlay

/-- The parser for lists of digits. -/
def digitParser : Parser :=
  GrammarParser.toParser ⟨"json", { primary := digitList }⟩

/-- The digit of a note is painted where it stands. -/
theorem strokes_read_note :
    ⟨.codeBlock "json" "[1]", .inner 4⟩ ∈ note.targets digitLists.kinds ∧
      ∃ r, render digitLists.styling digitParser "[1]" (.inner 4) none = .ok r ∧
        r.strokes = [⟨6, 7, "tok-number"⟩] ∧ note.bytesBetween 6 7 = Text.bytes "1" := by
  obtain ⟨r, hr⟩ : ∃ r, render digitLists.styling digitParser "[1]" (.inner 4) none = .ok r :=
    ⟨_, rfl⟩
  have htarget : ⟨.codeBlock "json" "[1]", .inner 4⟩ ∈ note.targets digitLists.kinds := by
    decide +kernel
  have htree : r.tree.strokes digitLists.styling = [⟨1, 2, "tok-number"⟩] := by
    cases hr
    decide +kernel
  obtain ⟨hstrokes, hread⟩ := strokes_read htarget hr
  rw [htree] at hstrokes hread
  obtain ⟨-, -, hleaf⟩ := hread _ (List.mem_singleton_self _) (by decide +kernel)
  exact ⟨htarget, r, hr, hstrokes, (hleaf rfl).trans (by decide +kernel)⟩

/-- An overlay that highlights a whole document as a list of digits. -/
def wholeList : Overlay :=
  { digitLists with
    parsers := ({} : ParserTable).withFallback digitParser
    kinds := (∅ : Kinds).insert rootKind }

/-- A list of digits, in a block of code. -/
def nestedList : Node :=
  .doc [.codeBlock "json" "[1]"]

/-- **A nested text is misread.**  The digit is captured, and what is painted is the bracket before
    it: the text of the document has no boundary of the block, while positions count one. -/
theorem misread_nested :
    ⟨nestedList, .root⟩ ∈ nestedList.targets wholeList.kinds ∧
      (∃ tree, digitParser.parse nestedList.text none = .ok tree ∧
        tree.strokes wholeList.styling = [⟨1, 2, "tok-number"⟩]) ∧
      ((wholeList.start nestedList).2.map (·.decorations.strokes)).toOption =
        some [⟨1, 2, "tok-number"⟩] ∧
      Text.bytesBetween nestedList.text 1 2 = Text.bytes "1" ∧
      nestedList.bytesBetween (1 + Spot.root.origin) (2 + Spot.root.origin) = Text.bytes "[" ∧
      Text.bytes "[" ≠ Text.bytes "1" := by
  exact ⟨by decide +kernel, ⟨_, rfl, by decide +kernel⟩, by decide +kernel, by decide +kernel,
    by decide +kernel, by decide +kernel⟩

end Overlay

end CodeOverlay
