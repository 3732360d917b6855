import CodeOverlay.Document.Replacement
import CodeOverlay.Document.Traversal

namespace CodeOverlay

/-!
# The linear document

Positions address a document as if it were flat.  This module writes the content of a node as
the sequence of what stands at its positions, one token each.

* `Token`, `Node.tokens` — the content of a node as tokens; `Node.enclosed` adds the two
  boundaries of the node itself;
* `length_tokens` — there are as many tokens as positions;
* `openTags` — the nodes that are open after some tokens;
* `Balanced` — tokens that close what they open and nothing else, such as those of a node;
* `Node.tagsAround` — the nodes around a position, the innermost first.
-/

/-- What stands at one position of a document. -/
inductive Token where
  /-- The opening boundary of a node, which tells what the node is. -/
  | opening (tag : Tag)
  /-- The closing boundary of a node. -/
  | closing
  /-- One byte of a text. -/
  | byte (value : UInt8)
deriving DecidableEq

/-- The tokens of a text: one for each byte of its UTF-8 form. -/
def textTokens (chars : List Char) : List Token :=
  (chars.flatMap String.utf8EncodeChar).map .byte

namespace Node

mutual

/-- The tokens of the content of a node. -/
def tokens : Node → List Token
  | .leaf _ text => textTokens text.toList
  | .branch _ children => tokensAll children

/-- The tokens of consecutive nodes, their boundaries included. -/
def tokensAll : List Node → List Token
  | [] => []
  | n :: ns => .opening n.tag :: (n.tokens ++ .closing :: tokensAll ns)

end

/-- The tokens of a node between its boundaries, and the boundaries. -/
def enclosed (n : Node) : List Token :=
  .opening n.tag :: (n.tokens ++ [.closing])

theorem tokensAll_eq_flatMap (ns : List Node) : tokensAll ns = ns.flatMap enclosed := by
  induction ns with
  | nil => simp [tokensAll]
  | cons n ns ih => simp [tokensAll, enclosed, ih]

@[simp] theorem tokens_leaf (tag : Tag) (text : String) :
    (leaf tag text).tokens = textTokens text.toList := by
  simp [tokens]

@[simp] theorem tokens_branch (tag : Tag) (children : List Node) :
    (branch tag children).tokens = children.flatMap enclosed := by
  simp [tokens, tokensAll_eq_flatMap]

end Node

/-- The tokens of what is put in the place of a range. -/
def Replacement.tokens : Replacement → List Token
  | .empty => []
  | .text inserted => textTokens inserted.toList
  | .nodes inserted => inserted.flatMap Node.enclosed

theorem Replacement.tokens_of_chars? {new : Replacement} {inserted : List Char}
    (h : new.chars? = some inserted) : new.tokens = textTokens inserted := by
  cases new <;> simp_all [chars?, tokens, textTokens]

theorem Replacement.tokens_of_nodes? {new : Replacement} {inserted : List Node}
    (h : new.nodes? = some inserted) : new.tokens = inserted.flatMap Node.enclosed := by
  cases new <;> simp_all [nodes?, tokens]

/-! ### As many tokens as positions -/

@[simp] theorem textTokens_append (l r : List Char) :
    textTokens (l ++ r) = textTokens l ++ textTokens r := by
  simp [textTokens]

@[simp] theorem length_textTokens (chars : List Char) :
    (textTokens chars).length = extent Char.utf8Size chars := by
  rw [textTokens, List.length_map]
  exact length_flatMap_eq_extent fun c _ => String.length_utf8EncodeChar c

/-- **One token for each position.** -/
theorem length_tokens (n : Node) : n.tokens.length = n.contentSize := by
  induction n using Node.induct with
  | leaf tag text => simp [Text.utf8ByteSize_eq_extent]
  | branch tag children ih =>
    have henclosed : ∀ c ∈ children, c.enclosed.length = c.size := by
      intro c hc
      simp [Node.enclosed, Node.size, ih c hc]
    rw [Node.tokens_branch, Node.contentSize_branch, length_flatMap_eq_extent henclosed]

example : (Node.doc [.paragraph "a"]).tokens =
    [.opening { kind := "paragraph" }, .byte 97, .closing] := by
  decide

@[simp] theorem length_enclosed (n : Node) : n.enclosed.length = n.size := by
  simp [Node.enclosed, Node.size, length_tokens]

theorem length_flatMap_enclosed (ns : List Node) :
    (ns.flatMap Node.enclosed).length = extent Node.size ns :=
  length_flatMap_eq_extent fun n _ => length_enclosed n

/-- What is put in takes the room that it says. -/
theorem Replacement.length_tokens (new : Replacement) : new.tokens.length = new.size := by
  cases new with
  | empty => rfl
  | text inserted => simp [tokens, size, Text.utf8ByteSize_eq_extent]
  | nodes inserted => exact length_flatMap_enclosed inserted

/-! ### Open nodes -/

/-- The open nodes after one more token, the innermost first. -/
def Token.pass (opened : List Tag) : Token → List Tag
  | .opening tag => tag :: opened
  | .closing => opened.tail
  | .byte _ => opened

/-- The nodes open after some tokens, if `opened` were open before. -/
def openTags (opened : List Tag) (ts : List Token) : List Tag :=
  ts.foldl Token.pass opened

@[simp] theorem openTags_nil (opened : List Tag) : openTags opened [] = opened := rfl

@[simp] theorem openTags_append (opened : List Tag) (l r : List Token) :
    openTags opened (l ++ r) = openTags (openTags opened l) r := by
  simp [openTags]

@[simp] theorem openTags_opening (opened : List Tag) (tag : Tag) (ts : List Token) :
    openTags opened (.opening tag :: ts) = openTags (tag :: opened) ts := rfl

@[simp] theorem openTags_closing (opened : List Tag) (ts : List Token) :
    openTags opened (.closing :: ts) = openTags opened.tail ts := rfl

/-- Text opens and closes nothing. -/
@[simp] theorem openTags_bytes (opened : List Tag) (values : List UInt8) :
    openTags opened (values.map .byte) = opened := by
  induction values with
  | nil => rfl
  | cons v vs ih => exact ih

/-- Tokens that close what they open, and nothing else. -/
structure Balanced (ts : List Token) : Prop where
  /-- At the end all that was opened is closed. -/
  closed : openTags [] ts = []
  /-- Along the way, what was open before stays open. -/
  nested : ∀ k opened, openTags opened (ts.take k) = openTags [] (ts.take k) ++ opened

namespace Balanced

variable {l r ts : List Token}

/-- Balanced tokens leave the open nodes as they are. -/
theorem openTags_eq (h : Balanced ts) (opened : List Tag) : openTags opened ts = opened := by
  have hall := h.nested ts.length opened
  rw [List.take_length, h.closed] at hall
  exact hall

theorem nil : Balanced [] where
  closed := rfl
  nested := by simp

theorem append (hl : Balanced l) (hr : Balanced r) : Balanced (l ++ r) where
  closed := by rw [openTags_append, hl.closed, hr.closed]
  nested := by
    intro k opened
    rw [List.take_append, openTags_append, openTags_append, hl.nested, hr.nested,
      hr.nested _ (openTags [] _), List.append_assoc]

theorem bytes (values : List UInt8) : Balanced (values.map .byte) where
  closed := openTags_bytes [] values
  nested := by
    intro k opened
    rw [← List.map_take, openTags_bytes, openTags_bytes, List.nil_append]

/-- Boundaries around balanced tokens are balanced. -/
theorem enclose (tag : Tag) (h : Balanced ts) :
    Balanced (.opening tag :: (ts ++ [.closing])) where
  closed := by simp [h.openTags_eq]
  nested := by
    intro k opened
    cases k with
    | zero => simp
    | succ k =>
      rw [List.take_succ_cons, openTags_opening, openTags_opening]
      by_cases hk : k ≤ ts.length
      · -- still inside, so the new node is the last one open
        rw [List.take_append_of_le_length hk, h.nested, h.nested k [tag], List.append_assoc]
        rfl
      · have hall : (ts ++ [Token.closing]).take k = ts ++ [.closing] :=
          List.take_of_length_le (by simp; omega)
        rw [hall, openTags_append, openTags_append, h.openTags_eq, h.openTags_eq]
        rfl

theorem flatMap {α : Type} {f : α → List Token} {items : List α}
    (h : ∀ a ∈ items, Balanced (f a)) : Balanced (items.flatMap f) := by
  induction items with
  | nil => exact nil
  | cons a items ih =>
    rw [List.flatMap_cons]
    exact (h a (by simp)).append (ih fun b hb => h b (by simp [hb]))

end Balanced

/-- The content of a node is balanced. -/
theorem balanced_tokens (n : Node) : Balanced n.tokens := by
  induction n using Node.induct with
  | leaf tag text => rw [Node.tokens_leaf]; exact .bytes _
  | branch tag children ih =>
    rw [Node.tokens_branch]
    exact .flatMap fun c hc => (ih c hc).enclose c.tag

theorem balanced_enclosed (n : Node) : Balanced n.enclosed :=
  (balanced_tokens n).enclose n.tag

theorem balanced_textTokens (chars : List Char) : Balanced (textTokens chars) :=
  .bytes _

theorem Replacement.balanced_tokens (new : Replacement) : Balanced new.tokens := by
  cases new with
  | empty => exact .nil
  | text inserted => exact balanced_textTokens _
  | nodes inserted => exact .flatMap fun n _ => balanced_enclosed n

/-! ### The nodes around a position -/

namespace Node

/-- What the nodes around a position are, the innermost first.  The node itself, of whose
    content it is a position, does not count. -/
def tagsAround (n : Node) (pos : Nat) : List Tag :=
  openTags [] (n.tokens.take pos)

/-- What the nodes around a position are among consecutive nodes. -/
def tagsAroundAll (ns : List Node) (pos : Nat) : List Tag :=
  openTags [] ((ns.flatMap enclosed).take pos)

@[simp] theorem tagsAround_branch (tag : Tag) (children : List Node) (pos : Nat) :
    (branch tag children).tagsAround pos = tagsAroundAll children pos := by
  rw [tagsAround, tokens_branch, tagsAroundAll]

@[simp] theorem tagsAroundAll_zero (ns : List Node) : tagsAroundAll ns 0 = [] := by
  simp [tagsAroundAll]

/-- Around a position within the first of consecutive nodes is, last, that node. -/
theorem tagsAroundAll_cons_of_lt {n : Node} {pos : Nat} (ns : List Node)
    (hpos : pos + 1 < n.size) :
    tagsAroundAll (n :: ns) (pos + 1) = n.tagsAround pos ++ [n.tag] := by
  have hlen : pos ≤ n.tokens.length := by
    have := n.size_eq
    rw [length_tokens]
    omega
  rw [tagsAroundAll, List.flatMap_cons, enclosed, List.cons_append, List.take_succ_cons,
    List.append_assoc, List.take_append_of_le_length hlen, openTags_opening,
    (balanced_tokens n).nested, tagsAround]

/-- The first of consecutive nodes is around no position after it. -/
theorem tagsAroundAll_cons_of_le {n : Node} {pos : Nat} (ns : List Node)
    (hpos : n.size ≤ pos) : tagsAroundAll (n :: ns) pos = tagsAroundAll ns (pos - n.size) := by
  rw [tagsAroundAll, List.flatMap_cons, List.take_append,
    List.take_of_length_le (by rw [length_enclosed]; exact hpos), openTags_append,
    (balanced_enclosed n).closed, length_enclosed, tagsAroundAll]

end Node

end CodeOverlay
