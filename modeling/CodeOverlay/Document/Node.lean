import Std.Data.ExtTreeMap
import CodeOverlay.Text.Bytes

namespace CodeOverlay

/-!
# Document nodes

A document is a tree.  A node occupies one position for its opening boundary, the positions
of its content, and one for its closing boundary; text content takes one position for each
byte.  The content of the root starts at position 0.

* `Tag` — what a node is apart from its content: kind, attributes, block or inline;
* `Node` — a leaf with text or a branch with children;
* `Node.induct` — induction over the children;
* `Node.contentSize`, `Node.size` — the positions of the content, and with the boundaries;
* `contentSize_branch` — the content of a branch takes the room of its children.
-/

/-- Attributes by name. -/
abbrev Attributes := Std.ExtTreeMap String String

/-- What a node is apart from its content. -/
structure Tag where
  /-- The structural type, such as `"code_block"`. -/
  kind : String
  /-- The attributes. -/
  attrs : Attributes := ∅
  /-- Whether the node stands within a line and not as a block. -/
  inline : Bool := false
deriving DecidableEq

/-- A node of a document. -/
inductive Node where
  /-- A node whose content is text. -/
  | leaf (tag : Tag) (text : String)
  /-- A node whose content is a list of nodes. -/
  | branch (tag : Tag) (children : List Node)

namespace Node

/-! ### Equality -/

mutual

/-- Decides whether two nodes have the same tag and the same content. -/
protected def decEq : (m n : Node) → Decidable (m = n)
  | .leaf s v, .leaf t w =>
    if h : s = t ∧ v = w then isTrue (by rw [h.1, h.2]) else isFalse (by simpa using h)
  | .branch s ms, .branch t ns =>
    match Node.decEqAll ms ns with
    | isTrue hc => if h : s = t then isTrue (by rw [h, hc]) else isFalse (by simp [h])
    | isFalse hc => isFalse (by simp [hc])
  | .leaf _ _, .branch _ _ => isFalse nofun
  | .branch _ _, .leaf _ _ => isFalse nofun

/-- Decides whether two lists of nodes are equal. -/
protected def decEqAll : (ms ns : List Node) → Decidable (ms = ns)
  | [], [] => isTrue rfl
  | m :: ms, n :: ns =>
    match Node.decEq m n, Node.decEqAll ms ns with
    | isTrue h, isTrue hs => isTrue (by rw [h, hs])
    | isFalse h, _ => isFalse (by simp [h])
    | _, isFalse hs => isFalse (by simp [hs])
  | [], _ :: _ => isFalse nofun
  | _ :: _, [] => isFalse nofun

end

instance : DecidableEq Node := Node.decEq

/-! ### Parts -/

/-- What the node is apart from its content. -/
def tag : Node → Tag
  | .leaf tag _ => tag
  | .branch tag _ => tag

/-- The same content under another tag. -/
def setTag (tag : Tag) : Node → Node
  | .leaf _ text => .leaf tag text
  | .branch _ children => .branch tag children

/-- The structural type of the node. -/
def kind (n : Node) : String :=
  n.tag.kind

/-- Whether the node is a block. -/
def isBlock (n : Node) : Bool :=
  !n.tag.inline

/-- The value of an attribute, if it is set. -/
def attr? (n : Node) (name : String) : Option String :=
  n.tag.attrs[name]?

/-- The node with an attribute set to `value`. -/
def setAttr (n : Node) (name value : String) : Node :=
  n.setTag { n.tag with attrs := n.tag.attrs.insert name value }

/-- The child nodes; a leaf has none. -/
def children : Node → List Node
  | .leaf _ _ => []
  | .branch _ children => children

/-! ### Induction -/

/-- What holds of every leaf, and of every branch of whose children it holds, holds of every
    node. -/
theorem induct {P : Node → Prop} (leaf : ∀ tag text, P (.leaf tag text))
    (branch : ∀ tag children, (∀ c ∈ children, P c) → P (.branch tag children)) : ∀ n, P n
  | .leaf tag text => leaf tag text
  | .branch tag children => branch tag children fun c _ => induct leaf branch c

/-! ### Size -/

mutual

/-- The number of positions in the content of the node. -/
def contentSize : Node → Nat
  | .leaf _ text => text.utf8ByteSize
  | .branch _ children => sizeAll children

/-- The number of positions that consecutive nodes occupy, boundaries included. -/
def sizeAll : List Node → Nat
  | [] => 0
  | n :: ns => (n.contentSize + 2) + sizeAll ns

end

/-- The number of positions the node occupies, its two boundaries included. -/
def size (n : Node) : Nat :=
  n.contentSize + 2

/-- Consecutive nodes take the room of each of them. -/
theorem sizeAll_eq_extent (ns : List Node) : sizeAll ns = extent size ns := by
  induction ns with
  | nil => simp [sizeAll]
  | cons n ns ih => simp [sizeAll, size, ih]

@[simp] theorem contentSize_leaf (tag : Tag) (text : String) :
    (leaf tag text).contentSize = text.utf8ByteSize := by
  simp [contentSize]

/-- The content of a branch takes the room of its children. -/
@[simp] theorem contentSize_branch (tag : Tag) (children : List Node) :
    (branch tag children).contentSize = extent size children := by
  simp [contentSize, sizeAll_eq_extent]

theorem size_eq (n : Node) : n.size = n.contentSize + 2 := rfl

/-- Every node takes room, even an empty one. -/
theorem size_pos (n : Node) : 0 < n.size := by
  simp [size]

/-! ### Common nodes -/

/-- The root of a document that holds `children`. -/
def doc (children : List Node) : Node :=
  .branch { kind := "doc" } children

/-- The root of a document whose content is plain text. -/
def textDoc (text : String) : Node :=
  .leaf { kind := "doc" } text

/-- A block of code whose `params` attribute names the language. -/
def codeBlock (params code : String) : Node :=
  .leaf { kind := "code_block", attrs := (∅ : Attributes).insert "params" params } code

/-- A paragraph of plain text. -/
def paragraph (text : String) : Node :=
  .leaf { kind := "paragraph" } text

end Node

end CodeOverlay
