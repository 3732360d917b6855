import CodeOverlay.Text.Description
import CodeOverlay.Text.Difference

namespace CodeOverlay

/-!
# Syntax trees

The product of parsing a text is kept as a whole, so that it can be painted, compared and
used as the starting point of the next parse.

* `SyntaxNode` — a node of a grammar's tree, with the bytes it covers;
* `SyntaxNode.hosts` — the outermost nodes of some kind;
* `Layer` — what one grammar made of a text;
* `SyntaxTree` — the layers of a text together with the text itself;
* `SyntaxTree.seedFor` — the tree as a starting point for parsing another text.
-/

/-- A range of bytes of a text. -/
structure ByteRange where
  /-- The offset of the first byte. -/
  start : Nat
  /-- The offset after the last byte. -/
  stop : Nat
deriving DecidableEq, Repr

/-! ### Nodes -/

/-- A node of a syntax tree. -/
inductive SyntaxNode where
  /-- A node of some kind over a range of bytes, with its children in order. -/
  | node (kind : String) (range : ByteRange) (children : List SyntaxNode)

namespace SyntaxNode

mutual

/-- Decides whether two syntax nodes are equal. -/
protected def decEq : (m n : SyntaxNode) → Decidable (m = n)
  | .node k r ms, .node l s ns =>
    match SyntaxNode.decEqAll ms ns with
    | isTrue hc => if h : k = l ∧ r = s then isTrue (by rw [h.1, h.2, hc])
        else isFalse (by simp only [node.injEq]; exact fun e => h ⟨e.1, e.2.1⟩)
    | isFalse hc => isFalse (by simp [hc])

/-- Decides whether two lists of syntax nodes are equal. -/
protected def decEqAll : (ms ns : List SyntaxNode) → Decidable (ms = ns)
  | [], [] => isTrue rfl
  | m :: ms, n :: ns =>
    match SyntaxNode.decEq m n, SyntaxNode.decEqAll ms ns with
    | isTrue h, isTrue hs => isTrue (by rw [h, hs])
    | isFalse h, _ => isFalse (by simp [h])
    | _, isFalse hs => isFalse (by simp [hs])
  | [], _ :: _ => isFalse nofun
  | _ :: _, [] => isFalse nofun

end

instance : DecidableEq SyntaxNode := SyntaxNode.decEq

/-- The kind of the node. -/
def kind : SyntaxNode → String
  | .node kind _ _ => kind

/-- The bytes that the node covers. -/
def range : SyntaxNode → ByteRange
  | .node _ range _ => range

/-- The children of the node, in order. -/
def children : SyntaxNode → List SyntaxNode
  | .node _ _ children => children

mutual

/-- The ranges of the outermost nodes of the kind `host`, in order.  Nothing is sought below
    such a node. -/
def hosts (host : String) : SyntaxNode → List ByteRange
  | .node kind range children => if kind = host then [range] else hostsAll host children

/-- The ranges of the outermost nodes of the kind `host` in consecutive trees. -/
def hostsAll (host : String) : List SyntaxNode → List ByteRange
  | [] => []
  | n :: ns => hosts host n ++ hostsAll host ns

end

end SyntaxNode

/-! ### Layers -/

/-- A range of bytes with the name that a grammar's query gives it. -/
structure Capture where
  /-- The offset of the first byte. -/
  start : Nat
  /-- The offset after the last byte. -/
  stop : Nat
  /-- The name, such as `"keyword"` or `"string.escape"`. -/
  name : String
deriving DecidableEq, Repr

/-- What one grammar made of a text. -/
structure Layer where
  /-- The root of the tree. -/
  root : SyntaxNode
  /-- The tree written as nested parentheses.  Two trees count as the same if they are
      written the same. -/
  shape : String
  /-- The captures in the order in which the grammar's query yields them. -/
  captures : List Capture
  /-- The edits that the tree has been told about since it was parsed, the first one
      first. -/
  edits : List Text.Difference := []
deriving DecidableEq

/-- The layer, told about one more edit. -/
def Layer.edit (layer : Layer) (edit : Text.Difference) : Layer :=
  { layer with edits := layer.edits ++ [edit] }

/-! ### Trees -/

/-- The product of parsing a text. -/
structure SyntaxTree where
  /-- The language of the parser. -/
  language : String
  /-- The text that was parsed, or the text that it was made a seed for. -/
  source : String
  /-- The layer that covers the whole text. -/
  primary : Layer
  /-- The layer that covers certain nodes of the primary one, if there are any. -/
  inline : Option Layer := none
deriving DecidableEq

namespace SyntaxTree

/-- The layers, the primary one first. -/
def layers (tree : SyntaxTree) : List Layer :=
  tree.primary :: tree.inline.toList

/-- Whether there is an inline layer. -/
def hasInline (tree : SyntaxTree) : Bool :=
  tree.inline.isSome

/-- The tree as a starting point for parsing `source`: each layer is told about the region
    that changed. -/
def seedFor (tree : SyntaxTree) (source : String) : SyntaxTree :=
  match Text.Difference.of? tree.source source with
  | none => { tree with source }
  | some edit =>
    { tree with
      source
      primary := tree.primary.edit edit
      inline := tree.inline.map (·.edit edit) }

@[simp] theorem seedFor_source (tree : SyntaxTree) (source : String) :
    (tree.seedFor source).source = source := by
  unfold seedFor
  split <;> rfl

/-- Whether two trees are of the same language and text and their layers have the same
    shapes. -/
def sameAs (s t : SyntaxTree) : Bool :=
  s.language == t.language && s.source == t.source && s.primary.shape == t.primary.shape &&
    s.inline.map (·.shape) == t.inline.map (·.shape)

/-- The outline of a tree. -/
def describe (tree : SyntaxTree) : Text.Description :=
  .record "SyntaxTree"
    [("language", .text tree.language), ("source", .text tree.source),
     ("tree", .text tree.primary.shape), ("inline", .ofBool tree.hasInline)]

end SyntaxTree

end CodeOverlay
