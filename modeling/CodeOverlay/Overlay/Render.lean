import CodeOverlay.Overlay.Decorations
import CodeOverlay.Overlay.Target
import CodeOverlay.Syntax.Parser

namespace CodeOverlay

/-!
# Highlighting one node

* `Rendering` — the strokes of a node and the tree they come from;
* `render` — parses the text of a node and paints it at the place of the node;
* `Kept`, `KeepPolicy` — what of a rendering is kept for later.
-/

/-- What comes of highlighting a node. -/
structure Rendering where
  /-- The strokes, in document positions. -/
  strokes : List Stroke
  /-- The tree of the text of the node. -/
  tree : SyntaxTree
deriving DecidableEq

/-- Highlights the text of a node that stands at `pos`, starting from an earlier tree if there
    is one. -/
def render (styling : Styling) (parser : Parser) (text : String) (pos : Spot)
    (prior : Option SyntaxTree) : Except ParserError Rendering :=
  (parser.parse text prior).map fun tree =>
    { strokes := (tree.strokes styling).map (·.shift pos.origin), tree }

/-! ### What is kept -/

/-- What is kept of a rendering. -/
structure Kept where
  /-- The tree of the text. -/
  tree : Option SyntaxTree := none
  /-- The strokes, in document positions. -/
  strokes : Option (List Stroke) := none
deriving DecidableEq

/-- What is kept after the node moved from `old` to `new` with the same content.  The strokes go
    along, while the tree counts from the start of the node and stays. -/
def Kept.follow (old new : Nat) (k : Kept) : Kept :=
  { k with strokes := k.strokes.map fun strokes => strokes.map (·.follow old new) }

/-- Which parts of a rendering are kept. -/
inductive KeepPolicy where
  /-- Only the tree: nodes are painted anew each time, with little parsing. -/
  | tree
  /-- Only the strokes: nodes that did not change are left alone, others parsed from scratch. -/
  | strokes
  /-- Both. -/
  | both
deriving DecidableEq, Repr

namespace KeepPolicy

/-- The parts of a rendering that are kept. -/
def keep (r : Rendering) : KeepPolicy → Kept
  | .tree => { tree := some r.tree }
  | .strokes => { strokes := some r.strokes }
  | .both => { tree := some r.tree, strokes := some r.strokes }

/-- The outline of a policy. -/
def describe : KeepPolicy → Text.Description
  | .tree => .word "ParseState"
  | .strokes => .word "Ranges"
  | .both => .word "Both"

end KeepPolicy

end CodeOverlay
