import CodeOverlay.Document.Node

namespace CodeOverlay

/-!
# Nodes and their positions

The nodes below a root are found in two ways: by walking the tree in document order, which
lists them with the positions at which they start, and by descending to a given position.

* `Node.descendants` — the walk; a test decides below which nodes it goes on;
* `Node.nodeAt?` — the node that starts at a position;
* `Node.text` — the text of all leaves, in document order.

Positions are counted from the start of the content of the node asked.
-/

/-- A node together with the position at which it starts. -/
structure Placed where
  /-- The node. -/
  node : Node
  /-- The position of its opening boundary. -/
  pos : Nat
deriving DecidableEq

namespace Node

/-! ### Walking -/

mutual

/-- The nodes below a node whose content starts at `base`. -/
def walk (descend : Node → Nat → Bool) (base : Nat) : Node → List Placed
  | .leaf _ _ => []
  | .branch _ children => walkAll descend base children

/-- Consecutive nodes of which the first starts at `pos`, each followed by the nodes
    below it if `descend` says so. -/
def walkAll (descend : Node → Nat → Bool) (pos : Nat) : List Node → List Placed
  | [] => []
  | n :: ns =>
    ⟨n, pos⟩ :: ((if descend n pos then walk descend (pos + 1) n else []) ++
      walkAll descend (pos + n.size) ns)

end

/-- The nodes below the root, in document order.  Nodes for which `descend` fails are
    listed, but not the nodes below them. -/
def descendants (n : Node) (descend : Node → Nat → Bool) : List Placed :=
  n.walk descend 0

/-! ### Looking up -/

mutual

/-- The node below this one that starts at `pos`, or `none` if no node starts there. -/
def nodeAt? : Node → Nat → Option Node
  | .leaf _ _, _ => none
  | .branch _ children, pos => nodeAtAll? children pos

/-- The node that starts at `pos` among consecutive nodes and the nodes below them. -/
def nodeAtAll? : List Node → Nat → Option Node
  | [], _ => none
  | n :: ns, pos =>
    if pos = 0 then some n
    else if pos < n.size then nodeAt? n (pos - 1)
    else nodeAtAll? ns (pos - n.size)

end

/-! ### Text -/

mutual

/-- The text of the node: that of a leaf, or that of all children in order. -/
def text : Node → String
  | .leaf _ text => text
  | .branch _ children => textAll children

/-- The text of consecutive nodes. -/
def textAll : List Node → String
  | [] => ""
  | n :: ns => text n ++ textAll ns

end

end Node

end CodeOverlay
