import Std.Data.ExtTreeSet
import CodeOverlay.Document.Traversal

namespace CodeOverlay

/-!
# What is highlighted

The nodes to highlight are the blocks of certain kinds.  Such a block is highlighted as a
whole, so nothing is sought below it.  The root is highlighted only if the kind `"doc"` is
asked for.

* `Spot` — where a node to highlight stands;
* `Spot.origin` — the position at which its content starts;
* `Node.targets` — the nodes of a document to highlight, in document order.
-/

/-- Kinds of nodes. -/
abbrev Kinds := Std.ExtTreeSet String

/-- Where a node to highlight stands. -/
inductive Spot where
  /-- It is the root of the document, which has no position. -/
  | root
  /-- It starts at a position. -/
  | inner (pos : Nat)
deriving DecidableEq, Repr

namespace Spot

/-- The position of the node; the root has none. -/
def offset? : Spot → Option Nat
  | .root => none
  | .inner pos => some pos

/-- The position at which the content of the node starts: for a node below the root, one
    after its opening boundary. -/
def origin : Spot → Nat
  | .root => 0
  | .inner pos => pos + 1

end Spot

/-- A node to highlight. -/
structure Target where
  /-- The node. -/
  node : Node
  /-- Where it stands. -/
  pos : Spot
deriving DecidableEq

/-- The kind by which the root of a document is asked for. -/
def rootKind : String := "doc"

namespace Node

/-- Whether the node is a block of one of the kinds. -/
def isTarget (kinds : Kinds) (n : Node) : Bool :=
  n.isBlock && kinds.contains n.kind

/-- The blocks of the kinds that stand below the root but not below another such block. -/
def innerTargets (kinds : Kinds) (n : Node) : List Placed :=
  (n.descendants fun m _ => !m.isTarget kinds).filter (·.node.isTarget kinds)

/-- The nodes to highlight, in document order: first the root, if it is asked for, then the
    outermost blocks of the kinds. -/
def targets (kinds : Kinds) (n : Node) : List Target :=
  (if kinds.contains rootKind then [⟨n, .root⟩] else []) ++
    (n.innerTargets kinds).map fun p => ⟨p.node, .inner p.pos⟩

end Node

end CodeOverlay
