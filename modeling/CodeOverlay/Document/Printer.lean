import CodeOverlay.Document.Node
import CodeOverlay.Text.Description

namespace CodeOverlay.Node

/-!
# Outlines of nodes

* `Node.describe` — kind, attributes if there are any, and content of a node.
-/

open Text (Description)

/-- The outline of attributes: nothing if there are none, or else a table. -/
def describeAttributes (attrs : Attributes) : List (String × Description) :=
  if attrs.isEmpty then []
  else [("attrs", .table (attrs.toList.map fun (name, value) => (name, .text value)))]

mutual

/-- The outline of a node. -/
def describe : Node → Description
  | .leaf tag text =>
    .record "Node"
      (("type", .text tag.kind) :: describeAttributes tag.attrs ++ [("text", .text text)])
  | .branch tag children =>
    .record "Node"
      (("type", .text tag.kind) :: describeAttributes tag.attrs ++
        [("children", .list (describeAll children))])

/-- The outlines of consecutive nodes. -/
def describeAll : List Node → List Description
  | [] => []
  | n :: ns => describe n :: describeAll ns

end

end CodeOverlay.Node
