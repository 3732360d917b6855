import CodeOverlay.Document.Node

namespace CodeOverlay

/-!
# Replacing a range of content

A range of positions is replaced in the deepest node that strictly encloses it.  There the
range has to start and end between two items of the content, and what is put in has to be
of the same sort as the content: text for a leaf, nodes for a branch.

* `Replacement` — what is put in the place of a range;
* `EditError` — why a replacement is refused;
* `Node.replace` — the node with a range of its content replaced.
-/

/-- What is put in the place of a range. -/
inductive Replacement where
  /-- Nothing: the range is deleted. -/
  | empty
  /-- Text, for the content of a leaf. -/
  | text (inserted : String)
  /-- Nodes, for the content of a branch. -/
  | nodes (inserted : List Node)
deriving DecidableEq

namespace Replacement

/-- The number of positions taken by what is put in. -/
def size : Replacement → Nat
  | .empty => 0
  | .text inserted => inserted.utf8ByteSize
  | .nodes inserted => extent Node.size inserted

/-- The characters that are put into a text, unless nodes are to be put in. -/
def chars? : Replacement → Option (List Char)
  | .empty => some []
  | .text inserted => some inserted.toList
  | .nodes _ => none

/-- The nodes that are put among children, unless text is to be put in. -/
def nodes? : Replacement → Option (List Node)
  | .empty => some []
  | .text _ => none
  | .nodes inserted => some inserted

end Replacement

/-- Why a replacement is refused. -/
inductive EditError where
  /-- The range is reversed or ends after the content, which has the given size. -/
  | outside (start stop size : Nat)
  /-- The position is not between two children. -/
  | insideNode (pos : Nat)
  /-- The position is inside a character. -/
  | insideChar (pos : Nat)
  /-- What is put in is of another sort than the content at the position. -/
  | wrongSort (pos : Nat)
deriving DecidableEq, Repr

/-- The text shown for a refused replacement. -/
def EditError.message : EditError → String
  | .outside start stop size => s!"range {start}..{stop} is outside content of size {size}"
  | .insideNode pos => s!"position {pos} is not a node boundary"
  | .insideChar pos => s!"position {pos} is not on a character boundary"
  | .wrongSort pos => s!"slice does not fit the content at position {pos}"

namespace Node

mutual

/-- The node with the range from `start` to `stop` of its content replaced. -/
def replace (new : Replacement) : Node → Nat → Nat → Except EditError Node
  | .leaf tag text, start, stop =>
    if stop < start ∨ text.utf8ByteSize < stop then
      .error (.outside start stop text.utf8ByteSize)
    else
      match new.chars? with
      | none => .error (.wrongSort start)
      | some inserted =>
        (splice Char.utf8Size .insideChar text.toList inserted start stop).map fun chars =>
          .leaf tag (String.ofList chars)
  | .branch tag children, start, stop =>
    if stop < start ∨ sizeAll children < stop then
      .error (.outside start stop (sizeAll children))
    else
      match replaceWithin new children start stop with
      | some result => result.map (.branch tag)
      | none =>
        match new.nodes? with
        | none => .error (.wrongSort start)
        | some inserted =>
          (splice size .insideNode children inserted start stop).map (.branch tag)

/-- Replaces a range inside the one of several consecutive nodes that strictly encloses it,
    or answers `none` if there is no such node.  The range is counted from the first. -/
def replaceWithin (new : Replacement) :
    List Node → Nat → Nat → Option (Except EditError (List Node))
  | [], _, _ => none
  | n :: ns, start, stop =>
    if 0 < start ∧ stop < n.size then
      some ((replace new n (start - 1) (stop - 1)).map (· :: ns))
    else
      (replaceWithin new ns (start - n.size) (stop - n.size)).map (·.map (n :: ·))

end

end Node

end CodeOverlay
