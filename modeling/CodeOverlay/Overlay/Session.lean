import CodeOverlay.Overlay.Pass

namespace CodeOverlay

/-!
# Following a document

* `Overlay.start` — the state for the first version of a document;
* `Overlay.proceed` — the state after a change, given what of the cache is still valid;
* `Overlay.advance` — the state after a change.

A state is a value: a change leads to a new state and leaves the old one as it is.
-/

namespace Overlay

/-- The state for the first version of a document. -/
def start (o : Overlay) (doc : Node) : List Event × Except ParserError OverlayState :=
  o.highlight (some doc) .empty

/-- The state after a change that led to `doc` and from which `cache` was saved.  Unless the
    document changed, its decorations only move with the positions; otherwise they are computed
    anew. -/
def proceed {μ : Type} [Carrier μ] (o : Overlay) (decorations : Decorations) (cache : Cache)
    (carrier : μ) (doc : Node) : List Event × Except ParserError OverlayState :=
  if Carrier.changesDocument carrier then o.highlight (some doc) cache
  else ([], .ok ⟨cache, decorations.carry carrier⟩)

/-- The state after a change that led to `doc`. -/
def advance {μ : Type} [Carrier μ] (o : Overlay) (state : OverlayState) (carrier : μ)
    (doc : Node) : List Event × Except ParserError OverlayState :=
  o.proceed state.decorations (state.cache.carry carrier doc) carrier doc

/-- The outline of an overlay that follows a document. -/
def describeSession (o : Overlay) : Text.Description :=
  .record "HighlightPlugin" [("coordinator", o.describe)]

end Overlay

end CodeOverlay
