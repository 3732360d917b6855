import CodeOverlay.Overlay.Cache
import CodeOverlay.Overlay.ParserTable

namespace CodeOverlay

/-!
# Highlighting a document

A pass goes through the nodes of a document that are to be highlighted.  For each it decides,
possibly asking the host, whether the strokes from an earlier pass do or the node is rendered
again, starting from an earlier tree or from scratch.

* `Overlay` — what is highlighted, and how;
* `Event` — what others can observe of a pass: parses and calls to the host;
* `Overlay.visit` — one node;
* `Overlay.highlight` — all nodes, with the decorations and the cache that result.
-/

/-- What is done with a node. -/
inductive Decision where
  /-- It is rendered, starting from an earlier tree if there is one. -/
  | render
  /-- It is rendered from scratch. -/
  | renderAfresh
  /-- It is not rendered, and the given strokes are used. -/
  | use (strokes : List Stroke)
deriving DecidableEq

/-- What is highlighted in a document, and how. -/
structure Overlay where
  /-- The parsers. -/
  parsers : ParserTable
  /-- The kinds of nodes that are highlighted. -/
  kinds : Kinds := (∅ : Kinds).insert "code_block"
  /-- How the language of a node is found.  Without a rule nothing is highlighted. -/
  rule : Option LanguageRule := some .standard
  /-- The styles of captures. -/
  styling : Styling := StyleTable.standard.styleOf?
  /-- What is kept for later passes. -/
  policy : KeepPolicy := .both
  /-- Asks the host what to do with a node, given what is kept of the same node. -/
  ask : Option (Node → Spot → Option Kept → Decision) := none
  /-- Whether the host is told of each rendered node. -/
  tell : Bool := false

/-- What others can observe of a pass. -/
inductive Event where
  /-- A parser was called. -/
  | parse (language text : String) (prior : Option SyntaxTree)
  /-- The host was asked what to do with a node. -/
  | asked (target : Target) (kept : Option Kept)
  /-- The host was told of a rendered node. -/
  | told (target : Target) (strokes : List Stroke)
deriving DecidableEq

/-- What came of a node. -/
inductive Outcome where
  /-- Strokes were at hand. -/
  | reused (strokes : List Stroke)
  /-- No parser is for the language of the node. -/
  | noParser
  /-- The node was rendered. -/
  | rendered (rendering : Rendering)
deriving DecidableEq

/-- The strokes that the node contributes. -/
def Outcome.strokes : Outcome → List Stroke
  | .reused strokes => strokes
  | .noParser => []
  | .rendered rendering => rendering.strokes

/-- The cache after the node: a rendering is kept in it. -/
def Outcome.update (policy : KeepPolicy) (target : Target) (cache : Cache) : Outcome → Cache
  | .rendered rendering => cache.set target.pos ⟨target.node, policy.keep rendering⟩
  | _ => cache

/-- The decorations of a document, and the cache with which its next version is highlighted. -/
structure OverlayState where
  /-- What is kept of the renderings. -/
  cache : Cache
  /-- The decorations. -/
  decorations : Decorations
deriving DecidableEq

namespace Overlay

/-! ### One node -/

/-- What is kept of a node.  An entry of another node does not count. -/
def kept? (cache : Cache) (target : Target) : Option Kept :=
  ((cache.get? target.pos).filter (·.node = target.node)).map (·.kept)

/-- What is done with a node of which `kept` is kept.  Unless the host decides, strokes at hand
    are used. -/
def decision (o : Overlay) (target : Target) (kept : Option Kept) : Decision :=
  match o.ask with
  | some ask => ask target.node target.pos kept
  | none =>
    match kept.bind (·.strokes) with
    | some strokes => .use strokes
    | none => .render

/-- The calls to the host before a node. -/
def preEvents (o : Overlay) (target : Target) (kept : Option Kept) : List Event :=
  if o.ask.isSome then [.asked target kept] else []

/-- The calls to the host after a node. -/
def postEvents (o : Overlay) (target : Target) (strokes : List Stroke) : List Event :=
  if o.tell then [.told target strokes] else []

/-- Renders a node, if there is a parser for its language. -/
def renderTarget (o : Overlay) (rule : LanguageRule) (target : Target)
    (prior : Option SyntaxTree) : List Event × Except ParserError Outcome :=
  match o.parsers.find? (rule.key target.node) with
  | none => ([], .ok .noParser)
  | some parser =>
    let text := target.node.text
    let call := Event.parse parser.language text prior
    match render o.styling parser text target.pos prior with
    | .error e => ([call], .error e)
    | .ok rendering =>
      (call :: o.postEvents target rendering.strokes, .ok (.rendered rendering))

/-- Handles one node.  It is rendered from the kept tree, or else from a seed. -/
def visit (o : Overlay) (rule : LanguageRule) (cache : Cache) (target : Target) :
    List Event × Except ParserError Outcome :=
  let kept := kept? cache target
  let (events, result) :=
    match o.decision target kept with
    | .use strokes => ([], .ok (.reused strokes))
    | .renderAfresh => o.renderTarget rule target none
    | .render => o.renderTarget rule target (kept.bind (·.tree) <|> cache.seed? target.pos)
  (o.preEvents target kept ++ events, result)

/-! ### All nodes -/

/-- Handles consecutive nodes, each with the cache that those before it left.  The first parse
    that fails ends it. -/
def visitAll (o : Overlay) (rule : LanguageRule) (cache : Cache) :
    List Target → List Event × Except ParserError (List Stroke × Cache)
  | [] => ([], .ok ([], cache))
  | target :: targets =>
    match o.visit rule cache target with
    | (events, .error e) => (events, .error e)
    | (events, .ok outcome) =>
      let (later, result) := o.visitAll rule (outcome.update o.policy target cache) targets
      (events ++ later, result.map fun (strokes, final) => (outcome.strokes ++ strokes, final))

/-- Highlights a document, with what is kept of earlier versions of it.  Without a document,
    its content, a rule or kinds to highlight there is nothing to do; otherwise all seeds are
    used up. -/
def highlight (o : Overlay) (doc : Option Node) (cache : Cache) :
    List Event × Except ParserError OverlayState :=
  match doc, o.rule with
  | some doc, some rule =>
    if doc.contentSize = 0 ∨ o.kinds.isEmpty then ([], .ok ⟨cache, .empty⟩)
    else
      let (events, result) := o.visitAll rule cache (doc.targets o.kinds)
      (events, result.map fun (strokes, final) => ⟨final.dropSeeds, .ofStrokes strokes⟩)
  | _, _ => ([], .ok ⟨cache, .empty⟩)

/-- The outline of an overlay. -/
def describe (o : Overlay) : Text.Description :=
  .record "HighlightCoordinator"
    [("parsers", o.parsers.describe),
     ("target_types", .set (o.kinds.toList.map .text)),
     ("resolver", .ofOption (o.rule.map (·.describe))),
     ("policy", o.policy.describe),
     ("pre_render", .ofBool o.ask.isSome),
     ("post_render", .ofBool o.tell)]

end Overlay

end CodeOverlay
