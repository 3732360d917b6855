import Std.Data.ExtTreeMap
import CodeOverlay.Overlay.Render

namespace CodeOverlay

/-!
# Renderings kept by position

A cache keeps, for positions of a document, the node that was there when it was highlighted
and what came of it.  After a change an entry goes where its node went, and it is kept only if
the same node is there.  If the node is still of the same kind but has other content, its tree
is left behind as a *seed*, from which the next parse of the node can start.

* `Entry`, `Cache` — an entry, and entries and seeds by position;
* `Cache.get?`, `Cache.set`, `Cache.remove`, `Cache.replace` — single entries;
* `Cache.Fate` — what a change makes of an entry;
* `Cache.carry` — the cache after a change.

The root of a document has no position and so never an entry.
-/

/-- A node with what is kept of its rendering. -/
structure Entry where
  /-- The node that was rendered. -/
  node : Node
  /-- What is kept. -/
  kept : Kept
deriving DecidableEq

/-- Renderings kept by position. -/
@[ext]
structure Cache where
  /-- The entries by the positions of their nodes. -/
  entries : Std.ExtTreeMap Nat Entry := ∅
  /-- Trees from which the next parse of the node at a position can start. -/
  seeds : Std.ExtTreeMap Nat SyntaxTree := ∅
deriving DecidableEq

namespace Cache

/-- The cache without any entry. -/
def empty : Cache := {}

/-! ### Single entries -/

/-- The entry of the node at `pos`. -/
def get? (cache : Cache) (pos : Spot) : Option Entry :=
  pos.offset?.bind (cache.entries[·]?)

/-- The cache with an entry for the node at `pos`, in the place of an earlier one. -/
def set (cache : Cache) (pos : Spot) (entry : Entry) : Cache :=
  match pos.offset? with
  | none => cache
  | some offset => { cache with entries := cache.entries.insert offset entry }

/-- Below the root, an entry that is put in a cache is at its position afterwards. -/
theorem set_entries (cache : Cache) (pos : Spot) (entry : Entry) (q : Nat) :
    (cache.set pos entry).entries[q]? =
      if pos = .inner q then some entry else cache.entries[q]? := by
  cases pos with
  | root => simp [set, Spot.offset?]
  | inner p => simp [set, Spot.offset?, Std.ExtTreeMap.getElem?_insert]

/-- The cache without an entry for the node at `pos`. -/
def remove (cache : Cache) (pos : Spot) : Cache :=
  match pos.offset? with
  | none => cache
  | some offset => { cache with entries := cache.entries.erase offset }

/-- The cache with the entry at `old` removed and another one put at `new`. -/
def replace (cache : Cache) (old new : Spot) (entry : Entry) : Cache :=
  (cache.remove old).set new entry

/-- The seed for the node at `pos`. -/
def seed? (cache : Cache) (pos : Spot) : Option SyntaxTree :=
  pos.offset?.bind (cache.seeds[·]?)

/-- The cache without seeds. -/
def dropSeeds (cache : Cache) : Cache :=
  { cache with seeds := ∅ }

/-- The positions that have an entry, in ascending order. -/
def positions (cache : Cache) : List Nat :=
  cache.entries.keys

/-! ### After a change -/

/-- What a change makes of an entry. -/
inductive Fate where
  /-- The same node is now at `pos`, and `entry` is its entry there. -/
  | kept (pos : Nat) (entry : Entry)
  /-- A node of the same kind with other content is now at `pos`, and `tree` is a seed for
      it. -/
  | seed (pos : Nat) (tree : SyntaxTree)
  /-- Nothing is left of the entry. -/
  | dropped
deriving DecidableEq

variable {μ : Type} [Carrier μ]

/-- What a change that led to `doc` makes of the entry at `pos`.  The strokes kept with the entry are
    positions of the document before the change, and what follows them are positions of `doc`. -/
def fate (carrier : μ) (doc : Node) (pos : Nat) (entry : Entry) : Fate :=
  let landing := Carrier.land carrier pos .right
  match if landing.deleted then none else doc.nodeAt? landing.pos with
  | none => .dropped
  | some node =>
    if node = entry.node then
      .kept landing.pos { entry with kept := entry.kept.follow pos landing.pos }
    else if node.kind = entry.node.kind then
      match entry.kept.tree with
      | none => .dropped
      | some tree => .seed landing.pos (tree.seedFor node.text)
    else .dropped

/-- The cache with what became of one more entry.  What arrives later takes the place. -/
def receive (cache : Cache) : Fate → Cache
  | .kept pos entry => { cache with entries := cache.entries.insert pos entry }
  | .seed pos tree => { cache with seeds := cache.seeds.insert pos tree }
  | .dropped => cache

/-- The cache with a seed that was not yet used and stood at `pos` before the change.  It goes
    along with the position, but it does not take the place of another seed. -/
def receiveSeed (carrier : μ) (cache : Cache) (pos : Nat) (tree : SyntaxTree) : Cache :=
  let landing := Carrier.land carrier pos .right
  if landing.deleted then cache
  else { cache with seeds := cache.seeds.insertIfNew landing.pos tree }

/-- What a change that led to `doc` makes of entries and seeds visited in the given order. -/
def carryInOrder (entries : List (Nat × Entry)) (seeds : List (Nat × SyntaxTree))
    (carrier : μ) (doc : Node) : Cache :=
  seeds.foldl (fun cache (pos, tree) => cache.receiveSeed carrier pos tree)
    (entries.foldl (fun cache (pos, entry) => cache.receive (fate carrier doc pos entry)) empty)

/-- The cache after a change that led to `doc`. -/
def carry (cache : Cache) (carrier : μ) (doc : Node) : Cache :=
  carryInOrder cache.entries.toList cache.seeds.toList carrier doc

end Cache

end CodeOverlay
