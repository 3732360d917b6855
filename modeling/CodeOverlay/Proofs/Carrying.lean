import CodeOverlay.Overlay.Cache

namespace CodeOverlay

/-!
# What a change leaves of a cache

The entries of a cache are visited one by one after a change, and nothing is promised of the
order.  This module says what the cache afterwards can hold and where that came from.

* `Cache.fate_eq_kept_iff`, `Cache.fate_eq_seed_iff` — what becomes of a single entry;
* `Cache.Carried` — what a change may make of a cache, its parts visited in some order;
* `Cache.carryInOrder_entries`, `Cache.carryInOrder_seeds` — what is at a position afterwards, given
  the order;
* `Carried.exists_of_entry` — each entry afterwards is an earlier one whose node is still there;
* `Carried.exists_of_seed` — each seed afterwards comes from an entry or is an earlier seed;
* `Carried.eq_empty` — a change to a document without nodes leaves nothing of the cache;
* `Carried.eq_of_kept` — a change that keeps each entry as it is keeps the cache.
-/

/-! ### Staying in place -/

theorem Stroke.follow_self (pos : Nat) (s : Stroke) : s.follow pos pos = s := by
  simp [Stroke.follow]

/-- What is kept of a node that stays in its place stays as it is. -/
theorem Kept.follow_self (pos : Nat) (k : Kept) : k.follow pos pos = k := by
  have hstrokes : (fun strokes : List Stroke => strokes.map (·.follow pos pos)) = id := by
    funext strokes
    simp [Stroke.follow_self]
  rw [Kept.follow, hstrokes, Option.map_id_fun, id]

namespace Cache

variable {μ : Type} [Carrier μ] {carrier : μ} {doc : Node} {p q : Nat} {e e' : Entry}

/-! ### One entry -/

/-- **Kept entries.**  An entry is kept where its position leads, provided that the position is
    not deleted and the same node is there. -/
theorem fate_eq_kept_iff :
    fate carrier doc p e = .kept q e' ↔
      Carrier.land carrier p .right = ⟨q, false⟩ ∧ doc.nodeAt? q = some e.node ∧
        e' = { e with kept := e.kept.follow p q } := by
  unfold fate
  rcases Carrier.land carrier p .right with ⟨pos, deleted⟩
  cases deleted with
  | true => simp
  | false =>
    simp only [Bool.false_eq_true, if_false, Landing.mk.injEq, and_true]
    constructor
    · intro h
      split at h
      · cases h
      rename_i node hnode
      by_cases heq : node = e.node
      · rw [if_pos heq] at h
        cases h
        exact ⟨rfl, heq ▸ hnode, rfl⟩
      · -- of another node there is a seed at most
        rw [if_neg heq] at h
        split at h
        · split at h <;> cases h
        · cases h
    · rintro ⟨rfl, hnode, rfl⟩
      simp [hnode]

/-- **Seeds.**  The tree of an entry becomes a seed where its position leads, provided that the
    position is not deleted and another node of the same kind is there. -/
theorem fate_eq_seed_iff {tree : SyntaxTree} :
    fate carrier doc p e = .seed q tree ↔
      Carrier.land carrier p .right = ⟨q, false⟩ ∧ ∃ node earlier, doc.nodeAt? q = some node ∧
        node ≠ e.node ∧ node.kind = e.node.kind ∧ e.kept.tree = some earlier ∧
          tree = earlier.seedFor node.text := by
  unfold fate
  rcases Carrier.land carrier p .right with ⟨pos, deleted⟩
  cases deleted with
  | true => simp
  | false =>
    simp only [Bool.false_eq_true, if_false, Landing.mk.injEq, and_true]
    constructor
    · intro h
      split at h
      · cases h
      rename_i node hnode
      by_cases heq : node = e.node
      · rw [if_pos heq] at h
        cases h
      by_cases hkind : node.kind = e.node.kind
      · rw [if_neg heq, if_pos hkind] at h
        cases htree : e.kept.tree with
        | none => simp [htree] at h
        | some earlier =>
          rw [htree] at h
          cases h
          exact ⟨rfl, node, earlier, hnode, heq, hkind, rfl, rfl⟩
      · rw [if_neg heq, if_neg hkind] at h
        cases h
    · rintro ⟨rfl, node, earlier, hnode, hne, hkind, htree, rfl⟩
      simp [hnode, hne, hkind, htree]

/-! ### All entries, in some order -/

/-- What a change that led to `doc` may make of a cache: entries and seeds are visited in some
    order. -/
def Carried (old : Cache) (carrier : μ) (doc : Node) (cache : Cache) : Prop :=
  ∃ entries seeds, entries.Perm old.entries.toList ∧ seeds.Perm old.seeds.toList ∧
    cache = carryInOrder entries seeds carrier doc

theorem carried_carry (old : Cache) (carrier : μ) (doc : Node) :
    Carried old carrier doc (old.carry carrier doc) :=
  ⟨_, _, .refl _, .refl _, rfl⟩

variable {cache old : Cache} {entries : List (Nat × Entry)} {seeds : List (Nat × SyntaxTree)}

section
variable {σ α β : Type} {step : σ → α → σ} {found : α → Option β}

/-- Where each item that is found somewhere takes the place, the last one is there in the end. -/
theorem look_foldl_last (look : σ → Option β)
    (h : ∀ s a, look (step s a) = (found a).or (look s)) (s : σ) (items : List α) :
    look (items.foldl step s) = (items.reverse.findSome? found).or (look s) := by
  induction items generalizing s with
  | nil => rfl
  | cons a items ih =>
    rw [List.foldl_cons, ih, h, ← Option.or_assoc, List.reverse_cons, List.findSome?_append,
      List.findSome?_singleton]

/-- Where only a free place is taken, the first one is there in the end. -/
theorem look_foldl_first (look : σ → Option β)
    (h : ∀ s a, look (step s a) = (look s).or (found a)) (s : σ) (items : List α) :
    look (items.foldl step s) = (look s).or (items.findSome? found) := by
  induction items generalizing s with
  | nil => rw [List.foldl_nil, List.findSome?_nil, Option.or_none]
  | cons a items ih =>
    have hcons : (a :: items).findSome? found = (found a).or (items.findSome? found) := by
      rw [← List.singleton_append, List.findSome?_append, List.findSome?_singleton]
    rw [List.foldl_cons, ih, h, Option.or_assoc, hcons]

end

namespace Fate

/-- The entry that what becomes of an entry puts at a position, if any. -/
def entryAt? (q : Nat) : Fate → Option Entry
  | .kept pos entry => if pos = q then some entry else none
  | _ => none

/-- The seed that what becomes of an entry puts at a position, if any. -/
def seedAt? (q : Nat) : Fate → Option SyntaxTree
  | .seed pos tree => if pos = q then some tree else none
  | _ => none

theorem entryAt?_eq_some_iff {fate : Fate} : fate.entryAt? q = some e ↔ fate = .kept q e := by
  cases fate <;> simp [entryAt?]

theorem seedAt?_eq_some_iff {fate : Fate} {tree : SyntaxTree} :
    fate.seedAt? q = some tree ↔ fate = .seed q tree := by
  cases fate <;> simp [seedAt?]

end Fate

theorem receive_entries (cache : Cache) (fate : Fate) (q : Nat) :
    (cache.receive fate).entries[q]? = (fate.entryAt? q).or cache.entries[q]? := by
  cases fate with
  | kept pos entry =>
    simp only [receive, Fate.entryAt?, Std.ExtTreeMap.getElem?_insert, Nat.compare_eq_eq]
    split <;> rfl
  | seed => rfl
  | dropped => rfl

theorem receive_seeds (cache : Cache) (fate : Fate) (q : Nat) :
    (cache.receive fate).seeds[q]? = (fate.seedAt? q).or cache.seeds[q]? := by
  cases fate with
  | seed pos tree =>
    simp only [receive, Fate.seedAt?, Std.ExtTreeMap.getElem?_insert, Nat.compare_eq_eq]
    split <;> rfl
  | kept => rfl
  | dropped => rfl

/-- The seed that an earlier seed puts at a position, if its own position leads there. -/
def seedFrom? (carrier : μ) (q p : Nat) (tree : SyntaxTree) : Option SyntaxTree :=
  if Carrier.land carrier p .right = ⟨q, false⟩ then some tree else none

theorem seedFrom?_eq_some_iff {tree tree' : SyntaxTree} :
    seedFrom? carrier q p tree = some tree' ↔
      Carrier.land carrier p .right = ⟨q, false⟩ ∧ tree = tree' := by
  unfold seedFrom?
  split <;> simp_all

theorem receiveSeed_entries (tree : SyntaxTree) :
    (cache.receiveSeed carrier p tree).entries = cache.entries := by
  unfold receiveSeed
  dsimp only
  split <;> rfl

/-- An earlier seed takes a free place only. -/
theorem receiveSeed_seeds (cache : Cache) (carrier : μ) (p : Nat) (tree : SyntaxTree) (q : Nat) :
    (cache.receiveSeed carrier p tree).seeds[q]? =
      cache.seeds[q]?.or (seedFrom? carrier q p tree) := by
  unfold receiveSeed seedFrom?
  rcases Carrier.land carrier p .right with ⟨pos, deleted⟩
  cases deleted with
  | true => simp
  | false =>
    simp only [Bool.false_eq_true, if_false, Std.ExtTreeMap.getElem?_insertIfNew,
      Nat.compare_eq_eq, Landing.mk.injEq, and_true]
    by_cases hpos : pos = q
    · subst hpos
      cases h : cache.seeds[pos]? with
      | none => simp [Std.ExtTreeMap.mem_iff_isSome_getElem?, h]
      | some tree' => simp [Std.ExtTreeMap.mem_iff_isSome_getElem?, h]
    · simp [hpos]

/-- What is visited is what is in the map. -/
theorem mem_iff_of_perm {β : Type} {items : List (Nat × β)} {map : Std.ExtTreeMap Nat β}
    (h : items.Perm map.toList) {b : β} : (p, b) ∈ items ↔ map[p]? = some b :=
  h.mem_iff.trans Std.ExtTreeMap.mem_toList_iff_getElem?_eq_some

/-- **The entries afterwards.**  Of those that come to a position, the one visited last is there. -/
theorem carryInOrder_entries (q : Nat) :
    (carryInOrder entries seeds carrier doc).entries[q]? =
      entries.reverse.findSome? fun visited => (fate carrier doc visited.1 visited.2).entryAt? q := by
  have hseeds : ∀ cache : Cache,
      (seeds.foldl (fun cache visited => cache.receiveSeed carrier visited.1 visited.2)
        cache).entries = cache.entries := by
    induction seeds with
    | nil => exact fun _ => rfl
    | cons seed seeds ih =>
      intro cache
      rw [List.foldl_cons, ih, receiveSeed_entries]
  refine (congrArg (·[q]?) (hseeds _)).trans ?_
  refine (look_foldl_last (fun cache : Cache => cache.entries[q]?)
    (fun cache visited => cache.receive_entries (fate carrier doc visited.1 visited.2) q)
    empty entries).trans ?_
  simp [empty]

/-- **The seeds afterwards.**  Of the trees that come to a position, the one visited last is there,
    and if there is none, then of the earlier seeds the one visited first. -/
theorem carryInOrder_seeds (q : Nat) :
    (carryInOrder entries seeds carrier doc).seeds[q]? =
      (entries.reverse.findSome? fun visited =>
          (fate carrier doc visited.1 visited.2).seedAt? q).or
        (seeds.findSome? fun visited => seedFrom? carrier q visited.1 visited.2) := by
  rw [carryInOrder]
  refine (look_foldl_first (fun cache : Cache => cache.seeds[q]?)
    (fun cache visited => cache.receiveSeed_seeds carrier visited.1 visited.2 q) _ seeds).trans ?_
  congr 1
  refine (look_foldl_last (fun cache : Cache => cache.seeds[q]?)
    (fun cache visited => cache.receive_seeds (fate carrier doc visited.1 visited.2) q)
    empty entries).trans ?_
  simp [empty]

/-- **Where entries come from.**  Each entry after a change is an earlier one that was kept. -/
theorem Carried.exists_of_entry (h : Carried old carrier doc cache)
    (he : cache.entries[q]? = some e') :
    ∃ p e, old.entries[p]? = some e ∧ fate carrier doc p e = .kept q e' := by
  obtain ⟨entries, seeds, hentries, -, rfl⟩ := h
  rw [carryInOrder_entries] at he
  obtain ⟨⟨p, e⟩, hmem, hfate⟩ := List.exists_of_findSome?_eq_some he
  exact ⟨p, e, (mem_iff_of_perm hentries).mp (List.mem_reverse.mp hmem),
    Fate.entryAt?_eq_some_iff.mp hfate⟩

/-- **Where seeds come from.**  Each seed after a change is the tree of an earlier entry, or, if no
    such tree comes to its position, an earlier seed that went along with its own position. -/
theorem Carried.exists_of_seed {tree : SyntaxTree} (h : Carried old carrier doc cache)
    (htree : cache.seeds[q]? = some tree) :
    (∃ p e, old.entries[p]? = some e ∧ fate carrier doc p e = .seed q tree) ∨
      (∀ p e tree', old.entries[p]? = some e → fate carrier doc p e ≠ .seed q tree') ∧
      ∃ p, old.seeds[p]? = some tree ∧ Carrier.land carrier p .right = ⟨q, false⟩ := by
  obtain ⟨entries, seeds, hentries, hseeds, rfl⟩ := h
  rw [carryInOrder_seeds, Option.or_eq_some_iff] at htree
  rcases htree with htree | ⟨hnone, htree⟩
  · obtain ⟨⟨p, e⟩, hmem, hfate⟩ := List.exists_of_findSome?_eq_some htree
    exact .inl ⟨p, e, (mem_iff_of_perm hentries).mp (List.mem_reverse.mp hmem),
      Fate.seedAt?_eq_some_iff.mp hfate⟩
  · obtain ⟨⟨p, tree'⟩, hmem, hfrom⟩ := List.exists_of_findSome?_eq_some htree
    obtain ⟨hland, rfl⟩ := seedFrom?_eq_some_iff.mp hfrom
    refine .inr ⟨fun p e tree he hfate => ?_, p, (mem_iff_of_perm hseeds).mp hmem, hland⟩
    have hmissed := List.findSome?_eq_none_iff.mp hnone (p, e)
      (List.mem_reverse.mpr ((mem_iff_of_perm hentries).mpr he))
    cases hmissed.symm.trans (Fate.seedAt?_eq_some_iff.mpr hfate)

/-- If there were no seeds, each seed after a change is the tree of an earlier entry. -/
theorem Carried.exists_entry_of_seed {tree : SyntaxTree} (h : Carried old carrier doc cache)
    (hseeds : old.seeds = ∅) (htree : cache.seeds[q]? = some tree) :
    ∃ p e, old.entries[p]? = some e ∧ fate carrier doc p e = .seed q tree := by
  rcases h.exists_of_seed htree with hentry | ⟨-, p, hold, -⟩
  · exact hentry
  · simp [hseeds] at hold

/-- Where an entry is kept there is an entry, though maybe another one that leads there. -/
theorem Carried.isSome_of_kept (h : Carried old carrier doc cache) (he : old.entries[p]? = some e)
    (hfate : fate carrier doc p e = .kept q e') : cache.entries[q]?.isSome := by
  obtain ⟨entries, seeds, hentries, -, rfl⟩ := h
  rw [carryInOrder_entries, List.findSome?_isSome_iff]
  refine ⟨(p, e), List.mem_reverse.mpr ((mem_iff_of_perm hentries).mpr he), ?_⟩
  exact Option.isSome_of_mem (Fate.entryAt?_eq_some_iff.mpr hfate)

/-- **Nothing is left.**  If there are no seeds, and entries only where the document is left
    without a node, nothing is left of the cache. -/
theorem Carried.eq_empty (h : Carried old carrier doc cache) (hseeds : old.seeds = ∅)
    (hgone : ∀ (p : Nat) (e : Entry) (q : Nat), old.entries[p]? = some e →
      doc.nodeAt? q = none) : cache = empty := by
  refine Cache.ext (Std.ExtTreeMap.ext_getElem? fun q => ?_)
    (Std.ExtTreeMap.ext_getElem? fun q => ?_)
  · cases he : cache.entries[q]? with
    | none => simp [empty]
    | some e' =>
      obtain ⟨p, e, hold, hfate⟩ := h.exists_of_entry he
      obtain ⟨-, hnode, -⟩ := fate_eq_kept_iff.mp hfate
      simp [hgone p e q hold] at hnode
  · cases htree : cache.seeds[q]? with
    | none => simp [empty]
    | some tree =>
      obtain ⟨p, e, hold, hfate⟩ := h.exists_entry_of_seed hseeds htree
      obtain ⟨-, m, _, hm, -⟩ := fate_eq_seed_iff.mp hfate
      simp [hgone p e q hold] at hm

/-- **Nothing changed.**  If a change keeps each entry as it is and there are no seeds, it
    keeps the cache. -/
theorem Carried.eq_of_kept (h : Carried old carrier doc cache) (hseeds : old.seeds = ∅)
    (hkept : ∀ p e, old.entries[p]? = some e → fate carrier doc p e = .kept p e) :
    cache = old := by
  refine Cache.ext (Std.ExtTreeMap.ext_getElem? fun q => ?_)
    (Std.ExtTreeMap.ext_getElem? fun q => ?_)
  · cases he : cache.entries[q]? with
    | some e' =>
      obtain ⟨p, e, hold, hfate⟩ := h.exists_of_entry he
      obtain ⟨rfl, rfl⟩ := Fate.kept.inj ((hkept p e hold).symm.trans hfate)
      exact hold.symm
    | none =>
      -- an entry that was there would have been kept
      cases hold : old.entries[q]? with
      | none => rfl
      | some e =>
        have := h.isSome_of_kept hold (hkept q e hold)
        simp [he] at this
  · cases htree : cache.seeds[q]? with
    | none => simp [hseeds]
    | some tree =>
      obtain ⟨p, e, hold, hfate⟩ := h.exists_entry_of_seed hseeds htree
      rw [hkept p e hold] at hfate
      cases hfate

end Cache

end CodeOverlay
