import CodeOverlay.Proofs.Following
import CodeOverlay.Proofs.Tracking

namespace CodeOverlay

/-!
# What is parsed again

Strokes that are kept of a node are used again for as long as the node stays what it is.  So if
nobody decides otherwise, a pass parses the nodes of which nothing was kept, and these are nodes
that a revision touched.

* `Overlay.unkept`, `Overlay.callFor?` — the targets of which nothing is kept, and how one is parsed;
* `Overlay.highlight_calls` — a pass parses these targets, one after the other;
* `Overlay.Tidy`, `Follows.tidy` — what can be in a cache while a document is followed;
* `Carried.source_of_seed` — a seed is one for the node where it is;
* `Follows.reparses_touched` — what a revision leads to is parsed only where it is new.
-/

/-- Whether a parser was called. -/
def Event.isParse : Event → Bool
  | .parse .. => true
  | .asked .. => false
  | .told .. => false

/-- Each entry holds what the policy keeps of some rendering. -/
def Cache.KeptBy (policy : KeepPolicy) (cache : Cache) : Prop :=
  ∀ (pos : Nat) (entry : Entry), cache.entries[pos]? = some entry →
    ∃ r, entry.kept = policy.keep r

/-- Unless only trees are kept, there are strokes in what is kept. -/
theorem KeepPolicy.isSome_strokes_keep {policy : KeepPolicy} (h : policy ≠ .tree) (r : Rendering) :
    (policy.keep r).strokes.isSome := by
  cases policy with
  | tree => exact absurd rfl h
  | strokes => rfl
  | both => rfl

namespace Cache

variable {policy : KeepPolicy} {doc m : Node} {old cache : Cache} {q : Nat} {tree : SyntaxTree}

theorem keptBy_empty : empty.KeptBy policy := by
  intro pos entry h
  simp [empty] at h

/-- What a policy keeps goes along with a change. -/
theorem KeptBy.carried {μ : Type} [Carrier μ] {carrier : μ} (h : old.KeptBy policy)
    (hcache : old.Carried carrier doc cache) : cache.KeptBy policy := by
  intro q e' he'
  obtain ⟨p, e, he, hfate⟩ := hcache.exists_of_entry he'
  obtain ⟨-, -, rfl⟩ := fate_eq_kept_iff.mp hfate
  obtain ⟨r, hkept⟩ := h p e he
  refine ⟨r.follow p q, ?_⟩
  rw [hkept, KeepPolicy.follow_keep]

theorem KeptBy.set (h : cache.KeptBy policy) (target : Target) (r : Rendering) :
    (cache.set target.pos ⟨target.node, policy.keep r⟩).KeptBy policy := by
  intro pos entry hentry
  rw [set_entries] at hentry
  split at hentry
  · cases hentry
    exact ⟨r, rfl⟩
  · exact h pos entry hentry

/-- **A seed is one for the node where it is**, and it comes from an entry with a tree. -/
theorem Carried.source_of_seed {μ : Type} [Carrier μ] {carrier : μ}
    (h : Carried old carrier doc cache) (hseeds : old.seeds = ∅)
    (htree : cache.seeds[q]? = some tree) (hm : doc.nodeAt? q = some m) :
    tree.source = m.text ∧
      ∃ (p : Nat) (e : Entry), old.entries[p]? = some e ∧ e.kept.tree.isSome := by
  obtain ⟨p, e, he, hfate⟩ := h.exists_entry_of_seed hseeds htree
  obtain ⟨-, node, earlier, hnode, -, -, hearlier, rfl⟩ := fate_eq_seed_iff.mp hfate
  have hsame : node = m := Option.some.inj (hnode.symm.trans hm)
  refine ⟨?_, p, e, he, by simp [hearlier]⟩
  rw [SyntaxTree.seedFor_source, hsame]

end Cache

namespace Overlay

variable {o : Overlay} {rule : LanguageRule} {target : Target} {doc : Node} {steps : List Step}
variable {cache old : Cache} {state next : OverlayState}

/-! ### What a pass parses -/

/-- The targets of a document of which a cache has no entry, in document order.  The root is one
    whenever it is a target. -/
def unkept (o : Overlay) (doc : Node) (cache : Cache) : List Target :=
  (doc.targets o.kinds).filter fun target => (cache.get? target.pos).isNone

/-- The call by which a target is parsed, if there is a parser for its language. -/
def callFor? (o : Overlay) (rule : LanguageRule) (target : Target) (prior : Option SyntaxTree) :
    Option Event :=
  (o.parsers.find? (rule.key target.node)).map fun parser =>
    .parse parser.language target.node.text prior

/-- Where a pass begins with a cache, each entry at the place of a target is one of this very
    target, and strokes are kept in it. -/
def Usable (o : Overlay) (doc : Node) (cache : Cache) : Prop :=
  ∀ target ∈ doc.targets o.kinds, ∀ entry, cache.get? target.pos = some entry →
    entry.node = target.node ∧ entry.kept.strokes.isSome

/-- To render a node its parser is called, once. -/
theorem renderTarget_calls (prior : Option SyntaxTree) :
    (o.renderTarget rule target prior).1.filter Event.isParse =
      (o.callFor? rule target prior).toList := by
  have hpost : ∀ strokes, (o.postEvents target strokes).filter Event.isParse = [] := by
    intro strokes
    unfold postEvents
    split <;> rfl
  unfold renderTarget callFor?
  cases o.parsers.find? (rule.key target.node) with
  | none => rfl
  | some parser =>
    cases hr : render o.styling parser target.node.text target.pos prior with
    | error e => simp [hr, Event.isParse]
    | ok r =>
      simp only [hr]
      rw [List.filter_cons_of_pos rfl, hpost]
      rfl

/-- Strokes that are kept of a node are used, and no parser is called. -/
theorem visit_events_of_kept (hask : o.ask = none) {entry : Entry}
    (hentry : cache.get? target.pos = some entry) (hnode : entry.node = target.node)
    (hstrokes : entry.kept.strokes.isSome) : (o.visit rule cache target).1 = [] := by
  obtain ⟨strokes, hstrokes⟩ := Option.isSome_iff_exists.mp hstrokes
  have hkept : kept? cache target = some entry.kept := by
    simp [kept?, hentry, hnode, Option.filter]
  have hdecision : o.decision target (kept? cache target) = .use strokes := by
    simp [decision, hask, hkept, hstrokes]
  simp only [visit, hdecision]
  simp [preEvents, hask]

/-- A node without an entry is parsed, if there is a parser, starting from the seed at its
    place. -/
theorem visit_calls_of_unkept (hask : o.ask = none) (hentry : cache.get? target.pos = none) :
    (o.visit rule cache target).1.filter Event.isParse =
      (o.callFor? rule target (cache.seed? target.pos)).toList := by
  have hkept : kept? cache target = none := by
    simp [kept?, hentry]
  have hdecision : o.decision target none = .render := by
    simp [decision, hask]
  simp only [visit, hkept, hdecision]
  simpa [preEvents, hask] using renderTarget_calls (cache.seed? target.pos)

/-- **What a pass parses**: the targets without an entry, one after the other. -/
theorem highlight_calls (hask : o.ask = none) (hrule : o.rule = some rule)
    (hcontent : doc.contentSize ≠ 0) (h : o.Usable doc cache)
    (hnext : (o.highlight (some doc) cache).2 = .ok next) :
    (o.highlight (some doc) cache).1.filter Event.isParse =
      (o.unkept doc cache).filterMap fun target =>
        o.callFor? rule target (cache.seed? target.pos) := by
  rw [highlight_events hrule hcontent hnext, List.filter_flatMap, unkept, List.filterMap_filter,
    List.filterMap_eq_flatMap_toList]
  refine List.flatMap_congr fun target htarget => ?_
  cases hentry : cache.get? target.pos with
  | none =>
    rw [visit_calls_of_unkept hask hentry]
    rfl
  | some entry =>
    obtain ⟨hnode, hstrokes⟩ := h target htarget entry hentry
    rw [visit_events_of_kept hask hentry hnode hstrokes]
    rfl

/-! ### What is kept -/

/-- What can be in a cache while a document is followed.  It says nothing of what parsers do. -/
structure Tidy (o : Overlay) (doc : Node) (cache : Cache) : Prop where
  /-- Each entry is that of a target. -/
  target : cache.OnTargets o.kinds doc
  /-- Each entry holds what the policy keeps. -/
  kept : cache.KeptBy o.policy
  /-- No seeds are left. -/
  seedless : cache.seeds = ∅

theorem tidy_empty : o.Tidy doc .empty :=
  ⟨placed_empty.target, Cache.keptBy_empty, rfl⟩

/-- A pass leads to a tidy cache, whatever the seeds that it began with, provided that nothing is
    left from before where there is nothing to do. -/
theorem tidy_of_highlight (htarget : cache.OnTargets o.kinds doc) (hkept : cache.KeptBy o.policy)
    (hempty : o.Idle doc → cache = .empty)
    (hnext : (o.highlight (some doc) cache).2 = .ok next) : o.Tidy doc next.cache := by
  obtain ⟨hidle, hstays⟩ | ⟨rule, -, hpass⟩ := o.highlight_cases doc
  · cases (hstays cache).symm.trans hnext
    rw [hempty hidle]
    exact tidy_empty
  · rw [hpass] at hnext
    obtain ⟨⟨strokes, final⟩, hfinal, rfl⟩ := map_eq_ok_iff.mp hnext
    have hboth : final.OnTargets o.kinds doc ∧ final.KeptBy o.policy :=
      visitAll_invariant (P := fun cache => cache.OnTargets o.kinds doc ∧ cache.KeptBy o.policy)
        (fun _ target ht r h _ => ⟨h.1.set ht _, h.2.set target r⟩) ⟨htarget, hkept⟩ hfinal
    exact ⟨hboth.1, hboth.2, rfl⟩

/-- Where there is nothing to do after a revision, nothing is left of what was kept. -/
theorem Tidy.eq_empty_of_idle (hrule : o.rule = some rule) (h : o.Tidy doc old)
    (hcache : old.Carried (doc.revise steps) (doc.revise steps).doc cache)
    (hidle : o.Idle (doc.revise steps).doc) : cache = .empty := by
  refine hcache.eq_empty h.seedless fun p e q he => ?_
  exact Option.eq_none_iff_forall_ne_some.mpr fun m hm =>
    not_idle hrule (h.target p e he) hm hidle

/-- All along a run, the cache is tidy. -/
theorem Follows.tidy (hrule : o.rule = some rule) (h : Follows (· = o) doc state) :
    o.Tidy doc state.cache := by
  induction h with
  | start ho h =>
    subst ho
    exact tidy_of_highlight placed_empty.target Cache.keptBy_empty (fun _ => rfl) h
  | @advance _ doc _ _ steps _ _ ho hcache hnext ih =>
    subst ho
    cases hchanged : (doc.revise steps).changesDocument with
    | true =>
      rw [proceed_of_changed hchanged] at hnext
      exact tidy_of_highlight (ih.target.carried hcache) (ih.kept.carried hcache)
        (ih.eq_empty_of_idle hrule hcache) hnext
    | false =>
      obtain ⟨hdoc, rfl⟩ := ih.target.eq_of_unchanged ih.seedless hcache hchanged
      rw [proceed_of_unchanged hchanged] at hnext
      cases hnext
      rw [hdoc]
      exact ih

/-- After a revision, entries of targets are there to be used. -/
theorem Tidy.usable (hpolicy : o.policy ≠ .tree) (h : o.Tidy doc old)
    (hcache : old.Carried (doc.revise steps) (doc.revise steps).doc cache) :
    o.Usable (doc.revise steps).doc cache := by
  rintro ⟨m, pos⟩ htarget entry hentry
  cases pos with
  | root => cases hentry
  | inner q =>
    -- entry and target are both the node at this position
    have hnode : (doc.revise steps).doc.nodeAt? q = some entry.node :=
      nodeAt?_of_mem_targets (h.target.carried hcache q entry hentry)
    obtain ⟨r, hkept⟩ := h.kept.carried hcache q entry hentry
    refine ⟨Option.some.inj (hnode.symm.trans (nodeAt?_of_mem_targets htarget)), ?_⟩
    rw [hkept]
    exact KeepPolicy.isSome_strokes_keep hpolicy r

/-- **An entry that no replacement touches** goes along with its target, so that the target is
    not parsed. -/
theorem Tidy.exists_of_apart {m : Node} {p : Nat} (h : o.Tidy doc old)
    (hcache : old.Carried (doc.revise steps) (doc.revise steps).doc cache)
    (hm : ⟨m, .inner p⟩ ∈ doc.targets o.kinds) (hentry : (old.get? (.inner p)).isSome)
    (hapart : doc.EachMeets steps p Apart) :
    ∃ q, Carrier.land (doc.revise steps) p .right = ⟨q, false⟩ ∧
      ⟨m, .inner q⟩ ∈ (doc.revise steps).doc.targets o.kinds ∧
      ⟨m, .inner q⟩ ∉ o.unkept (doc.revise steps).doc cache := by
  obtain ⟨entry, hentry⟩ := Option.isSome_iff_exists.mp hentry
  have hp : doc.nodeAt? p = some m := nodeAt?_of_mem_targets hm
  have hnode : entry.node = m :=
    Option.some.inj ((nodeAt?_of_mem_targets (h.target p entry hentry)).symm.trans hp)
  obtain ⟨q, hland, hq⟩ := hapart.exists_of_apart hp
  -- another entry may lead there as well, but then it is one of the same node
  have hkept : cache.entries[q]?.isSome :=
    hcache.isSome_of_kept hentry (Cache.fate_eq_kept_iff.mpr ⟨hland, by rw [hnode, hq], rfl⟩)
  refine ⟨q, hland, ?_, fun hmem => ?_⟩
  · obtain rfl : (Route.landThrough (doc.revise steps).route.shifts p .right).pos = q :=
      congrArg Landing.pos hland
    exact (Revision.revised_run doc steps).mem_targets hm (congrArg Landing.deleted hland) hq
  · have hnone : cache.entries[q]?.isNone := (List.mem_filter.mp hmem).2
    rw [Option.isNone_iff_eq_none.mp hnone] at hkept
    cases hkept

/-- The earlier tree that a target is parsed from is a seed for its text, and there is none unless
    trees are kept. -/
theorem Tidy.prior_of_seed {m : Node} {pos : Spot} {tree : SyntaxTree} (h : o.Tidy doc old)
    (hcache : old.Carried (doc.revise steps) (doc.revise steps).doc cache)
    (hm : ⟨m, pos⟩ ∈ (doc.revise steps).doc.targets o.kinds)
    (htree : cache.seed? pos = some tree) : tree.source = m.text ∧ o.policy ≠ .strokes := by
  cases pos with
  | root => cases htree
  | inner q =>
    obtain ⟨hsource, p, e, he, hearlier⟩ :=
      hcache.source_of_seed h.seedless htree (nodeAt?_of_mem_targets hm)
    refine ⟨hsource, fun hpolicy => ?_⟩
    obtain ⟨r, hkept⟩ := h.kept p e he
    rw [hkept, hpolicy] at hearlier
    cases hearlier

/-! ### After a revision -/

/-- Where the document stays or is left without content, nothing is observed. -/
theorem proceed_events_eq_nil {μ : Type} [Carrier μ] {carrier : μ} {decorations : Decorations}
    (hrule : o.rule = some rule)
    (h : Carrier.changesDocument carrier = false ∨ doc.contentSize = 0) :
    (o.proceed decorations cache carrier doc).1 = [] := by
  cases hchanged : Carrier.changesDocument carrier with
  | false =>
    rw [proceed_of_unchanged hchanged]
  | true =>
    have hcontent : doc.contentSize = 0 := h.resolve_left (by simp [hchanged])
    rw [proceed_of_changed hchanged]
    simp [highlight, hrule, hcontent]

/-- **A revision has parsed again what it touched.**  Let a document be followed by passes that
    keep strokes and for which no host decides.  If a revision replaces nothing or leaves no
    content, no parser is called.  Otherwise parsers are called for the targets of which nothing
    is kept, in document order and once for each that has a parser.  A target of which something
    was kept and which each replacement finds apart from its range is not one of them.  An earlier
    tree that a parser is given is a seed for the very text, and if only strokes are kept there is
    none. -/
theorem Follows.reparses_touched {calls : List Event} (hask : o.ask = none)
    (hrule : o.rule = some rule) (hpolicy : o.policy ≠ .tree) (h : Follows (· = o) doc state)
    (hcache : state.cache.Carried (doc.revise steps) (doc.revise steps).doc cache)
    (hnext : (o.proceed state.decorations cache (doc.revise steps) (doc.revise steps).doc).2 =
      .ok next)
    (hcalls : (o.proceed state.decorations cache (doc.revise steps)
      (doc.revise steps).doc).1.filter Event.isParse = calls) :
    ((doc.revise steps).changesDocument = false ∨ (doc.revise steps).doc.contentSize = 0 →
        calls = []) ∧
      ((doc.revise steps).changesDocument = true → (doc.revise steps).doc.contentSize ≠ 0 →
        calls = (o.unkept (doc.revise steps).doc cache).filterMap fun target =>
          o.callFor? rule target (cache.seed? target.pos)) ∧
      (∀ (m : Node) (p : Nat), ⟨m, .inner p⟩ ∈ doc.targets o.kinds →
        (state.cache.get? (.inner p)).isSome → doc.EachMeets steps p Apart →
          ∃ q, Carrier.land (doc.revise steps) p .right = ⟨q, false⟩ ∧
            ⟨m, .inner q⟩ ∈ (doc.revise steps).doc.targets o.kinds ∧
            ⟨m, .inner q⟩ ∉ o.unkept (doc.revise steps).doc cache) ∧
      (∀ language text tree, .parse language text (some tree) ∈ calls → tree.source = text) ∧
      (o.policy = .strokes → ∀ language text prior, .parse language text prior ∈ calls →
        prior = none) := by
  have htidy : o.Tidy doc state.cache := h.tidy hrule
  have hnone : (doc.revise steps).changesDocument = false ∨
      (doc.revise steps).doc.contentSize = 0 → calls = [] := by
    intro hidle
    rw [← hcalls, proceed_events_eq_nil hrule hidle]
    rfl
  have hall : (doc.revise steps).changesDocument = true →
      (doc.revise steps).doc.contentSize ≠ 0 →
        calls = (o.unkept (doc.revise steps).doc cache).filterMap fun target =>
          o.callFor? rule target (cache.seed? target.pos) := by
    intro hchanged hcontent
    rw [proceed_of_changed hchanged] at hnext hcalls
    rw [← hcalls]
    exact highlight_calls hask hrule hcontent (htidy.usable hpolicy hcache) hnext
  -- a call is one for some target, with the seed at its place
  have hprior : ∀ language text tree, .parse language text (some tree) ∈ calls →
      tree.source = text ∧ o.policy ≠ .strokes := by
    intro language text tree hmem
    cases hchanged : (doc.revise steps).changesDocument with
    | false =>
      rw [hnone (.inl hchanged)] at hmem
      cases hmem
    | true =>
      by_cases hcontent : (doc.revise steps).doc.contentSize = 0
      · rw [hnone (.inr hcontent)] at hmem
        cases hmem
      rw [hall hchanged hcontent] at hmem
      obtain ⟨target, htarget, hcall⟩ := List.mem_filterMap.mp hmem
      obtain ⟨parser, -, heq⟩ := Option.map_eq_some_iff.mp hcall
      obtain ⟨-, rfl, hseed⟩ := Event.parse.inj heq
      exact htidy.prior_of_seed hcache (List.mem_filter.mp htarget).1 hseed
  refine ⟨hnone, hall, fun m p hm hentry hapart => htidy.exists_of_apart hcache hm hentry hapart,
    fun language text tree hmem => (hprior language text tree hmem).1, ?_⟩
  intro hstrokes language text prior hmem
  cases prior with
  | none => rfl
  | some tree => exact absurd hstrokes (hprior language text tree hmem).2

/-- Two lists of digits. -/
def twoLists : Node :=
  .doc [.codeBlock "json" "[1]", .codeBlock "json" "[7]"]

/-- A digit is put in the first of the lists. -/
def twoListsRevision : Revision :=
  twoLists.revise [.insertText 2 "3,"]

/-- The first list is parsed again, from the tree that it had before as a seed for its new text.
    The second one moves along and is not parsed. -/
theorem reparses_touched_first :
    digitLists.ask = none ∧ digitLists.rule = some .standard ∧ digitLists.policy ≠ .tree ∧
      twoLists.EachMeets [.insertText 2 "3,"] 5 Apart ∧
      ∃ state next layer seed, (digitLists.start twoLists).2 = .ok state ∧
        (digitLists.advance state twoListsRevision twoListsRevision.doc).2 = .ok next ∧
        digitList.parse "[1]" [] none = some layer ∧
        seed = SyntaxTree.seedFor ⟨"json", "[1]", layer, none⟩ "[3,1]" ∧
        (digitLists.advance state twoListsRevision twoListsRevision.doc).1.filter Event.isParse =
          [.parse "json" "[3,1]" (some seed)] ∧ seed.source = "[3,1]" ∧
        ∃ q, Carrier.land twoListsRevision 5 .right = ⟨q, false⟩ ∧
          ⟨.codeBlock "json" "[7]", .inner q⟩ ∈ twoListsRevision.doc.targets digitLists.kinds ∧
          ⟨.codeBlock "json" "[7]", .inner q⟩ ∉ digitLists.unkept twoListsRevision.doc
            (state.cache.carry twoListsRevision twoListsRevision.doc) := by
  have hapart : twoLists.EachMeets [.insertText 2 "3,"] 5 Apart := by
    intro earlier later start stop new next m hsteps hnext hm
    match earlier, hsteps with
    | [], hsteps =>
      cases hsteps
      obtain rfl := Option.some.inj hm
      decide
    | _ :: _, hsteps => simp at hsteps
  have hpolicy : digitLists.policy ≠ .tree := by decide
  obtain ⟨layer, hlayer⟩ : ∃ layer, digitList.parse "[1]" [] none = some layer := ⟨_, rfl⟩
  obtain ⟨state, hstate⟩ : ∃ state, (digitLists.start twoLists).2 = .ok state := ⟨_, rfl⟩
  have hkept : (digitLists.start twoLists).2.map (·.cache.positions) = .ok [0, 5] := by
    decide +kernel
  have hevents : ((digitLists.start twoLists).2.map fun state =>
      ((digitLists.advance state twoListsRevision twoListsRevision.doc).1.filter Event.isParse,
        (digitLists.advance state twoListsRevision twoListsRevision.doc).2.isOk)) =
      .ok ([.parse "json" "[3,1]" ((digitList.parse "[1]" [] none).map fun layer =>
        SyntaxTree.seedFor ⟨"json", "[1]", layer, none⟩ "[3,1]")], true) := by
    decide +kernel
  rw [hstate] at hkept hevents
  obtain ⟨hcalls, hok⟩ := Prod.mk.inj (Except.ok.inj hevents)
  rw [hlayer] at hcalls
  obtain ⟨next, hnext⟩ : ∃ next,
      (digitLists.advance state twoListsRevision twoListsRevision.doc).2 = .ok next := by
    cases hresult : (digitLists.advance state twoListsRevision twoListsRevision.doc).2 with
    | ok next => exact ⟨next, rfl⟩
    | error e =>
      rw [hresult] at hok
      cases hok
  have hsecond : (state.cache.get? (.inner 5)).isSome := by
    have hmem : 5 ∈ state.cache.entries.keys := by
      rw [show state.cache.entries.keys = [0, 5] from Except.ok.inj hkept]
      decide
    exact Std.ExtTreeMap.isSome_getElem?_iff_mem.mpr (Std.ExtTreeMap.mem_keys.mp hmem)
  obtain ⟨-, -, hstays, hsource, -⟩ := Follows.reparses_touched rfl rfl hpolicy
    (.start rfl hstate) (Cache.carried_carry _ _ _) hnext hcalls
  exact ⟨rfl, rfl, hpolicy, hapart, state, next, layer, _, hstate, hnext, hlayer, rfl, hcalls,
    hsource _ _ _ List.mem_cons_self, hstays _ 5 (by decide +kernel) hsecond hapart⟩

end Overlay

end CodeOverlay
