import CodeOverlay.Proofs.Handling
import CodeOverlay.Proofs.Targets

namespace CodeOverlay

/-!
# Caches that fit a document

While a document is followed, the entries of a cache are not only sound.  They are also those of
targets of the document, and so a pass over the document leaves nothing in the cache that it
would not have left if it had begun with an empty one.

* `Cache.OnTargets` — each entry is that of a target of the document, and stays so;
* `Overlay.Placed` — each entry is sound and that of a target of the document;
* `Overlay.Fits`, `Overlay.Ready` — what is kept after a pass, and what one can begin with;
* `Fits.carried` — after a revision, a pass over the revised document can begin;
* `Fits.eq_of_unchanged` — a revision that replaces nothing keeps the cache;
* `Ready.highlight_fits` — a pass leads to a cache that fits;
* `Ready.highlight_eq` — a pass leads to the same state, whichever cache it begins with.
-/

/-! ### Revisions -/

/-- A revision that replaces nothing moves no position and keeps the document. -/
theorem Revision.eq_of_unchanged {doc : Node} {steps : List Step}
    (h : (doc.revise steps).changesDocument = false) :
    (doc.revise steps).route.shifts = [] ∧ (doc.revise steps).doc = doc := by
  have hshifts : (doc.revise steps).route.shifts = [] := by
    simpa [changesDocument] using h
  have hrevised := Revision.revised_run doc steps
  rw [hshifts] at hrevised
  generalize (doc.revise steps).doc = doc' at hrevised
  refine ⟨hshifts, ?_⟩
  -- each replacement that counts would have added a shift
  generalize hnil : ([] : List Shift) = shifts at hrevised
  cases hrevised with
  | refl => rfl
  | snoc => simp at hnil

/-! ### Entries on targets -/

section
variable {kinds : Kinds} {doc : Node} {steps : List Step} {cache old : Cache}

/-- Each entry is that of a target of the document. -/
def Cache.OnTargets (kinds : Kinds) (doc : Node) (cache : Cache) : Prop :=
  ∀ (pos : Nat) (entry : Entry), cache.entries[pos]? = some entry →
    ⟨entry.node, .inner pos⟩ ∈ doc.targets kinds

/-- **Entries stay on targets.**  Under a revision an entry goes to a target of the revised
    document, or it is dropped. -/
theorem Cache.OnTargets.carried (h : old.OnTargets kinds doc)
    (hcache : old.Carried (doc.revise steps) (doc.revise steps).doc cache) :
    cache.OnTargets kinds (doc.revise steps).doc := by
  intro q e' he'
  obtain ⟨p, e, he, hfate⟩ := hcache.exists_of_entry he'
  obtain ⟨hland, hnode, rfl⟩ := Cache.fate_eq_kept_iff.mp hfate
  -- what stands around the position is what stood around it, so no target does
  obtain rfl : (Route.landThrough (doc.revise steps).route.shifts p .right).pos = q :=
    congrArg Landing.pos hland
  exact (Revision.revised_run doc steps).mem_targets (h p e he) (congrArg Landing.deleted hland)
    hnode

/-- An entry of a target is put where the target is. -/
theorem Cache.OnTargets.set {target : Target} (h : cache.OnTargets kinds doc)
    (htarget : target ∈ doc.targets kinds) (kept : Kept) :
    (cache.set target.pos ⟨target.node, kept⟩).OnTargets kinds doc := by
  intro pos entry hentry
  rw [Cache.set_entries] at hentry
  split at hentry
  · rename_i hpos
    cases hentry
    rw [← hpos]
    exact htarget
  · exact h pos entry hentry

/-- **A revision that replaces nothing** keeps document and cache. -/
theorem Cache.OnTargets.eq_of_unchanged (h : old.OnTargets kinds doc) (hseeds : old.seeds = ∅)
    (hcache : old.Carried (doc.revise steps) (doc.revise steps).doc cache)
    (hunchanged : (doc.revise steps).changesDocument = false) :
    (doc.revise steps).doc = doc ∧ cache = old := by
  obtain ⟨hshifts, hdoc⟩ := Revision.eq_of_unchanged hunchanged
  refine ⟨hdoc, hcache.eq_of_kept hseeds fun p e he => Cache.fate_eq_kept_iff.mpr ⟨?_, ?_, ?_⟩⟩
  · show Route.landThrough (doc.revise steps).route.shifts p .right = ⟨p, false⟩
    rw [hshifts]
    rfl
  · rw [hdoc]
    exact nodeAt?_of_mem_targets (h p e he)
  · rw [Kept.follow_self]

end

namespace Overlay

variable {o : Overlay} {rule : LanguageRule} {target : Target} {targets : List Target} {steps : List Step}
variable {cache cache' old final final' : Cache} {r : Rendering} {doc node : Node} {pos : Nat}
variable {strokes strokes' : List Stroke} {outcome : Outcome} {state next : OverlayState}

/-- Each entry can be trusted, and it is that of a target of the document. -/
structure Placed (o : Overlay) (doc : Node) (cache : Cache) : Prop where
  /-- Each entry is what is kept of the rendering of its node where it stands. -/
  sound : o.Sound cache
  /-- Each entry is that of a target. -/
  target : ∀ (pos : Nat) (entry : Entry), cache.entries[pos]? = some entry →
    ⟨entry.node, .inner pos⟩ ∈ doc.targets o.kinds

/-- What is kept of a document while it is followed. -/
structure Fits (o : Overlay) (doc : Node) (cache : Cache) : Prop extends Placed o doc cache where
  /-- No seeds are left. -/
  seedless : cache.seeds = ∅

/-- What a pass over a document can begin with. -/
structure Ready (o : Overlay) (doc : Node) (cache : Cache) : Prop extends Placed o doc cache where
  /-- Where there is nothing to do, nothing is left from before. -/
  idle : o.Idle doc → cache = .empty

theorem placed_empty : o.Placed doc .empty := by
  refine ⟨sound_empty, fun pos entry h => ?_⟩
  simp [Cache.empty] at h

theorem fits_empty : o.Fits doc .empty :=
  ⟨placed_empty, rfl⟩

theorem ready_empty : o.Ready doc .empty :=
  ⟨placed_empty, fun _ => rfl⟩

/-! ### After a revision -/

/-- Under a revision entries stay sound and on targets. -/
theorem Placed.carried (h : o.Placed doc old)
    (hcache : old.Carried (doc.revise steps) (doc.revise steps).doc cache) :
    o.Placed (doc.revise steps).doc cache :=
  ⟨h.sound.carried hcache, Cache.OnTargets.carried h.target hcache⟩

/-- Where there is a rule, there is something to do for a document that has a node at all, if
    there ever was a target. -/
theorem not_idle (hrule : o.rule = some rule)
    (htarget : ⟨node, .inner pos⟩ ∈ doc.targets o.kinds) {doc' m : Node} {q : Nat}
    (hm : doc'.nodeAt? q = some m) : ¬o.Idle doc' := by
  rintro (hnone | hcontent | hkinds)
  · simp [hrule] at hnone
  · exact Node.contentSize_ne_zero hm hcontent
  · simp [isEmpty_of_mem_targets htarget] at hkinds

/-- **After a revision** a cache is one that a pass over the revised document can begin with. -/
theorem Fits.carried (h : o.Fits doc old)
    (hcache : old.Carried (doc.revise steps) (doc.revise steps).doc cache) :
    o.Ready (doc.revise steps).doc cache := by
  refine ⟨h.toPlaced.carried hcache, fun hidle => hcache.eq_empty h.seedless fun p e q he => ?_⟩
  -- the entry is that of a target that renders, so any node would be something to do
  obtain ⟨r, ⟨rule, _, hrule, -⟩, -⟩ := h.sound p e he
  exact Option.eq_none_iff_forall_ne_some.mpr fun m hm =>
    not_idle hrule (h.target p e he) hm hidle

/-- **A revision that replaces nothing** keeps document and cache. -/
theorem Fits.eq_of_unchanged (h : o.Fits doc old)
    (hcache : old.Carried (doc.revise steps) (doc.revise steps).doc cache)
    (hunchanged : (doc.revise steps).changesDocument = false) :
    (doc.revise steps).doc = doc ∧ cache = old :=
  Cache.OnTargets.eq_of_unchanged h.target h.seedless hcache hunchanged

/-! ### After a pass -/

/-- The rendering of a target is put where the target is. -/
theorem Placed.set (h : o.Placed doc cache) (htarget : target ∈ doc.targets o.kinds)
    (hr : o.Renders target r) :
    o.Placed doc (cache.set target.pos ⟨target.node, o.policy.keep r⟩) :=
  ⟨h.sound.set hr, Cache.OnTargets.set h.target htarget _⟩

theorem Placed.visitAll (hpriors : o.parsers.IgnorePriors) (hrule : o.rule = some rule)
    (h : o.Placed doc cache)
    (hpass : (o.visitAll rule cache (doc.targets o.kinds)).2 = .ok (strokes, final)) :
    o.Placed doc final :=
  visitAll_preserves hpriors hrule (fun _ _ htarget _ h hr => h.set htarget hr) h hpass

/-- **A pass leads to a cache that fits.** -/
theorem Ready.highlight_fits (hpriors : o.parsers.IgnorePriors) (h : o.Ready doc cache)
    (hnext : (o.highlight (some doc) cache).2 = .ok next) : o.Fits doc next.cache := by
  obtain ⟨hidle, hkept⟩ | ⟨rule, hrule, hpass⟩ := o.highlight_cases doc
  · cases (hkept cache).symm.trans hnext
    rw [h.idle hidle]
    exact fits_empty
  · rw [hpass] at hnext
    obtain ⟨⟨strokes, final⟩, hfinal, rfl⟩ := map_eq_ok_iff.mp hnext
    have hplaced := h.toPlaced.visitAll hpriors hrule hfinal
    exact ⟨⟨hplaced.sound, hplaced.target⟩, rfl⟩

/-- **A pass leaves an entry of each target that renders**, if no two targets share a
    position. -/
theorem exists_entry_of_visitAll (hask : o.ask = none) (hpriors : o.parsers.IgnorePriors)
    (hrule : o.rule = some rule) (hdistinct : targets.Pairwise (·.pos ≠ ·.pos))
    (hmem : ⟨node, .inner pos⟩ ∈ targets) (hr : o.Renders ⟨node, .inner pos⟩ r)
    (hpass : (o.visitAll rule cache targets).2 = .ok (strokes, final)) :
    ∃ kept, final.entries[pos]? = some ⟨node, kept⟩ := by
  obtain ⟨handled, rfl, hall, hvisits⟩ := exists_handled_of_ok hdistinct hpass
  have hdistinct := List.pairwise_map.mp hdistinct
  rw [hvisits] at hpass
  cases hpass
  obtain ⟨v, hv, htarget⟩ := List.mem_map.mp hmem
  have hpos : v.target.pos = .inner pos := by rw [htarget]
  have hvisit : (o.visit rule cache v.target).2 = .ok v.outcome :=
    congrArg Prod.snd (hall v hv).visit_eq
  rw [htarget] at hvisit
  obtain ⟨strokes, huse, hresult⟩ | ⟨-, hresult⟩ :=
    o.visit_cases hpriors rule cache ⟨node, .inner pos⟩
  · -- strokes are at hand only if there is an entry of the node, and it stays
    obtain ⟨kept, hkept, -⟩ := Option.bind_eq_some_iff.mp ((decision_eq_use_iff hask).mp huse)
    obtain ⟨pos', hpos', hentry⟩ := kept?_eq_some_iff.mp hkept
    cases hpos'
    rw [hvisit] at hresult
    refine ⟨kept, (Handled.foldl_update_of_not_rendered ?_).trans hentry⟩
    intro w hw r hwpos hrendered
    obtain rfl := Handled.eq_of_pos hdistinct hv hw (hpos.trans hwpos.symm)
    rw [hrendered] at hresult
    cases hresult
  · rw [(renderTarget_eq_rendered_iff hrule).mpr hr, hvisit] at hresult
    refine ⟨o.policy.keep r, ?_⟩
    rw [Handled.foldl_update_of_rendered hdistinct hv hpos (Except.ok.inj hresult), htarget]

/-- What a pass leaves at a position does not depend on what it began with. -/
private theorem entry_of_visitAll (hask : o.ask = none) (hpriors : o.parsers.IgnorePriors)
    (hrule : o.rule = some rule) (h : o.Placed doc cache) (h' : o.Placed doc cache')
    (hpass : (o.visitAll rule cache (doc.targets o.kinds)).2 = .ok (strokes, final))
    (hpass' : (o.visitAll rule cache' (doc.targets o.kinds)).2 = .ok (strokes', final'))
    {e : Entry} (he : final.entries[pos]? = some e) : final'.entries[pos]? = some e := by
  have hplaced := h.visitAll hpriors hrule hpass
  have hplaced' := h'.visitAll hpriors hrule hpass'
  obtain ⟨r, hr, hkept⟩ := hplaced.sound pos e he
  -- the other pass leaves an entry of the same node, and both say what the node renders to
  obtain ⟨kept, he'⟩ := exists_entry_of_visitAll hask hpriors hrule (targets_distinct _ _)
    (hplaced.target pos e he) hr hpass'
  obtain ⟨r', hr', rfl⟩ := hplaced'.sound pos _ he'
  rw [he', hr'.unique hr, ← hkept]

/-- **The cache does not show in the state.**  A pass that can begin with either of two caches
    leads to the same state, or to the same failure. -/
theorem Ready.highlight_eq (hask : o.ask = none) (hpriors : o.parsers.IgnorePriors)
    (h : o.Ready doc cache) (h' : o.Ready doc cache') :
    (o.highlight (some doc) cache).2 = (o.highlight (some doc) cache').2 := by
  obtain ⟨hidle, hkept⟩ | ⟨rule, hrule, hpass⟩ := o.highlight_cases doc
  · rw [hkept, hkept, h.idle hidle, h'.idle hidle]
  · rw [hpass, hpass]
    refine map_eq_map_of_map_eq (h.sound.visitAll_strokes hask hpriors hrule h'.sound) ?_
    rintro ⟨strokes, final⟩ ⟨strokes', final'⟩ hfinal hfinal' hstrokes
    -- entries that were there before the pass are entries that it would have left
    have hentries : final.entries = final'.entries :=
      Std.ExtTreeMap.ext_getElem? fun q => Option.ext fun e =>
        ⟨entry_of_visitAll hask hpriors hrule h.toPlaced h'.toPlaced hfinal hfinal',
          entry_of_visitAll hask hpriors hrule h'.toPlaced h.toPlaced hfinal' hfinal⟩
    cases hstrokes
    simp only [Cache.dropSeeds, hentries]

/-! ### Decorations that stay -/

/-- The strokes that a node contributes are not empty. -/
theorem Sound.lt_of_mem_visit (hask : o.ask = none) (hpriors : o.parsers.IgnorePriors)
    (hrule : o.rule = some rule) (h : o.Sound cache)
    (hvisit : (o.visit rule cache target).2 = .ok outcome) {s : Stroke}
    (hs : s ∈ outcome.strokes) : s.start < s.stop := by
  have hstrokes : _ = (o.renderTarget rule target none).2.map (·.strokes) :=
    h.visit_strokes hask hpriors hrule
  rw [hvisit] at hstrokes
  obtain ⟨outcome', hresult, heq⟩ := map_eq_ok_iff.mp hstrokes.symm
  replace hs : s ∈ outcome'.strokes := heq ▸ hs
  cases outcome' with
  | reused => exact absurd hresult renderTarget_ne_reused
  | noParser => cases hs
  | rendered r =>
    obtain ⟨_, _, -, -, hr⟩ := (renderTarget_eq_rendered_iff hrule).mp hresult
    exact lt_of_mem_render hr hs

theorem Sound.lt_of_mem_visitAll (hask : o.ask = none) (hpriors : o.parsers.IgnorePriors)
    (hrule : o.rule = some rule) (h : o.Sound cache)
    (hpass : (o.visitAll rule cache targets).2 = .ok (strokes, final)) {s : Stroke}
    (hs : s ∈ strokes) : s.start < s.stop := by
  induction targets generalizing cache strokes with
  | nil =>
    cases hpass
    cases hs
  | cons target targets ih =>
    obtain ⟨outcome, rest, hvisit, hrest, rfl⟩ := visitAll_cons_eq_ok.mp hpass
    rcases List.mem_append.mp hs with hs | hs
    · exact h.lt_of_mem_visit hask hpriors hrule hvisit hs
    · exact ih (h.update hpriors hrule hvisit) hrest hs

/-- The decorations that a pass leads to are not empty. -/
theorem Sound.lt_of_mem_highlight (hask : o.ask = none) (hpriors : o.parsers.IgnorePriors)
    (h : o.Sound cache) (hnext : (o.highlight (some doc) cache).2 = .ok next) {s : Stroke}
    (hs : s ∈ next.decorations.strokes) : s.start < s.stop := by
  obtain ⟨-, hkept⟩ | ⟨rule, hrule, hpass⟩ := o.highlight_cases doc
  · cases (hkept cache).symm.trans hnext
    cases hs
  · rw [hpass] at hnext
    obtain ⟨⟨strokes, final⟩, hfinal, rfl⟩ := map_eq_ok_iff.mp hnext
    exact h.lt_of_mem_visitAll hask hpriors hrule hfinal
      ((Decorations.perm_ofStrokes strokes).mem_iff.mp hs)

end Overlay

end CodeOverlay
