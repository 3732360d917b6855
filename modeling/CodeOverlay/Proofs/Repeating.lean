import CodeOverlay.Proofs.Handling

namespace CodeOverlay

/-!
# A pass over its own cache

A pass that begins with the cache which it led to has the same result as before.  It goes another
way, though: of a node that was rendered, the strokes may now be at hand, or it may be rendered once
more, from another tree than the first time.

* `Overlay.visit_congr_kept` — a visit yields the same if the same is kept of the node;
* `Overlay.exists_again` — a visit to a node that was handled changes nothing;
* `Overlay.highlight_again` — nor does a pass.
-/

namespace Cache

variable {cache old : Cache} {handled : List Handled} {v : Handled} {policy : KeepPolicy}
variable {pos : Spot} {entry : Entry} {p : Nat}

/-- Putting an entry where it is already changes nothing. -/
theorem set_of_entry (h : cache.entries[p]? = some entry) (hpos : pos = .inner p) :
    cache.set pos entry = cache := by
  subst hpos
  apply Cache.ext
  · apply Std.ExtTreeMap.ext_getElem?
    intro q
    rw [set_entries]
    split
    · rename_i hq
      cases hq
      exact h.symm
    · rfl
  · rfl

/-- Of a node that was not rendered the same is kept as before. -/
theorem Overwrites.kept?_eq (h : Overwrites policy handled old cache)
    (hdistinct : handled.Pairwise (·.target.pos ≠ ·.target.pos)) (hv : v ∈ handled)
    (hnot : ∀ r, v.outcome ≠ .rendered r) :
    Overlay.kept? cache v.target = Overlay.kept? old v.target := by
  have hget : cache.get? v.target.pos = old.get? v.target.pos := by
    cases hpos : v.target.pos with
    | root => rfl
    | inner p =>
      apply h.others p
      intro w hw r hwpos houtcome
      -- no other node stands at the position
      obtain rfl := Handled.eq_of_pos hdistinct hv hw (hpos.trans hwpos.symm)
      exact hnot r houtcome
  rw [Overlay.kept?, Overlay.kept?, hget]

end Cache

namespace Overlay

variable {o : Overlay} {rule : LanguageRule} {cache later : Cache} {target : Target}
variable {handled : List Handled} {v : Handled} {doc : Option Node} {state : OverlayState}

/-! ### One node -/

/-- What a visit yields depends only on what is kept of the node. -/
theorem visit_congr_kept (hpriors : o.parsers.IgnorePriors)
    (h : kept? later target = kept? cache target) :
    (o.visit rule later target).2 = (o.visit rule cache target).2 := by
  obtain ⟨strokes, huse, hvisit⟩ | ⟨hrender, hvisit⟩ := o.visit_cases hpriors rule cache target
  · obtain ⟨strokes', huse', hvisit'⟩ | ⟨hrender', -⟩ := o.visit_cases hpriors rule later target
    · rw [h, huse] at huse'
      cases huse'
      rw [hvisit, hvisit']
    · exact absurd (h ▸ huse) (hrender' strokes)
  · obtain ⟨strokes', huse', -⟩ | ⟨-, hvisit'⟩ := o.visit_cases hpriors rule later target
    · exact absurd (h ▸ huse') (hrender strokes')
    · rw [hvisit, hvisit']

/-- **A node that was handled** contributes the same to the next pass, which leaves the cache as it
    is. -/
theorem exists_again (hask : o.ask = none) (hpriors : o.parsers.IgnorePriors)
    (hlater : Cache.Overwrites o.policy handled cache later)
    (hdistinct : handled.Pairwise (·.target.pos ≠ ·.target.pos)) (hv : v ∈ handled)
    (hvisit : (o.visit rule cache v.target).2 = .ok v.outcome) :
    ∃ outcome, (o.visit rule later v.target).2 = .ok outcome ∧
      outcome.strokes = v.outcome.strokes ∧ outcome.update o.policy v.target later = later := by
  -- unless it is rendered, the same is kept of it as before
  have hsame : (∀ r, v.outcome ≠ .rendered r) →
      (o.visit rule later v.target).2 = .ok v.outcome := by
    intro hnot
    rw [visit_congr_kept hpriors (hlater.kept?_eq hdistinct hv hnot), hvisit]
  cases houtcome : v.outcome with
  | reused strokes =>
    rw [houtcome] at hsame
    exact ⟨_, hsame nofun, rfl, rfl⟩
  | noParser =>
    rw [houtcome] at hsame
    exact ⟨_, hsame nofun, rfl, rfl⟩
  | rendered r =>
    rw [houtcome] at hvisit
    cases hpos : v.target.pos with
    | root =>
      have hkept : kept? later v.target = kept? cache v.target := by
        simp only [kept?, Cache.get?, hpos, Spot.offset?]
        rfl
      refine ⟨.rendered r, ?_, rfl, ?_⟩
      · rw [visit_congr_kept hpriors hkept, hvisit]
      · rw [Outcome.update, hpos]
        rfl
    | inner p =>
      have hentry := hlater.rendered v hv p r hpos houtcome
      have hkept : kept? later v.target = some (o.policy.keep r) :=
        kept?_eq_some_iff.mpr ⟨p, hpos, hentry⟩
      obtain ⟨strokes, huse, hagain⟩ | ⟨-, hagain⟩ := o.visit_cases hpriors rule later v.target
      · rw [hkept, decision_eq_use_iff hask] at huse
        obtain rfl := KeepPolicy.strokes_of_keep huse
        exact ⟨_, hagain, rfl, rfl⟩
      · -- only the tree is kept, so the node is rendered once more
        obtain ⟨strokes, -, hreused⟩ | ⟨-, hrendered⟩ := o.visit_cases hpriors rule cache v.target
        · rw [hvisit] at hreused
          cases hreused
        · rw [← hrendered, hvisit] at hagain
          exact ⟨_, hagain, rfl, Cache.set_of_entry hentry hpos⟩

/-! ### All nodes -/

/-- Where a visit to each node changes nothing, the nodes are handled once more to the same end. -/
theorem exists_handled_again
    (h : ∀ v ∈ handled, ∃ outcome, (o.visit rule later v.target).2 = .ok outcome ∧
      outcome.strokes = v.outcome.strokes ∧ outcome.update o.policy v.target later = later) :
    ∃ again, again.map (·.target) = handled.map (·.target) ∧ o.HandlesAll rule later again ∧
      again.flatMap (·.outcome.strokes) = handled.flatMap (·.outcome.strokes) ∧
      again.foldl (Handled.update o.policy) later = later := by
  induction handled with
  | nil => exact ⟨[], rfl, nofun, rfl, rfl⟩
  | cons v handled ih =>
    obtain ⟨⟨outcome, hvisit, hstrokes, hupdate⟩, h⟩ := List.forall_mem_cons.mp h
    obtain ⟨again, htargets, hall, hflat, hfold⟩ := ih h
    have hv := o.handles_visit rule later v.target
    rw [hvisit] at hv
    refine ⟨⟨v.target, _, outcome⟩ :: again, ?_, List.forall_mem_cons.mpr ⟨hv, hall⟩, ?_, ?_⟩
    · rw [List.map_cons, List.map_cons, htargets]
    · rw [List.flatMap_cons, List.flatMap_cons, hstrokes, hflat]
    · rw [List.foldl_cons, Handled.update, hupdate, hfold]

/-- **A pass over its own cache** has the same result as before, whatever it was that the first pass
    began with. -/
theorem highlight_again (hask : o.ask = none) (hpriors : o.parsers.IgnorePriors)
    (h : (o.highlight doc cache).2 = .ok state) : (o.highlight doc state.cache).2 = .ok state := by
  match doc, h with
  | none, h =>
    cases h
    rfl
  | some doc, h =>
    by_cases hidle : o.Idle doc
    · rw [highlight_of_idle hidle] at h
      cases h
      rw [highlight_of_idle hidle]
    obtain ⟨rule, hrule, hcontent, hkinds⟩ := not_idle_iff.mp hidle
    obtain ⟨handled, htargets, hall⟩ | ⟨handled, target, rest, events, e, htargets, hall, hfail⟩ :=
      o.exists_handled rule cache (doc.targets o.kinds)
    · rw [highlight_handled hrule hcontent hkinds htargets hall] at h
      cases h
      have hdistinct := targets_distinct o.kinds doc
      rw [← htargets, List.pairwise_map] at hdistinct
      -- each target is visited with the final cache, and none changes it
      obtain ⟨again, htargets', hall', hstrokes, hcache⟩ := exists_handled_again fun v hv =>
        exists_again hask hpriors (overwrites_foldl_update hdistinct) hdistinct hv
          (congrArg Prod.snd (hall v hv).visit_eq)
      rw [highlight_handled hrule hcontent hkinds (htargets'.trans htargets) hall', hstrokes, hcache]
      rfl
    · rw [highlight_failed hrule hcontent hkinds htargets hall hfail] at h
      cases h

/-- An overlay that highlights lists of digits and keeps their trees only. -/
def treeLists : Overlay :=
  { digitLists with policy := .tree }

/-- The strokes at hand for the first list are used both times, though no rendering yields them.  The
    last list is rendered both times, first from the seed and then from the tree that was kept. -/
theorem highlight_again_blocks :
    treeLists.ask = none ∧ treeLists.parsers.IgnorePriors ∧
      ∃ state, (treeLists.highlight (some (.doc blocks)) blocksCache).2 = .ok state ∧
        (treeLists.highlight (some (.doc blocks)) state.cache).2 = .ok state ∧
        (treeLists.highlight (some (.doc blocks)) blocksCache).1 =
          [.parse "json" "[4]" (some (listTree.seedFor "[4]"))] ∧
        (treeLists.highlight (some (.doc blocks)) state.cache).1 =
          [.parse "json" "[4]" ((digitList.parse "[4]" [] none).map (⟨"json", "[4]", ·, none⟩))] := by
  obtain ⟨state, hstate⟩ : ∃ state,
      (treeLists.highlight (some (.doc blocks)) blocksCache).2 = .ok state := ⟨_, rfl⟩
  have hevents : ((treeLists.highlight (some (.doc blocks)) blocksCache).2.map fun state =>
      (treeLists.highlight (some (.doc blocks)) state.cache).1) =
        .ok [.parse "json" "[4]"
          ((digitList.parse "[4]" [] none).map (⟨"json", "[4]", ·, none⟩))] := by
    decide +kernel
  rw [hstate] at hevents
  exact ⟨rfl, ignorePriors_digitLists, state, hstate,
    highlight_again rfl ignorePriors_digitLists hstate, by decide +kernel, Except.ok.inj hevents⟩

end Overlay

end CodeOverlay
