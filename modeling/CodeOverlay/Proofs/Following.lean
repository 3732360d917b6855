import CodeOverlay.Proofs.Fitting

namespace CodeOverlay.Overlay

/-!
# Following a document

A state follows a document from one version to the next, each change being a revision of the
version before.  What is shown and kept then depends on the current version alone: any run leads
to the state from which a run could have started.

* `Overlay.Follows` — states that follow a document, by passes that may differ;
* `Overlay.Coherent` — what is kept agrees with the document;
* `Follows.coherent` — what is kept agrees with it, whatever the hosts decide;
* `Follows.state_eq_start` — without a host that decides, the state is that of a first version.
-/

variable {o o' : Overlay} {passes : Overlay → Prop} {steps : List Step}
variable {cache : Cache} {doc : Node} {state next : OverlayState}

/-- States that follow a document.  It changes by revisions, and the passes over its versions are
    those of overlays of a certain sort.  Entries and seeds are visited in any order. -/
inductive Follows (passes : Overlay → Prop) : Node → OverlayState → Prop
  /-- The state for the first version. -/
  | start {o : Overlay} {doc : Node} {state : OverlayState} (ho : passes o)
      (h : (o.start doc).2 = .ok state) : Follows passes doc state
  /-- The state after one more revision. -/
  | advance {o : Overlay} {doc : Node} {state next : OverlayState} {steps : List Step}
      {cache : Cache} (h : Follows passes doc state) (ho : passes o)
      (hcache : state.cache.Carried (doc.revise steps) (doc.revise steps).doc cache)
      (hnext : (o.proceed state.decorations cache (doc.revise steps) (doc.revise steps).doc).2 =
        .ok next) :
      Follows passes (doc.revise steps).doc next

/-- The overlays that differ in the host only: in what it decides, and in whether it is told. -/
def SameButHost (o o' : Overlay) : Prop :=
  ∃ ask tell, o' = { o with ask, tell }

theorem SameButHost.of_eq (h : o' = o) : o.SameButHost o' :=
  ⟨o.ask, o.tell, h⟩

theorem SameButHost.ignorePriors (ho : o.SameButHost o') (h : o.parsers.IgnorePriors) :
    o'.parsers.IgnorePriors := by
  obtain ⟨_, _, rfl⟩ := ho
  exact h

/-! ### What is kept -/

/-- The host has no say in what fits a document. -/
theorem SameButHost.fits_iff (ho : o.SameButHost o') : o'.Fits doc cache ↔ o.Fits doc cache := by
  obtain ⟨ask, tell, rfl⟩ := ho
  exact ⟨fun h => ⟨⟨h.sound, h.target⟩, h.seedless⟩, fun h => ⟨⟨h.sound, h.target⟩, h.seedless⟩⟩

/-- Under a revision what is kept still fits, whether a pass follows it or nothing at all. -/
theorem Fits.proceed (hpriors : o.parsers.IgnorePriors) (h : o.Fits doc state.cache)
    (hcache : state.cache.Carried (doc.revise steps) (doc.revise steps).doc cache)
    (hnext : (o.proceed state.decorations cache (doc.revise steps) (doc.revise steps).doc).2 =
      .ok next) : o.Fits (doc.revise steps).doc next.cache := by
  cases hchanged : (doc.revise steps).changesDocument with
  | true =>
    rw [proceed_of_changed hchanged] at hnext
    exact (h.carried hcache).highlight_fits hpriors hnext
  | false =>
    obtain ⟨hdoc, rfl⟩ := h.eq_of_unchanged hcache hchanged
    rw [proceed_of_unchanged hchanged] at hnext
    cases hnext
    rw [hdoc]
    exact h

/-- All along a run, what is kept fits the document. -/
theorem Follows.fits (hpriors : o.parsers.IgnorePriors)
    (hpasses : ∀ o', passes o' → o.SameButHost o') (h : Follows passes doc state) :
    o.Fits doc state.cache := by
  induction h with
  | @start o' _ _ ho h =>
    have ho' := hpasses o' ho
    exact ho'.fits_iff.mp (ready_empty.highlight_fits (ho'.ignorePriors hpriors) h)
  | @advance o' _ _ _ _ _ _ ho hcache hnext ih =>
    -- the pass is that of another overlay, for which what is kept fits just as well
    have ho' := hpasses o' ho
    have hfits := ho'.fits_iff.mpr ih
    exact ho'.fits_iff.mp (hfits.proceed (ho'.ignorePriors hpriors) hcache hnext)

/-- **Coherence.**  What is kept agrees with the document. -/
structure Coherent (o : Overlay) (doc : Node) (cache : Cache) : Prop where
  /-- An entry is that of the node at its position. -/
  nodeAt : ∀ {pos : Nat} {entry : Entry}, cache.get? (.inner pos) = some entry →
    doc.nodeAt? pos = some entry.node
  /-- The node is one that is highlighted. -/
  target : ∀ {pos : Nat} {entry : Entry}, cache.get? (.inner pos) = some entry →
    ⟨entry.node, .inner pos⟩ ∈ doc.targets o.kinds
  /-- A tree is what the parser for the node makes of its text. -/
  tree : ∀ {pos : Nat} {entry : Entry} {tree : SyntaxTree},
    cache.get? (.inner pos) = some entry → entry.kept.tree = some tree →
      ∃ rule parser, o.rule = some rule ∧
        o.parsers.find? (rule.key entry.node) = some parser ∧
        ∀ prior, parser.parse entry.node.text prior = .ok tree
  /-- Strokes are those to which the node renders where it stands. -/
  strokes : ∀ {pos : Nat} {entry : Entry} {strokes : List Stroke},
    cache.get? (.inner pos) = some entry → entry.kept.strokes = some strokes →
      ∃ rule parser, o.rule = some rule ∧
        o.parsers.find? (rule.key entry.node) = some parser ∧
        ∀ prior, (render o.styling parser entry.node.text (.inner pos) prior).map (·.strokes) =
          .ok strokes
  /-- The root has no entry. -/
  root : cache.get? .root = none
  /-- No seeds are left. -/
  seedless : cache.seeds = ∅

/-- What a node renders to does not depend on the earlier tree that its parser is given. -/
theorem Renders.of_prior {target : Target} {r : Rendering} (hpriors : o.parsers.IgnorePriors)
    (h : o.Renders target r) :
    ∃ rule parser, o.rule = some rule ∧ o.parsers.find? (rule.key target.node) = some parser ∧
      (∀ prior, parser.parse target.node.text prior = .ok r.tree) ∧
      ∀ prior, (render o.styling parser target.node.text target.pos prior).map (·.strokes) =
        .ok r.strokes := by
  obtain ⟨rule, parser, hrule, hparser, hr⟩ := h
  obtain ⟨key, hkey⟩ := ParserTable.exists_of_find? hparser
  have hprior := hpriors key parser hkey
  refine ⟨rule, parser, hrule, hparser, fun prior => ?_, fun prior => ?_⟩
  · obtain ⟨tree, hparse, rfl⟩ := map_eq_ok_iff.mp hr
    rw [hprior, hparse]
  · rw [hprior.render_eq, hr]
    rfl

/-- **What is kept agrees with the document**, whatever the hosts decided on the way, whether
    they were the same all along or not. -/
theorem Follows.coherent (hpriors : o.parsers.IgnorePriors)
    (h : Follows o.SameButHost doc state) : o.Coherent doc state.cache := by
  have hfits := h.fits hpriors fun _ ho => ho
  refine ⟨?_, ?_, ?_, ?_, rfl, hfits.seedless⟩
  · intro pos entry hentry
    exact nodeAt?_of_mem_targets (hfits.target pos entry hentry)
  · intro pos entry hentry
    exact hfits.target pos entry hentry
  · intro pos entry tree hentry htree
    obtain ⟨r, hr, hkept⟩ := hfits.sound pos entry hentry
    obtain ⟨rule, parser, hrule, hparser, hparse, -⟩ := hr.of_prior hpriors
    rw [hkept] at htree
    rw [KeepPolicy.tree_of_keep htree]
    exact ⟨rule, parser, hrule, hparser, hparse⟩
  · intro pos entry strokes hentry hstrokes
    obtain ⟨r, hr, hkept⟩ := hfits.sound pos entry hentry
    obtain ⟨rule, parser, hrule, hparser, -, hpainted⟩ := hr.of_prior hpriors
    rw [hkept] at hstrokes
    rw [KeepPolicy.strokes_of_keep hstrokes]
    exact ⟨rule, parser, hrule, hparser, hpainted⟩

/-- A word is put in the paragraph of a note. -/
def noteRevision : Revision :=
  note.revise [.insertText 1 "new "]

/-- A note is highlighted, and after a revision the host has nothing highlighted.  The entry of
    the list goes along all the same. -/
theorem coherent_silenced :
    digitLists.parsers.IgnorePriors ∧
      ∃ state next, (digitLists.start note).2 = .ok state ∧
        (({ digitLists with ask := some fun _ _ _ => .use [] } : Overlay).advance state noteRevision
          noteRevision.doc).2 = .ok next ∧
        next.cache.positions = [8] ∧ digitLists.Coherent noteRevision.doc next.cache := by
  let silent : Overlay := { digitLists with ask := some fun _ _ _ => .use [] }
  obtain ⟨state, hstate⟩ : ∃ state, (digitLists.start note).2 = .ok state := ⟨_, rfl⟩
  -- the host gives strokes for each target, so the pass succeeds whatever `state` keeps
  obtain ⟨next, hnext⟩ :
      ∃ next, (silent.advance state noteRevision noteRevision.doc).2 = .ok next := ⟨_, rfl⟩
  refine ⟨ignorePriors_digitLists, state, next, hstate, hnext, ?_, ?_⟩
  · have hpositions : ((digitLists.start note).2.bind fun state =>
        (silent.advance state noteRevision noteRevision.doc).2.map
          (·.cache.positions)).toOption = some [8] := by
      decide +kernel
    rw [hstate, Except.bind, hnext] at hpositions
    exact Option.some.inj hpositions
  · exact Follows.coherent ignorePriors_digitLists
      (.advance (.start (SameButHost.of_eq rfl) hstate) ⟨silent.ask, silent.tell, rfl⟩
        (Cache.carried_carry _ _ _) hnext)

/-! ### What is shown -/

/-- After a revision that replaces something, the state is that of a first version. -/
theorem Fits.proceed_eq_start (hask : o.ask = none) (hpriors : o.parsers.IgnorePriors)
    (h : o.Fits doc state.cache)
    (hcache : state.cache.Carried (doc.revise steps) (doc.revise steps).doc cache)
    (hchanged : (doc.revise steps).changesDocument = true) :
    (o.proceed state.decorations cache (doc.revise steps) (doc.revise steps).doc).2 =
      (o.start (doc.revise steps).doc).2 := by
  rw [proceed_of_changed hchanged]
  exact (h.carried hcache).highlight_eq hask hpriors ready_empty

/-- After a revision that replaces nothing, the state is the one before. -/
theorem Fits.eq_of_proceed (hask : o.ask = none) (hpriors : o.parsers.IgnorePriors)
    (h : o.Fits doc state.cache) (hstart : (o.start doc).2 = .ok state)
    (hcache : state.cache.Carried (doc.revise steps) (doc.revise steps).doc cache)
    (hunchanged : (doc.revise steps).changesDocument = false)
    (hnext : (o.proceed state.decorations cache (doc.revise steps) (doc.revise steps).doc).2 =
      .ok next) : (doc.revise steps).doc = doc ∧ next = state := by
  obtain ⟨hdoc, rfl⟩ := h.eq_of_unchanged hcache hunchanged
  obtain ⟨hshifts, -⟩ := Revision.eq_of_unchanged hunchanged
  have hcarry : state.decorations.carry (doc.revise steps) = state.decorations := by
    -- no stroke is dropped, as none is empty, and none moves
    refine Decorations.carry_eq_self (fun pos bias => ?_) fun s hs =>
      sound_empty.lt_of_mem_highlight hask hpriors hstart hs
    show (Route.landThrough (doc.revise steps).route.shifts pos bias).pos = pos
    rw [hshifts]
    rfl
  rw [proceed_of_unchanged hunchanged, hcarry] at hnext
  cases hnext
  exact ⟨hdoc, rfl⟩

/-- All along a run, the state is that of a first version. -/
theorem Follows.start_eq (hask : o.ask = none) (hpriors : o.parsers.IgnorePriors)
    (h : Follows (· = o) doc state) : (o.start doc).2 = .ok state := by
  induction h with
  | start ho h =>
    subst ho
    exact h
  | @advance _ doc _ _ steps _ h ho hcache hnext ih =>
    subst ho
    have hfits := h.fits hpriors fun _ => SameButHost.of_eq
    cases hchanged : (doc.revise steps).changesDocument with
    | true =>
      rw [← hfits.proceed_eq_start hask hpriors hcache hchanged]
      exact hnext
    | false =>
      obtain ⟨hdoc, rfl⟩ := hfits.eq_of_proceed hask hpriors ih hcache hchanged hnext
      rw [hdoc]
      exact ih

/-- **Following a document is starting anew.**  Without a host that decides, each state is that
    of a first version: the same decorations, the same entries, and no seeds.  The next revision
    that replaces something leads where a first version leads, be it a state or a failure. -/
theorem Follows.state_eq_start (hask : o.ask = none) (hpriors : o.parsers.IgnorePriors)
    (h : Follows (· = o) doc state) :
    (o.start doc).2 = .ok state ∧ state.cache.seeds = ∅ ∧
      ∀ (steps : List Step) (cache : Cache),
        state.cache.Carried (doc.revise steps) (doc.revise steps).doc cache →
        (doc.revise steps).changesDocument = true →
        (o.proceed state.decorations cache (doc.revise steps) (doc.revise steps).doc).2 =
          (o.start (doc.revise steps).doc).2 := by
  have hfits : o.Fits doc state.cache := h.fits hpriors fun _ => SameButHost.of_eq
  refine ⟨h.start_eq hask hpriors, hfits.seedless, fun steps cache hcache hchanged => ?_⟩
  exact hfits.proceed_eq_start hask hpriors hcache hchanged

/-- A note is followed through one revision, and another one replaces the digit of its list. -/
theorem state_eq_start_twice :
    digitLists.ask = none ∧ digitLists.parsers.IgnorePriors ∧
      ∃ state next, (digitLists.start note).2 = .ok state ∧
        (digitLists.advance state noteRevision noteRevision.doc).2 = .ok next ∧
        (digitLists.start noteRevision.doc).2 = .ok next ∧ next.cache.seeds = ∅ ∧
        ∃ r : Revision, r = noteRevision.doc.revise [.replace 10 11 (.text "2")] ∧
          r.changesDocument = true ∧
          (digitLists.advance next r r.doc).2 = (digitLists.start r.doc).2 ∧
          ((digitLists.start r.doc).2.map (·.decorations.strokes)).toOption =
            some [⟨10, 11, "tok-number"⟩] := by
  obtain ⟨state, hstate⟩ : ∃ state, (digitLists.start note).2 = .ok state := ⟨_, rfl⟩
  obtain ⟨next, hstart⟩ : ∃ next, (digitLists.start noteRevision.doc).2 = .ok next := ⟨_, rfl⟩
  have hnext : (digitLists.advance state noteRevision noteRevision.doc).2 = .ok next := by
    rw [← hstart]
    exact (ready_empty.highlight_fits ignorePriors_digitLists hstate).proceed_eq_start rfl
      ignorePriors_digitLists (Cache.carried_carry _ _ _) rfl
  obtain ⟨heq, hseeds, hfurther⟩ := Follows.state_eq_start rfl ignorePriors_digitLists
    (.advance (.start rfl hstate) rfl (Cache.carried_carry _ _ _) hnext)
  exact ⟨rfl, ignorePriors_digitLists, state, next, hstate, hnext, heq, hseeds, _, rfl, rfl,
    hfurther _ _ (Cache.carried_carry _ _ _) rfl, by decide +kernel⟩

end CodeOverlay.Overlay
