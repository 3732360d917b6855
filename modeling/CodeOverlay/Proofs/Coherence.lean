import CodeOverlay.Proofs.Carrying
import CodeOverlay.Proofs.Passes

namespace CodeOverlay

/-!
# Entries that can be trusted

An entry of a cache is never used for anything but its own node at its own position.  So all
that matters is that each entry is the rendering of its own node where it stands, and this says
nothing of any document: it survives whatever a change claims to have moved where.

* `Overlay.Sound` — each entry is the rendering of its own node at its own position;
* `Sound.carried`, `Sound.highlight` — changes and passes keep a cache sound;
* `Sound.highlight_decorations` — sound caches all lead to the same decorations;
* `Overlay.ReachedAnyhow` — states reached by changes of which nothing is known;
* `ReachedAnyhow.decorations_eq_start` — their decorations are those of a first version.
-/

/-! ### Moving along -/

/-- The strokes of a node that moves along are those of the node where it comes to stand. -/
theorem Stroke.follow_shift (old new : Nat) (s : Stroke) :
    (s.shift (old + 1)).follow old new = s.shift (new + 1) := by
  simp only [Stroke.shift, Stroke.follow, Stroke.mk.injEq, and_true]
  omega

/-- The rendering of a node after the node moved from `old` to `new`. -/
def Rendering.follow (old new : Nat) (r : Rendering) : Rendering :=
  { r with strokes := r.strokes.map (·.follow old new) }

/-- What is kept of a rendering goes along with it. -/
theorem KeepPolicy.follow_keep (policy : KeepPolicy) (old new : Nat) (r : Rendering) :
    (policy.keep r).follow old new = policy.keep (r.follow old new) := by
  cases policy <;> rfl

/-- Kept strokes are those of the rendering. -/
theorem KeepPolicy.strokes_of_keep {policy : KeepPolicy} {r : Rendering} {strokes : List Stroke}
    (h : (policy.keep r).strokes = some strokes) : strokes = r.strokes := by
  cases policy with
  | tree => cases h
  | strokes => exact (Option.some.inj h).symm
  | both => exact (Option.some.inj h).symm

/-- A kept tree is that of the rendering. -/
theorem KeepPolicy.tree_of_keep {policy : KeepPolicy} {r : Rendering} {tree : SyntaxTree}
    (h : (policy.keep r).tree = some tree) : tree = r.tree := by
  cases policy with
  | tree => exact (Option.some.inj h).symm
  | strokes => cases h
  | both => exact (Option.some.inj h).symm

namespace Overlay

variable {o : Overlay} {rule : LanguageRule} {target : Target} {targets : List Target}
variable {cache cache' old final : Cache} {r : Rendering} {doc node : Node} {p q : Nat}
variable {strokes : List Stroke} {outcome : Outcome} {state next : OverlayState}

/-- Where a node stands makes no difference to how it renders, up to the positions. -/
theorem Renders.follow (h : o.Renders ⟨node, .inner p⟩ r) :
    o.Renders ⟨node, .inner q⟩ (r.follow p q) := by
  obtain ⟨rule, parser, hrule, hparser, hr⟩ := h
  obtain ⟨tree, htree, rfl⟩ := map_eq_ok_iff.mp hr
  refine ⟨rule, parser, hrule, hparser, map_eq_ok_iff.mpr ⟨tree, htree, ?_⟩⟩
  simp only [Rendering.follow, Rendering.mk.injEq, List.map_map, and_true]
  exact List.map_congr_left fun s _ => (Stroke.follow_shift p q s).symm

/-! ### Sound caches -/

/-- Each entry is what is kept of the rendering of its own node at its own position. -/
def Sound (o : Overlay) (cache : Cache) : Prop :=
  ∀ (pos : Nat) (entry : Entry), cache.entries[pos]? = some entry →
    ∃ r, o.Renders ⟨entry.node, .inner pos⟩ r ∧ entry.kept = o.policy.keep r

theorem sound_empty : o.Sound .empty := by
  intro pos entry h
  simp [Cache.empty] at h

/-- Seeds do not count. -/
theorem Sound.dropSeeds (h : o.Sound cache) : o.Sound cache.dropSeeds :=
  h

/-- **Any change keeps a cache sound**, whatever it claims of the positions and of the document
    that it led to. -/
theorem Sound.carried {μ : Type} [Carrier μ] {carrier : μ} (h : o.Sound old)
    (hcache : old.Carried carrier doc cache) : o.Sound cache := by
  intro q e' he'
  obtain ⟨p, e, he, hfate⟩ := hcache.exists_of_entry he'
  obtain ⟨-, -, rfl⟩ := Cache.fate_eq_kept_iff.mp hfate
  obtain ⟨r, hr, hkept⟩ := h p e he
  -- whether the node really moved from `p` to `q` does not matter: the strokes go along
  refine ⟨r.follow p q, hr.follow, ?_⟩
  rw [hkept, KeepPolicy.follow_keep]

/-- A cache stays sound when the rendering of a node is put in it. -/
theorem Sound.set (h : o.Sound cache) (hr : o.Renders target r) :
    o.Sound (cache.set target.pos ⟨target.node, o.policy.keep r⟩) := by
  intro pos entry hentry
  rw [Cache.set_entries] at hentry
  split at hentry
  · rename_i hpos
    cases hentry
    exact ⟨r, hpos ▸ hr, rfl⟩
  · exact h pos entry hentry

theorem Sound.update (hpriors : o.parsers.IgnorePriors) (hrule : o.rule = some rule)
    (h : o.Sound cache) (hvisit : (o.visit rule cache target).2 = .ok outcome) :
    o.Sound (outcome.update o.policy target cache) :=
  update_preserves hpriors hrule (fun _ hr => h.set hr) h hvisit

/-- **A pass keeps a cache sound**, whatever the host decides. -/
theorem Sound.visitAll (hpriors : o.parsers.IgnorePriors) (hrule : o.rule = some rule)
    (h : o.Sound cache) (hpass : (o.visitAll rule cache targets).2 = .ok (strokes, final)) :
    o.Sound final :=
  visitAll_preserves hpriors hrule (fun _ _ _ _ h hr => h.set hr) h hpass

theorem Sound.highlight (hpriors : o.parsers.IgnorePriors) (h : o.Sound cache)
    (hnext : (o.highlight (some doc) cache).2 = .ok next) : o.Sound next.cache := by
  obtain ⟨-, hidle⟩ | ⟨rule, hrule, hpass⟩ := o.highlight_cases doc
  · cases (hidle cache).symm.trans hnext
    exact h
  · rw [hpass] at hnext
    obtain ⟨⟨strokes, final⟩, hfinal, rfl⟩ := map_eq_ok_iff.mp hnext
    exact (h.visitAll hpriors hrule hfinal).dropSeeds

/-! ### Decorations -/

/-- What is kept of a node is in the entry at its position.  An entry of another node does not
    count. -/
theorem kept?_eq_some_iff {kept : Kept} :
    kept? cache target = some kept ↔
      ∃ pos, target.pos = .inner pos ∧ cache.entries[pos]? = some ⟨target.node, kept⟩ := by
  constructor
  · intro h
    obtain ⟨entry, hfilter, rfl⟩ := Option.map_eq_some_iff.mp h
    obtain ⟨hget, hnode⟩ := Option.filter_eq_some_iff.mp hfilter
    cases hpos : target.pos with
    | root => simp [Cache.get?, hpos, Spot.offset?] at hget
    | inner pos =>
      refine ⟨pos, rfl, ?_⟩
      rw [hpos] at hget
      rw [← of_decide_eq_true hnode]
      exact hget
  · intro h
    obtain ⟨pos, hpos, hentry⟩ := h
    simp [kept?, Cache.get?, hpos, Spot.offset?, hentry]

/-- Strokes at hand are those of the node. -/
theorem Sound.renders_of_use (h : o.Sound cache) (hask : o.ask = none)
    (huse : o.decision target (kept? cache target) = .use strokes) :
    ∃ r, o.Renders target r ∧ strokes = r.strokes := by
  -- they come from an entry of this very node at this very position
  obtain ⟨kept, hkept, hpainted⟩ := Option.bind_eq_some_iff.mp ((decision_eq_use_iff hask).mp huse)
  obtain ⟨pos, hpos, hentry⟩ := kept?_eq_some_iff.mp hkept
  obtain ⟨r, hr, rfl⟩ := h pos _ hentry
  refine ⟨r, ?_, KeepPolicy.strokes_of_keep hpainted⟩
  rw [← hpos] at hr
  exact hr

/-- Without a host that decides, a node contributes the strokes of its rendering. -/
theorem Sound.visit_strokes (hask : o.ask = none) (hpriors : o.parsers.IgnorePriors)
    (hrule : o.rule = some rule) (h : o.Sound cache) :
    (o.visit rule cache target).2.map (·.strokes) =
      (o.renderTarget rule target none).2.map (·.strokes) := by
  obtain ⟨strokes, huse, hvisit⟩ | ⟨-, hvisit⟩ := o.visit_cases hpriors rule cache target
  · obtain ⟨r, hr, rfl⟩ := h.renders_of_use hask huse
    rw [hvisit, (renderTarget_eq_rendered_iff hrule).mpr hr]
    rfl
  · rw [hvisit]

/-- Two sound caches lead a pass to the same strokes. -/
theorem Sound.visitAll_strokes (hask : o.ask = none) (hpriors : o.parsers.IgnorePriors)
    (hrule : o.rule = some rule) (h : o.Sound cache) (h' : o.Sound cache') :
    (o.visitAll rule cache targets).2.map (·.1) =
      (o.visitAll rule cache' targets).2.map (·.1) := by
  induction targets generalizing cache cache' with
  | nil => rfl
  | cons target targets ih =>
    have hstep : (o.visit rule cache target).2.map (·.strokes) =
        (o.visit rule cache' target).2.map (·.strokes) :=
      (h.visit_strokes hask hpriors hrule).trans (h'.visit_strokes hask hpriors hrule).symm
    -- from here on the caches may differ in other ways, but both are sound still
    rw [visitAll_cons_strokes, visitAll_cons_strokes]
    refine bind_eq_bind_of_map_eq hstep fun outcome outcome' hvisit hvisit' hstrokes => ?_
    rw [ih (h.update hpriors hrule hvisit) (h'.update hpriors hrule hvisit'), hstrokes]

/-- **The cache does not show in the decorations.**  Two sound caches lead to the same ones, or
    to the same failure. -/
theorem Sound.highlight_decorations (hask : o.ask = none) (hpriors : o.parsers.IgnorePriors)
    (h : o.Sound cache) (h' : o.Sound cache') :
    (o.highlight (some doc) cache).2.map (·.decorations) =
      (o.highlight (some doc) cache').2.map (·.decorations) := by
  obtain ⟨-, hidle⟩ | ⟨rule, hrule, hpass⟩ := o.highlight_cases doc
  · rw [hidle, hidle]
    rfl
  · have hmap : ∀ result : Except ParserError (List Stroke × Cache),
        (result.map fun pass =>
            (⟨pass.2.dropSeeds, .ofStrokes pass.1⟩ : OverlayState)).map (·.decorations) =
          (result.map (·.1)).map .ofStrokes := by
      intro result
      cases result <;> rfl
    rw [hpass, hpass, hmap, hmap, h.visitAll_strokes hask hpriors hrule h']

/-! ### Lists of digits -/

/-- A grammar of lists of digits.  Each character is an item, and the digits are numbers. -/
def digitList : Grammar where
  parse text _ _ :=
    let all : ByteRange := ⟨0, text.utf8ByteSize⟩
    let items := text.toList.zipIdx.map fun (c, i) =>
      SyntaxNode.node (if c.isDigit then "number" else c.toString) ⟨i, i + 1⟩ []
    let numbers := items.filter (·.kind = "number")
    some {
      root := .node "document" all [.node "array" all items]
      shape := "(document (array" ++ String.join (numbers.map fun _ => " (number)") ++ "))"
      captures := numbers.map fun n => ⟨n.range.start, n.range.stop, "number"⟩ }

/-- An overlay that highlights lists of digits. -/
def digitLists : Overlay where
  parsers := ({} : ParserTable).insert "json"
    (GrammarParser.toParser ⟨"json", { primary := digitList }⟩)

/-- A paragraph and a list of digits. -/
def note : Node :=
  .doc [.paragraph "ab", .codeBlock "json" "[1]"]

theorem ignorePriors_digitLists : digitLists.parsers.IgnorePriors :=
  ParserTable.ignorePriors_empty.insert
    (GrammarParser.ignoresPrior (fun _ _ _ => rfl) (fun _ h => nomatch h))

/-! ### Changes of which nothing is known -/

/-- The states that are reached from a first version of some document.  Nothing is asked of a
    change: neither that it leads from the one document to the other, nor that it knows whether
    the document changed. -/
inductive ReachedAnyhow (o : Overlay) : OverlayState → Prop
  /-- The state for a first version. -/
  | start {doc : Node} {state : OverlayState} (h : (o.start doc).2 = .ok state) :
      ReachedAnyhow o state
  /-- The state after one more change. -/
  | advance {state next : OverlayState} {μ : Type} [Carrier μ] {carrier : μ} {doc : Node}
      {cache : Cache} (h : ReachedAnyhow o state) (hcache : state.cache.Carried carrier doc cache)
      (hnext : (o.proceed state.decorations cache carrier doc).2 = .ok next) :
      ReachedAnyhow o next

/-- A change keeps a cache sound, whether a pass follows it or not. -/
theorem Sound.proceed {μ : Type} [Carrier μ] {carrier : μ} {decorations : Decorations}
    (hpriors : o.parsers.IgnorePriors) (h : o.Sound cache)
    (hnext : (o.proceed decorations cache carrier doc).2 = .ok next) : o.Sound next.cache := by
  cases hchanged : Carrier.changesDocument carrier with
  | true =>
    rw [proceed_of_changed hchanged] at hnext
    exact h.highlight hpriors hnext
  | false =>
    rw [proceed_of_unchanged hchanged] at hnext
    cases hnext
    exact h

/-- No change ever makes an entry wrong. -/
theorem ReachedAnyhow.sound (hpriors : o.parsers.IgnorePriors) (h : o.ReachedAnyhow state) :
    o.Sound state.cache := by
  induction h with
  | start h => exact sound_empty.highlight hpriors h
  | advance _ hcache hnext ih => exact (ih.carried hcache).proceed hpriors hnext

/-- **Positions decide what is used again, not what is shown.**  After a change of the document
    the decorations are those of a first version of it, however the change carries positions and
    whatever came before. -/
theorem ReachedAnyhow.decorations_eq_start {μ : Type} [Carrier μ] {carrier : μ}
    (hask : o.ask = none) (hpriors : o.parsers.IgnorePriors) (h : o.ReachedAnyhow state)
    (hcache : state.cache.Carried carrier doc cache)
    (hchanged : Carrier.changesDocument carrier = true) :
    (o.proceed state.decorations cache carrier doc).2.map (·.decorations) =
      (o.start doc).2.map (·.decorations) := by
  rw [proceed_of_changed hchanged]
  exact ((h.sound hpriors).carried hcache).highlight_decorations hask hpriors sound_empty

/-- The list of a note moves in front of the paragraph, while the change claims that the paragraph
    was deleted. -/
theorem decorations_eq_start_misled :
    digitLists.ask = none ∧ digitLists.parsers.IgnorePriors ∧
      Carrier.changesDocument (Shift.splice 0 4 0) = true ∧
      ∃ state, (digitLists.start note).2 = .ok state ∧
        (digitLists.advance state (Shift.splice 0 4 0)
            (.doc [.codeBlock "json" "[1]", .paragraph "ab"])).2.map (·.decorations) =
          (digitLists.start (.doc [.codeBlock "json" "[1]", .paragraph "ab"])).2.map
            (·.decorations) ∧
        ((digitLists.start (.doc [.codeBlock "json" "[1]", .paragraph "ab"])).2.map
            (·.decorations.strokes)).toOption = some [⟨2, 3, "tok-number"⟩] := by
  obtain ⟨state, hstate⟩ : ∃ state, (digitLists.start note).2 = .ok state := ⟨_, rfl⟩
  refine ⟨rfl, ignorePriors_digitLists, rfl, state, hstate, ?_, by decide +kernel⟩
  exact ReachedAnyhow.decorations_eq_start rfl ignorePriors_digitLists (.start hstate)
    (Cache.carried_carry _ _ _) rfl

end Overlay

end CodeOverlay
