import Mathlib.Data.List.Nodup
import CodeOverlay.Proofs.Coherence
import CodeOverlay.Proofs.Strokes

namespace CodeOverlay

/-!
# Each target by itself

A pass reads a cache and writes to it as it goes.  As no two targets stand at the same place, none
of them meets what another one left, and the pass comes to the same as handling each target with
the cache that the pass began with.

* `Overlay.Handles` — what is done with a single node;
* `Overlay.handles_iff_visit` — that is what a visit does;
* `Overlay.visitAll_handled` — a pass over nodes of which each is handled by itself;
* `Overlay.exists_handled` — either all nodes can be handled, or there is a first one that fails;
* `Overlay.exists_handled_of_ok` — a pass that does not fail has handled each node;
* `Overlay.highlight_each` — a pass over a document.
-/

namespace Overlay

variable {o : Overlay} {rule : LanguageRule} {cache : Cache} {doc : Node} {target : Target}
variable {rest : List Target} {events : List Event} {result : Except ParserError Outcome}

/-! ### A single node -/

/-- `kept` is what a cache keeps of a node, in an entry of this very node at its place.  An entry of
    another node does not count, and the root has none. -/
def Keeps (cache : Cache) (target : Target) (kept : Option Kept) : Prop :=
  ∀ k, kept = some k ↔ ∃ p, target.pos = .inner p ∧ cache.entries[p]? = some ⟨target.node, k⟩

theorem keeps_iff {kept : Option Kept} : Keeps cache target kept ↔ kept? cache target = kept := by
  constructor
  · intro h
    apply Option.ext
    intro k
    exact kept?_eq_some_iff.trans (h k).symm
  · rintro rfl k
    exact kept?_eq_some_iff

/-- A node is rendered starting from `prior`, if that is the decision. -/
inductive StartsFrom (cache : Cache) (target : Target) (kept : Option Kept) :
    Decision → Option SyntaxTree → Prop
  /-- It is rendered from the tree that is kept of it, or else from the seed at its place. -/
  | render : StartsFrom cache target kept .render
      (kept.bind (·.tree) <|> cache.seed? target.pos)
  /-- It is rendered from scratch. -/
  | renderAfresh : StartsFrom cache target kept .renderAfresh none

/-- What is done with a node, given a cache: what others observe and what comes of it. -/
inductive Handles (o : Overlay) (rule : LanguageRule) (cache : Cache) (target : Target) :
    List Event → Except ParserError Outcome → Prop
  /-- Strokes are used.  No parser is called and the host is told nothing. -/
  | use {kept : Option Kept} {strokes : List Stroke} (hkept : Keeps cache target kept)
      (hdecision : o.decision target kept = .use strokes) :
      Handles o rule cache target (o.preEvents target kept) (.ok (.reused strokes))
  /-- There is no parser for the node. -/
  | pass {kept : Option Kept} {prior : Option SyntaxTree} (hkept : Keeps cache target kept)
      (hprior : StartsFrom cache target kept (o.decision target kept) prior)
      (hparser : o.parsers.find? (rule.key target.node) = none) :
      Handles o rule cache target (o.preEvents target kept) (.ok .noParser)
  /-- The parser of the node fails. -/
  | fail {kept : Option Kept} {prior : Option SyntaxTree} {parser : Parser} {e : ParserError}
      (hkept : Keeps cache target kept)
      (hprior : StartsFrom cache target kept (o.decision target kept) prior)
      (hparser : o.parsers.find? (rule.key target.node) = some parser)
      (hrender : CodeOverlay.render o.styling parser target.node.text target.pos prior = .error e) :
      Handles o rule cache target
        (o.preEvents target kept ++ [.parse parser.language target.node.text prior]) (.error e)
  /-- The node is rendered, and the host is told of its strokes. -/
  | render {kept : Option Kept} {prior : Option SyntaxTree} {parser : Parser} {r : Rendering}
      (hkept : Keeps cache target kept)
      (hprior : StartsFrom cache target kept (o.decision target kept) prior)
      (hparser : o.parsers.find? (rule.key target.node) = some parser)
      (hrender : CodeOverlay.render o.styling parser target.node.text target.pos prior = .ok r) :
      Handles o rule cache target
        (o.preEvents target kept ++
          .parse parser.language target.node.text prior :: o.postEvents target r.strokes)
        (.ok (.rendered r))

/-- A visit that renders a node does so from the tree that the decision leaves. -/
theorem visit_of_startsFrom {prior : Option SyntaxTree}
    (h : StartsFrom cache target (kept? cache target)
      (o.decision target (kept? cache target)) prior) :
    o.visit rule cache target =
      (o.preEvents target (kept? cache target) ++ (o.renderTarget rule target prior).1,
        (o.renderTarget rule target prior).2) := by
  unfold visit
  dsimp only
  generalize o.decision target (kept? cache target) = decision at h ⊢
  cases h <;> rfl

/-- A visit does with a node what is done with it. -/
theorem Handles.visit_eq (h : o.Handles rule cache target events result) :
    o.visit rule cache target = (events, result) := by
  cases h with
  | use hkept hdecision =>
    obtain rfl := keeps_iff.mp hkept
    simp [visit, hdecision]
  | pass hkept hprior hparser =>
    obtain rfl := keeps_iff.mp hkept
    rw [visit_of_startsFrom hprior]
    simp [renderTarget, hparser]
  | fail hkept hprior hparser hrender =>
    obtain rfl := keeps_iff.mp hkept
    rw [visit_of_startsFrom hprior]
    simp [renderTarget, hparser, hrender]
  | render hkept hprior hparser hrender =>
    obtain rfl := keeps_iff.mp hkept
    rw [visit_of_startsFrom hprior]
    simp [renderTarget, hparser, hrender]

/-- Something is done with each node. -/
theorem handles_visit (o : Overlay) (rule : LanguageRule) (cache : Cache) (target : Target) :
    o.Handles rule cache target (o.visit rule cache target).1 (o.visit rule cache target).2 := by
  have hkept : Keeps cache target (kept? cache target) := keeps_iff.mpr rfl
  have hrender : ∀ prior, StartsFrom cache target (kept? cache target)
      (o.decision target (kept? cache target)) prior →
        o.Handles rule cache target (o.visit rule cache target).1 (o.visit rule cache target).2 := by
    intro prior hprior
    rw [visit_of_startsFrom hprior, renderTarget]
    cases hparser : o.parsers.find? (rule.key target.node) with
    | none =>
      rw [List.append_nil]
      exact .pass hkept hprior hparser
    | some parser =>
      dsimp only
      cases hresult : CodeOverlay.render o.styling parser target.node.text target.pos prior with
      | error e => exact .fail hkept hprior hparser hresult
      | ok r => exact .render hkept hprior hparser hresult
  cases hdecision : o.decision target (kept? cache target) with
  | use strokes =>
    have hvisit : o.visit rule cache target =
        (o.preEvents target (kept? cache target), .ok (.reused strokes)) := by
      simp [visit, hdecision]
    rw [hvisit]
    exact .use hkept hdecision
  | render =>
    apply hrender
    rw [hdecision]
    exact .render
  | renderAfresh =>
    apply hrender
    rw [hdecision]
    exact .renderAfresh

/-- **A single node.**  Just one thing is done with it, and that is what a visit does. -/
theorem handles_iff_visit :
    o.Handles rule cache target events result ↔ o.visit rule cache target = (events, result) := by
  constructor
  · exact Handles.visit_eq
  · intro h
    have := o.handles_visit rule cache target
    rw [h] at this
    exact this

/-- What is done with a node depends on its own place in the cache only. -/
theorem Handles.congr {cache' : Cache} (h : o.Handles rule cache target events result)
    (hget : cache'.get? target.pos = cache.get? target.pos)
    (hseed : cache'.seed? target.pos = cache.seed? target.pos) :
    o.Handles rule cache' target events result := by
  rw [handles_iff_visit, visit_congr hget hseed]
  exact h.visit_eq

end Overlay

/-! ### Several nodes -/

/-- A node with what was done with it. -/
structure Handled where
  /-- The node. -/
  target : Target
  /-- What others observed. -/
  events : List Event
  /-- What came of it. -/
  outcome : Outcome

namespace Handled

variable {policy : KeepPolicy} {cache : Cache} {v : Handled} {all : List Handled} {p : Nat}
variable {r : Rendering}

/-- The cache after the node. -/
def update (policy : KeepPolicy) (cache : Cache) (v : Handled) : Cache :=
  v.outcome.update policy v.target cache

/-- The cache is left as it is where nothing is rendered. -/
theorem foldl_update_of_not_rendered
    (h : ∀ v ∈ all, ∀ r, v.target.pos = .inner p → v.outcome ≠ .rendered r) :
    (all.foldl (update policy) cache).entries[p]? = cache.entries[p]? := by
  induction all generalizing cache with
  | nil => rfl
  | cons v all ih =>
    rw [List.foldl_cons, ih fun w hw => h w (List.mem_cons_of_mem v hw), update]
    cases houtcome : v.outcome with
    | reused => rfl
    | noParser => rfl
    | rendered r =>
      have hpos : v.target.pos ≠ .inner p := by
        intro hpos
        exact h v List.mem_cons_self r hpos houtcome
      rw [Outcome.update, Cache.set_entries, if_neg hpos]

/-- A node is given by its place. -/
theorem eq_of_pos {w : Handled} (hdistinct : all.Pairwise (·.target.pos ≠ ·.target.pos))
    (hv : v ∈ all) (hw : w ∈ all) (hpos : v.target.pos = w.target.pos) : v = w := by
  have hnodup : (all.map (·.target.pos)).Nodup := List.pairwise_map.mpr hdistinct
  exact List.inj_on_of_nodup_map hnodup hv hw hpos

/-- A rendering is kept, as it is not overwritten by another one. -/
theorem foldl_update_of_rendered (hdistinct : all.Pairwise (·.target.pos ≠ ·.target.pos))
    (hv : v ∈ all) (hpos : v.target.pos = .inner p) (houtcome : v.outcome = .rendered r) :
    (all.foldl (update policy) cache).entries[p]? = some ⟨v.target.node, policy.keep r⟩ := by
  induction all generalizing cache with
  | nil => cases hv
  | cons w all ih =>
    obtain ⟨hfirst, hdistinct⟩ := List.pairwise_cons.mp hdistinct
    rw [List.foldl_cons]
    rcases List.mem_cons.mp hv with rfl | hv
    · rw [foldl_update_of_not_rendered]
      · rw [update, houtcome, Outcome.update, Cache.set_entries, if_pos hpos]
      · intro w hw r hwpos
        exact absurd (hpos.trans hwpos.symm) (hfirst w hw)
    · exact ih hdistinct hv

end Handled

/-- A cache after the given nodes were handled, in the place of an earlier one. -/
structure Cache.Overwrites (policy : KeepPolicy) (handled : List Handled) (old cache : Cache) :
    Prop where
  /-- What is kept of a rendering is in the entry of its node. -/
  rendered : ∀ v ∈ handled, ∀ p r, v.target.pos = .inner p → v.outcome = .rendered r →
    cache.entries[p]? = some ⟨v.target.node, policy.keep r⟩
  /-- Other entries stay. -/
  others : ∀ p, (∀ v ∈ handled, ∀ r, v.target.pos = .inner p → v.outcome ≠ .rendered r) →
    cache.entries[p]? = old.entries[p]?
  /-- The seeds are used up. -/
  seeds : cache.seeds = ∅

namespace Overlay

variable {o : Overlay} {rule : LanguageRule} {cache : Cache} {doc : Node} {target : Target}
variable {rest : List Target} {events : List Event} {result : Except ParserError Outcome}
variable {handled : List Handled} {e : ParserError}

/-- What was done with each of the nodes, given the cache, without a failure. -/
def HandlesAll (o : Overlay) (rule : LanguageRule) (cache : Cache) (handled : List Handled) : Prop :=
  ∀ v ∈ handled, o.Handles rule cache v.target v.events (.ok v.outcome)

/-- **Either all nodes can be handled, each by itself, or there is a first one that fails.** -/
theorem exists_handled (o : Overlay) (rule : LanguageRule) (cache : Cache) (targets : List Target) :
    (∃ handled, handled.map (·.target) = targets ∧ o.HandlesAll rule cache handled) ∨
      ∃ handled target rest events e, handled.map (·.target) ++ target :: rest = targets ∧
        o.HandlesAll rule cache handled ∧ o.Handles rule cache target events (.error e) := by
  induction targets with
  | nil => exact .inl ⟨[], rfl, nofun⟩
  | cons target targets ih =>
    have hhandles := o.handles_visit rule cache target
    cases hresult : (o.visit rule cache target).2 with
    | error e =>
      rw [hresult] at hhandles
      exact .inr ⟨[], target, targets, _, e, rfl, nofun, hhandles⟩
    | ok outcome =>
      rw [hresult] at hhandles
      have hcons : ∀ handled, o.HandlesAll rule cache handled →
          o.HandlesAll rule cache (⟨target, _, outcome⟩ :: handled) :=
        fun handled hall => List.forall_mem_cons.mpr ⟨hhandles, hall⟩
      obtain ⟨handled, rfl, hall⟩ | ⟨handled, later, rest, events, e, rfl, hall, hfail⟩ := ih
      · exact .inl ⟨_, rfl, hcons handled hall⟩
      · exact .inr ⟨_, later, rest, events, e, rfl, hcons handled hall, hfail⟩

/-- What is done with a node is not changed by nodes at other places. -/
theorem Handles.after (h : o.Handles rule cache target events result)
    (hpos : ∀ v ∈ handled, target.pos ≠ v.target.pos) :
    o.Handles rule (handled.foldl (Handled.update o.policy) cache) target events result := by
  induction handled generalizing cache with
  | nil => exact h
  | cons v handled ih =>
    obtain ⟨hv, hpos⟩ := List.forall_mem_cons.mp hpos
    exact ih (h.congr (update_get? hv v.outcome) (update_seed? target.pos v.outcome)) hpos

/-- **Nodes at different places** are handled one after the other as each would be by itself, given
    the cache at the beginning. -/
theorem visitAll_handled
    (hdistinct : (handled.map (·.target) ++ rest).Pairwise (·.pos ≠ ·.pos))
    (hall : o.HandlesAll rule cache handled) :
    o.visitAll rule cache (handled.map (·.target) ++ rest) =
      (handled.flatMap (·.events) ++
          (o.visitAll rule (handled.foldl (Handled.update o.policy) cache) rest).1,
        (o.visitAll rule (handled.foldl (Handled.update o.policy) cache) rest).2.map
          fun (strokes, final) => (handled.flatMap (·.outcome.strokes) ++ strokes, final)) := by
  induction handled generalizing cache with
  | nil =>
    show o.visitAll rule cache rest =
      ((o.visitAll rule cache rest).1, (o.visitAll rule cache rest).2.map _)
    rcases o.visitAll rule cache rest with ⟨events, result⟩
    cases result <;> rfl
  | cons v handled ih =>
    obtain ⟨hv, hall⟩ := List.forall_mem_cons.mp hall
    obtain ⟨hfirst, hdistinct⟩ := List.pairwise_cons.mp hdistinct
    -- what the node leaves is at its own place, so the others are handled as before
    have hlater : o.HandlesAll rule (v.update o.policy cache) handled := by
      intro w hw
      have hmem : w.target ∈ handled.map (·.target) ++ rest :=
        List.mem_append_left _ (List.mem_map_of_mem hw)
      have hpos : ∀ u ∈ [v], w.target.pos ≠ u.target.pos := by
        simpa using (hfirst w.target hmem).symm
      exact (hall w hw).after hpos
    rw [List.map_cons, List.cons_append, visitAll_cons_of_ok hv.visit_eq]
    show (_ ++ (o.visitAll rule (v.update o.policy cache) _).1,
      (o.visitAll rule (v.update o.policy cache) _).2.map _) = _
    rw [ih hdistinct hlater, List.foldl_cons, List.flatMap_cons, List.flatMap_cons,
      List.append_assoc]
    congr 1
    cases (o.visitAll rule _ rest).2 with
    | error e => rfl
    | ok pass => simp [Except.map]

/-- A pass over nodes of which each can be handled. -/
theorem visitAll_of_handled (hdistinct : (handled.map (·.target)).Pairwise (·.pos ≠ ·.pos))
    (hall : o.HandlesAll rule cache handled) :
    o.visitAll rule cache (handled.map (·.target)) =
      (handled.flatMap (·.events),
        .ok (handled.flatMap (·.outcome.strokes),
          handled.foldl (Handled.update o.policy) cache)) := by
  rw [← List.append_nil (handled.map _)] at hdistinct
  have hvisits := visitAll_handled hdistinct hall
  rw [List.append_nil] at hvisits
  simp [hvisits, visitAll, Except.map]

/-- A pass over nodes of which one fails. -/
theorem visitAll_of_failed
    (hdistinct : (handled.map (·.target) ++ target :: rest).Pairwise (·.pos ≠ ·.pos))
    (hall : o.HandlesAll rule cache handled) (hfail : o.Handles rule cache target events (.error e)) :
    o.visitAll rule cache (handled.map (·.target) ++ target :: rest) =
      (handled.flatMap (·.events) ++ events, .error e) := by
  -- no node before the target stands at its place
  have hfail : o.Handles rule (handled.foldl (Handled.update o.policy) cache) target events
      (.error e) := by
    apply hfail.after
    intro v hv hpos
    have hmem : v.target ∈ handled.map (·.target) := List.mem_map_of_mem hv
    exact (List.pairwise_append.mp hdistinct).2.2 _ hmem _ List.mem_cons_self hpos.symm
  rw [visitAll_handled hdistinct hall, visitAll_cons_of_error hfail.visit_eq]
  rfl

/-- **A pass that does not fail** has handled each node. -/
theorem exists_handled_of_ok {targets : List Target} {pass : List Stroke × Cache}
    (hdistinct : targets.Pairwise (·.pos ≠ ·.pos))
    (hpass : (o.visitAll rule cache targets).2 = .ok pass) :
    ∃ handled, handled.map (·.target) = targets ∧ o.HandlesAll rule cache handled ∧
      o.visitAll rule cache targets =
        (handled.flatMap (·.events),
          .ok (handled.flatMap (·.outcome.strokes),
            handled.foldl (Handled.update o.policy) cache)) := by
  obtain ⟨handled, rfl, hall⟩ | ⟨handled, target, rest, events, e, rfl, hall, hfail⟩ :=
    o.exists_handled rule cache targets
  · exact ⟨handled, rfl, hall, visitAll_of_handled hdistinct hall⟩
  · rw [visitAll_of_failed hdistinct hall hfail] at hpass
    cases hpass

/-! ### A document -/

/-- A pass over a document in which each target can be handled. -/
theorem highlight_handled (hrule : o.rule = some rule) (hcontent : doc.contentSize ≠ 0)
    (hkinds : o.kinds.isEmpty = false) (htargets : handled.map (·.target) = doc.targets o.kinds)
    (hall : o.HandlesAll rule cache handled) :
    o.highlight (some doc) cache =
      (handled.flatMap (·.events),
        .ok ⟨(handled.foldl (Handled.update o.policy) cache).dropSeeds,
          .ofStrokes (handled.flatMap (·.outcome.strokes))⟩) := by
  have hdistinct := targets_distinct o.kinds doc
  rw [← htargets] at hdistinct
  rw [highlight_of_content hrule hcontent hkinds, ← htargets, visitAll_of_handled hdistinct hall]
  rfl

/-- A pass over a document in which a target fails. -/
theorem highlight_failed (hrule : o.rule = some rule) (hcontent : doc.contentSize ≠ 0)
    (hkinds : o.kinds.isEmpty = false)
    (htargets : handled.map (·.target) ++ target :: rest = doc.targets o.kinds)
    (hall : o.HandlesAll rule cache handled) (hfail : o.Handles rule cache target events (.error e)) :
    o.highlight (some doc) cache = (handled.flatMap (·.events) ++ events, .error e) := by
  have hdistinct := targets_distinct o.kinds doc
  rw [← htargets] at hdistinct
  rw [highlight_of_content hrule hcontent hkinds, ← htargets,
    visitAll_of_failed hdistinct hall hfail]
  rfl

/-- What is observed of a pass over a document that has content is what is observed of a visit to
    each target with the cache that the pass begins with. -/
theorem highlight_events (hrule : o.rule = some rule) (hcontent : doc.contentSize ≠ 0)
    {state : OverlayState} (hstate : (o.highlight (some doc) cache).2 = .ok state) :
    (o.highlight (some doc) cache).1 =
      (doc.targets o.kinds).flatMap fun t => (o.visit rule cache t).1 := by
  cases hkinds : o.kinds.isEmpty with
  | true =>
    rw [highlight_of_idle (.inr (.inr hkinds)), targets_eq_nil hkinds]
    rfl
  | false =>
    rw [highlight_of_content hrule hcontent hkinds] at hstate ⊢
    obtain ⟨pass, hpass, -⟩ := map_eq_ok_iff.mp hstate
    obtain ⟨handled, htargets, hall, hvisits⟩ :=
      exists_handled_of_ok (targets_distinct o.kinds doc) hpass
    rw [hvisits, ← htargets, List.flatMap_map]
    apply List.flatMap_congr
    intro v hv
    rw [(hall v hv).visit_eq]

theorem overwrites_foldl_update (hdistinct : handled.Pairwise (·.target.pos ≠ ·.target.pos)) :
    Cache.Overwrites o.policy handled cache
      (handled.foldl (Handled.update o.policy) cache).dropSeeds where
  rendered := by
    intro v hv p r hpos houtcome
    exact Handled.foldl_update_of_rendered hdistinct hv hpos houtcome
  others := by
    intro p h
    exact Handled.foldl_update_of_not_rendered h
  seeds := rfl

/-- **Each target by itself.**  A pass that has something to do comes to the same as handling each
    target in document order, given the cache with which it begins.  The decorations are what the
    targets contribute, one after the other, sorted by their starts, and the cache is the earlier
    one without seeds, overwritten with what was rendered.  If a target fails, so does the pass,
    with the error of the first one that does, and nothing is observed of those after it. -/
theorem highlight_each (cache : Cache) (hrule : o.rule = some rule)
    (hcontent : doc.contentSize ≠ 0) (hkinds : o.kinds.isEmpty = false) :
    (∀ target, ∃! way : List Event × Except ParserError Outcome,
        o.Handles rule cache target way.1 way.2) ∧
      ((∃ handled state, handled.map (·.target) = doc.targets o.kinds ∧
          o.HandlesAll rule cache handled ∧
          o.highlight (some doc) cache = (handled.flatMap (·.events), .ok state) ∧
          state.decorations.Sorts (handled.flatMap (·.outcome.strokes)) ∧
          Cache.Overwrites o.policy handled cache state.cache) ∨
        ∃ handled target rest events e,
          handled.map (·.target) ++ target :: rest = doc.targets o.kinds ∧
          o.HandlesAll rule cache handled ∧ o.Handles rule cache target events (.error e) ∧
          o.highlight (some doc) cache = (handled.flatMap (·.events) ++ events, .error e)) := by
  constructor
  · intro target
    refine ⟨o.visit rule cache target, o.handles_visit rule cache target, ?_⟩
    intro way hway
    exact hway.visit_eq.symm
  · obtain ⟨handled, htargets, hall⟩ | ⟨handled, target, rest, events, e, htargets, hall, hfail⟩ :=
      o.exists_handled rule cache (doc.targets o.kinds)
    · have hdistinct := targets_distinct o.kinds doc
      rw [← htargets, List.pairwise_map] at hdistinct
      exact .inl ⟨handled, _, htargets, hall,
        highlight_handled hrule hcontent hkinds htargets hall, Decorations.sorts_ofStrokes _,
        overwrites_foldl_update hdistinct⟩
    · exact .inr ⟨handled, target, rest, events, e, htargets, hall, hfail,
        highlight_failed hrule hcontent hkinds htargets hall hfail⟩

/-- An overlay that highlights lists of digits, with a parser that always fails for another language
    and a host that is asked and told of everything. -/
def watched : Overlay where
  parsers := digitLists.parsers.insert "bad" ⟨"bad", fun _ _ => .error (.gaveUp "bad")⟩
  ask := some fun _ _ kept =>
    match kept.bind (·.strokes) with
    | some strokes => .use strokes
    | none => .render
  tell := true

/-- A list, code without a parser, and another list. -/
def blocks : List Node :=
  [.codeBlock "json" "[1]", .codeBlock "none" "[2]", .codeBlock "json" "[4]"]

/-- The same blocks, with code of which the parser fails and a list after them. -/
def failingBlocks : List Node :=
  blocks ++ [.codeBlock "bad" "x", .codeBlock "json" "[5]"]

/-- The tree of a list. -/
def listTree : SyntaxTree where
  language := "json"
  source := "[3]"
  primary := ⟨.node "document" ⟨0, 3⟩ [], "(document (array (number)))", [⟨1, 2, "number"⟩], []⟩

/-- A cache with strokes for the first list that no rendering yields, an entry of what the last list
    was once, and a seed for it. -/
def blocksCache : Cache where
  entries := (∅ : Std.ExtTreeMap Nat Entry).insert 0
      ⟨.codeBlock "json" "[1]", { strokes := some [⟨1, 4, "tok-string"⟩] }⟩ |>.insert 10
      ⟨.codeBlock "json" "[3]", { strokes := some [⟨12, 13, "tok-number"⟩] }⟩
  seeds := (∅ : Std.ExtTreeMap Nat SyntaxTree).insert 10 (listTree.seedFor "[4]")

/-- What is observed of the blocks: the host sees the strokes of the first list, and the last one is
    parsed from the seed. -/
def blocksEvents : List Event :=
  [.asked ⟨.codeBlock "json" "[1]", .inner 0⟩ (some { strokes := some [⟨1, 4, "tok-string"⟩] }),
    .asked ⟨.codeBlock "none" "[2]", .inner 5⟩ none,
    .asked ⟨.codeBlock "json" "[4]", .inner 10⟩ none,
    .parse "json" "[4]" (some (listTree.seedFor "[4]")),
    .told ⟨.codeBlock "json" "[4]", .inner 10⟩ [⟨12, 13, "tok-number"⟩]]

/-- All blocks are handled.  If code follows of which the parser fails, they are handled as before,
    and the list after that code is not even considered. -/
theorem highlight_each_blocks :
    watched.rule = some .standard ∧ watched.kinds.isEmpty = false ∧
      (Node.doc blocks).contentSize ≠ 0 ∧ (Node.doc failingBlocks).contentSize ≠ 0 ∧
      (∃ handled state, handled.map (·.target) = (Node.doc blocks).targets watched.kinds ∧
        watched.HandlesAll .standard blocksCache handled ∧
        watched.highlight (some (.doc blocks)) blocksCache = (blocksEvents, .ok state) ∧
        state.decorations.Sorts (handled.flatMap (·.outcome.strokes)) ∧
        Cache.Overwrites .both handled blocksCache state.cache) ∧
      ∃ handled target rest events,
        handled.map (·.target) ++ target :: rest = (Node.doc failingBlocks).targets watched.kinds ∧
        watched.HandlesAll .standard blocksCache handled ∧
        watched.Handles .standard blocksCache target events (.error (.gaveUp "bad")) ∧
        handled.flatMap (·.events) ++ events = blocksEvents ++
          [.asked ⟨.codeBlock "bad" "x", .inner 15⟩ none, .parse "bad" "x" none] ∧
        watched.highlight (some (.doc failingBlocks)) blocksCache =
          (handled.flatMap (·.events) ++ events, .error (.gaveUp "bad")) := by
  have hkinds : watched.kinds.isEmpty = false := by decide +kernel
  have hcontent : (Node.doc blocks).contentSize ≠ 0 := by decide
  have hcontent' : (Node.doc failingBlocks).contentSize ≠ 0 := by decide
  have hevents : (watched.highlight (some (.doc blocks)) blocksCache).1 = blocksEvents := by
    decide +kernel
  have hok : (watched.highlight (some (.doc blocks)) blocksCache).2.isOk = true := by
    decide +kernel
  have hfailed : watched.highlight (some (.doc failingBlocks)) blocksCache =
      (blocksEvents ++ [.asked ⟨.codeBlock "bad" "x", .inner 15⟩ none, .parse "bad" "x" none],
        .error (.gaveUp "bad")) := by
    decide +kernel
  refine ⟨rfl, hkinds, hcontent, hcontent', ?_, ?_⟩
  · obtain ⟨-, ⟨handled, state, htargets, hall, hpass, hrest⟩ | ⟨_, _, _, _, e, -, -, -, hpass⟩⟩ :=
      highlight_each blocksCache rfl hcontent hkinds
    · rw [hpass] at hevents
      exact ⟨handled, state, htargets, hall, hevents ▸ hpass, hrest⟩
    · rw [hpass] at hok
      cases hok
  · obtain ⟨-, ⟨_, state, -, -, hpass, -⟩ | ⟨handled, target, rest, events, e, htargets, hall, hfail,
      hpass⟩⟩ := highlight_each blocksCache rfl hcontent' hkinds
    · cases (Prod.mk.inj (hfailed.symm.trans hpass)).2
    · obtain ⟨hobserved, hresult⟩ := Prod.mk.inj (hfailed.symm.trans hpass)
      cases hresult
      exact ⟨handled, target, rest, events, htargets, hall, hfail, hobserved.symm, hpass⟩

end Overlay

end CodeOverlay
