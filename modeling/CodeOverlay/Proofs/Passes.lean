import Mathlib.Data.List.Basic
import CodeOverlay.Overlay.Session
import CodeOverlay.Proofs.Targets

namespace CodeOverlay

/-!
# What a pass does

A pass handles one node after the other, each with the cache that those before it left.  For a
single node there are two cases only: the strokes at hand are used and the cache stays, or the
node is rendered and the rendering is kept.  All that is said of a whole pass follows from them.

* `ParserTable.IgnorePriors` — no result of a parser depends on the earlier tree it is given;
* `Overlay.Renders` — what comes of rendering a node where it stands;
* `Overlay.visit_cases` — what is done with one node;
* `Overlay.visitAll_invariant` — what each kept rendering preserves, a pass preserves;
* `Overlay.visit_congr` — a visit only looks at the place of the node in the cache;
* `Overlay.highlight_of_idle`, `Overlay.highlight_of_content` — a pass has nothing to do, or it
  visits the targets.
-/

/-! ### Parsers -/

/-- The result of the parser, success or failure, does not depend on the earlier tree. -/
def Parser.IgnoresPrior (parser : Parser) : Prop :=
  ∀ text prior, parser.parse text prior = parser.parse text none

/-- A rendering does not depend on the earlier tree if the parser does not. -/
theorem Parser.IgnoresPrior.render_eq {parser : Parser} (h : parser.IgnoresPrior)
    (styling : Styling) (text : String) (pos : Spot) (prior : Option SyntaxTree) :
    render styling parser text pos prior = render styling parser text pos none := by
  rw [render, render, h text prior]

/-- The answer of the grammar does not depend on the earlier layer. -/
def Grammar.IgnoresPrior (grammar : Grammar) : Prop :=
  ∀ text ranges prior, grammar.parse text ranges prior = grammar.parse text ranges none

/-- If the grammars of a language do not depend on earlier layers, neither does its parser on
    earlier trees. -/
theorem GrammarParser.ignoresPrior {p : GrammarParser}
    (hprimary : p.grammars.primary.IgnoresPrior)
    (hinline : ∀ second, p.grammars.inline = some second → second.grammar.IgnoresPrior) :
    p.toParser.IgnoresPrior := by
  have hlayer : ∀ grammar : Grammar, grammar.IgnoresPrior → ∀ text ranges prior,
      p.layer grammar text ranges prior = p.layer grammar text ranges none := by
    intro grammar hgrammar text ranges prior
    rw [layer, layer, hgrammar text ranges prior]
  have hsecond : ∀ text primary prior,
      p.inlineLayer text primary prior = p.inlineLayer text primary none := by
    intro text primary prior
    unfold inlineLayer
    cases hgrammar : p.grammars.inline with
    | none => rfl
    | some second => simp only [hlayer second.grammar (hinline second hgrammar) text _ prior]
  intro text prior
  show p.parse text prior = p.parse text none
  simp only [parse, hlayer _ hprimary text [] (Option.map _ _), hsecond text _ (Option.bind _ _)]

/-- No parser of the table depends on the earlier tree that it is given. -/
def ParserTable.IgnorePriors (table : ParserTable) : Prop :=
  ∀ (key : String) (parser : Parser), table.parsers[key]? = some parser → parser.IgnoresPrior

/-- A parser that is found for a language is a parser of the table. -/
theorem ParserTable.exists_of_find? {table : ParserTable} {language : String} {parser : Parser}
    (h : table.find? language = some parser) :
    ∃ key : String, table.parsers[key]? = some parser := by
  rw [find?, Option.orElse_eq_orElse, Option.orElse_eq_or] at h
  rcases Option.or_eq_some_iff.mp h with h | ⟨-, h⟩
  · exact ⟨language, h⟩
  · exact ⟨fallbackKey, h⟩

theorem ParserTable.ignorePriors_empty : ({} : ParserTable).IgnorePriors := by
  intro key parser h
  simp at h

theorem ParserTable.IgnorePriors.insert {table : ParserTable} {key : String} {parser : Parser}
    (h : table.IgnorePriors) (hparser : parser.IgnoresPrior) :
    (table.insert key parser).IgnorePriors := by
  intro key' parser' hget
  rcases ParserTable.eq_or_of_getElem?_insert hget with rfl | hbefore
  · exact hparser
  · exact h key' parser' hbefore

namespace Overlay

variable {o : Overlay} {rule : LanguageRule} {target : Target} {targets : List Target}
variable {cache final : Cache} {prior : Option SyntaxTree} {r : Rendering} {doc : Node}
variable {strokes : List Stroke} {outcome : Outcome} {e : ParserError}

/-! ### Renderings -/

/-- Rendering the node from scratch, where it stands, yields `r`. -/
def Renders (o : Overlay) (target : Target) (r : Rendering) : Prop :=
  ∃ rule parser, o.rule = some rule ∧ o.parsers.find? (rule.key target.node) = some parser ∧
    render o.styling parser target.node.text target.pos none = .ok r

/-- A node renders to one thing only. -/
theorem Renders.unique {r' : Rendering} (h : o.Renders target r) (h' : o.Renders target r') :
    r = r' := by
  obtain ⟨rule, parser, hrule, hparser, hr⟩ := h
  obtain ⟨rule', parser', hrule', hparser', hr'⟩ := h'
  cases hrule.symm.trans hrule'
  cases hparser.symm.trans hparser'
  exact Except.ok.inj (hr.symm.trans hr')

/-- The result of rendering a node is that of its parser, if it has one. -/
theorem renderTarget_result :
    (o.renderTarget rule target prior).2 =
      match o.parsers.find? (rule.key target.node) with
      | none => .ok .noParser
      | some parser =>
        (render o.styling parser target.node.text target.pos prior).map .rendered := by
  unfold renderTarget
  cases o.parsers.find? (rule.key target.node) with
  | none => rfl
  | some parser =>
    dsimp only
    cases render o.styling parser target.node.text target.pos prior <;> rfl

/-- An earlier tree makes no difference to the result. -/
theorem renderTarget_prior (hpriors : o.parsers.IgnorePriors) :
    (o.renderTarget rule target prior).2 = (o.renderTarget rule target none).2 := by
  rw [renderTarget_result, renderTarget_result]
  cases hparser : o.parsers.find? (rule.key target.node) with
  | none => rfl
  | some parser =>
    obtain ⟨key, hkey⟩ := ParserTable.exists_of_find? hparser
    simp only [(hpriors key parser hkey).render_eq _ _ _ prior]

/-- A rendering from scratch is what the node renders to. -/
theorem renderTarget_eq_rendered_iff (hrule : o.rule = some rule) :
    (o.renderTarget rule target none).2 = .ok (.rendered r) ↔ o.Renders target r := by
  rw [renderTarget_result]
  constructor
  · intro h
    cases hparser : o.parsers.find? (rule.key target.node) with
    | none => simp [hparser] at h
    | some parser =>
      rw [hparser] at h
      obtain ⟨r', hr, heq⟩ := map_eq_ok_iff.mp h
      cases heq
      exact ⟨rule, parser, hrule, hparser, hr⟩
  · rintro ⟨rule', parser, hrule', hparser, hr⟩
    cases hrule.symm.trans hrule'
    rw [hparser]
    exact map_eq_ok_iff.mpr ⟨r, hr, rfl⟩

/-- Rendering a node does not yield strokes that were at hand. -/
theorem renderTarget_ne_reused : (o.renderTarget rule target prior).2 ≠ .ok (.reused strokes) := by
  rw [renderTarget_result]
  intro h
  split at h
  · cases h
  · obtain ⟨r, -, heq⟩ := map_eq_ok_iff.mp h
    cases heq

/-! ### One node -/

/-- If nobody decides otherwise, strokes are used just if they are kept. -/
theorem decision_eq_use_iff (hask : o.ask = none) {kept : Option Kept} :
    o.decision target kept = .use strokes ↔ kept.bind (·.strokes) = some strokes := by
  simp only [decision, hask]
  cases kept.bind (·.strokes) with
  | none => exact iff_of_false Decision.noConfusion (Option.some_ne_none _).symm
  | some used => rw [Decision.use.injEq, Option.some.injEq]

/-- What comes of a node is the strokes at hand, if it is decided to use them, or the result of
    rendering the node, starting from some earlier tree or none. -/
theorem visit_result (o : Overlay) (rule : LanguageRule) (cache : Cache) (target : Target) :
    (∃ strokes, o.decision target (kept? cache target) = .use strokes ∧
        (o.visit rule cache target).2 = .ok (.reused strokes)) ∨
      (∀ strokes, o.decision target (kept? cache target) ≠ .use strokes) ∧
        ∃ prior, (o.visit rule cache target).2 = (o.renderTarget rule target prior).2 := by
  unfold visit
  dsimp only
  cases hdecision : o.decision target (kept? cache target) with
  | use strokes => exact .inl ⟨strokes, rfl, rfl⟩
  | renderAfresh => exact .inr ⟨nofun, none, rfl⟩
  | render => exact .inr ⟨nofun, _, rfl⟩

/-- **One node.**  The strokes at hand are used, or else the result is that of rendering the
    node from scratch. -/
theorem visit_cases (hpriors : o.parsers.IgnorePriors) (rule : LanguageRule) (cache : Cache)
    (target : Target) :
    (∃ strokes, o.decision target (kept? cache target) = .use strokes ∧
        (o.visit rule cache target).2 = .ok (.reused strokes)) ∨
      (∀ strokes, o.decision target (kept? cache target) ≠ .use strokes) ∧
        (o.visit rule cache target).2 = (o.renderTarget rule target none).2 := by
  obtain huse | ⟨hrender, prior, hvisit⟩ := o.visit_result rule cache target
  · exact .inl huse
  · -- an earlier tree may be at hand, be it kept or a seed
    exact .inr ⟨hrender, hvisit.trans (renderTarget_prior hpriors)⟩

/-- A rendering that a visit yields is what the node renders to. -/
theorem renders_of_visit (hpriors : o.parsers.IgnorePriors) (hrule : o.rule = some rule)
    (h : (o.visit rule cache target).2 = .ok (.rendered r)) : o.Renders target r := by
  obtain ⟨strokes, -, hvisit⟩ | ⟨-, hvisit⟩ := o.visit_cases hpriors rule cache target
  · rw [hvisit] at h
    cases h
  · exact (renderTarget_eq_rendered_iff hrule).mp (hvisit ▸ h)

/-! ### All nodes -/

/-- A node that is handled is followed by the others, with the cache that it left. -/
theorem visitAll_cons_of_ok {events : List Event}
    (h : o.visit rule cache target = (events, .ok outcome)) :
    o.visitAll rule cache (target :: targets) =
      (events ++ (o.visitAll rule (outcome.update o.policy target cache) targets).1,
        (o.visitAll rule (outcome.update o.policy target cache) targets).2.map
          fun (rest, final) => (outcome.strokes ++ rest, final)) := by
  rw [visitAll, h]

/-- A node that fails ends a pass. -/
theorem visitAll_cons_of_error {events : List Event}
    (h : o.visit rule cache target = (events, .error e)) :
    o.visitAll rule cache (target :: targets) = (events, .error e) := by
  rw [visitAll, h]

/-- A pass that gets past its first node goes on with the cache that the node left. -/
theorem visitAll_cons :
    (o.visitAll rule cache (target :: targets)).2 =
      (o.visit rule cache target).2.bind fun outcome =>
        (o.visitAll rule (outcome.update o.policy target cache) targets).2.map
          fun (rest, final) => (outcome.strokes ++ rest, final) := by
  rw [visitAll]
  rcases o.visit rule cache target with ⟨events, result⟩
  cases result <;> rfl

theorem visitAll_cons_eq_ok :
    (o.visitAll rule cache (target :: targets)).2 = .ok (strokes, final) ↔
      ∃ outcome rest, (o.visit rule cache target).2 = .ok outcome ∧
        (o.visitAll rule (outcome.update o.policy target cache) targets).2 = .ok (rest, final) ∧
        strokes = outcome.strokes ++ rest := by
  rw [visitAll_cons]
  cases (o.visit rule cache target).2 with
  | error e => simp [Except.bind]
  | ok outcome =>
    rw [Except.bind, map_eq_ok_iff]
    constructor
    · rintro ⟨⟨rest, final'⟩, hrest, heq⟩
      cases heq
      exact ⟨outcome, rest, rfl, hrest, rfl⟩
    · rintro ⟨outcome', rest, heq, hrest, rfl⟩
      cases heq
      exact ⟨(rest, final), hrest, rfl⟩

/-- The strokes of a pass are those of its first node and those of the others. -/
theorem visitAll_cons_strokes :
    (o.visitAll rule cache (target :: targets)).2.map (·.1) =
      (o.visit rule cache target).2.bind fun outcome =>
        ((o.visitAll rule (outcome.update o.policy target cache) targets).2.map (·.1)).map
          (outcome.strokes ++ ·) := by
  rw [visitAll_cons]
  cases (o.visit rule cache target).2 with
  | error e => rfl
  | ok outcome =>
    dsimp only [Except.bind]
    cases (o.visitAll rule (outcome.update o.policy target cache) targets).2 <;> rfl

/-- What holds of a cache and stays true when a rendering of the node is kept holds of the cache
    after a visit to the node. -/
theorem update_invariant {P : Cache → Prop}
    (hset : ∀ r, (o.visit rule cache target).2 = .ok (.rendered r) →
      P (cache.set target.pos ⟨target.node, o.policy.keep r⟩))
    (h : P cache) (hvisit : (o.visit rule cache target).2 = .ok outcome) :
    P (outcome.update o.policy target cache) := by
  cases outcome with
  | reused => exact h
  | noParser => exact h
  | rendered r => exact hset r hvisit

/-- **A whole pass.**  What holds of a cache and stays true when a rendering of a target is kept
    holds of the cache after a pass. -/
theorem visitAll_invariant {P : Cache → Prop}
    (hset : ∀ cache, ∀ target ∈ targets, ∀ r, P cache →
      (o.visit rule cache target).2 = .ok (.rendered r) →
        P (cache.set target.pos ⟨target.node, o.policy.keep r⟩))
    (h : P cache) (hpass : (o.visitAll rule cache targets).2 = .ok (strokes, final)) : P final := by
  induction targets generalizing cache strokes with
  | nil =>
    cases hpass
    exact h
  | cons target targets ih =>
    obtain ⟨outcome, rest, hvisit, hrest, -⟩ := visitAll_cons_eq_ok.mp hpass
    -- the others go on with the cache that the first node left
    refine ih (fun cache t ht => hset cache t (List.mem_cons_of_mem _ ht)) ?_ hrest
    exact update_invariant (fun r => hset cache target List.mem_cons_self r h) h hvisit

/-- What holds of a cache and stays true when what the node renders to is kept holds of the cache
    after a visit to the node. -/
theorem update_preserves {P : Cache → Prop} (hpriors : o.parsers.IgnorePriors)
    (hrule : o.rule = some rule)
    (hset : ∀ r, o.Renders target r → P (cache.set target.pos ⟨target.node, o.policy.keep r⟩))
    (h : P cache) (hvisit : (o.visit rule cache target).2 = .ok outcome) :
    P (outcome.update o.policy target cache) :=
  update_invariant (fun r hr => hset r (renders_of_visit hpriors hrule hr)) h hvisit

/-- What holds of a cache and stays true when what a target renders to is kept holds of the cache
    after a pass. -/
theorem visitAll_preserves {P : Cache → Prop} (hpriors : o.parsers.IgnorePriors)
    (hrule : o.rule = some rule)
    (hset : ∀ cache, ∀ target ∈ targets, ∀ r, P cache → o.Renders target r →
      P (cache.set target.pos ⟨target.node, o.policy.keep r⟩))
    (h : P cache) (hpass : (o.visitAll rule cache targets).2 = .ok (strokes, final)) : P final :=
  visitAll_invariant (fun cache target htarget r h hr =>
    hset cache target htarget r h (renders_of_visit hpriors hrule hr)) h hpass

/-! ### The place of a node in a cache -/

/-- A visit only looks at what the cache holds for the place of the node. -/
theorem visit_congr {cache' : Cache} (hget : cache'.get? target.pos = cache.get? target.pos)
    (hseed : cache'.seed? target.pos = cache.seed? target.pos) :
    o.visit rule cache' target = o.visit rule cache target := by
  rw [visit, visit, kept?, kept?, hget, hseed]

/-- A visit leaves what the cache holds for other places. -/
theorem update_get? {policy : KeepPolicy} {pos : Spot} (hpos : pos ≠ target.pos)
    (outcome : Outcome) : (outcome.update policy target cache).get? pos = cache.get? pos := by
  cases outcome with
  | reused => rfl
  | noParser => rfl
  | rendered r =>
    show (cache.set target.pos ⟨target.node, policy.keep r⟩).get? pos = _
    cases pos with
    | root => rfl
    | inner q =>
      show (cache.set target.pos ⟨target.node, policy.keep r⟩).entries[q]? = cache.entries[q]?
      rw [Cache.set_entries, if_neg hpos.symm]

/-- A visit leaves the seeds. -/
theorem update_seed? {policy : KeepPolicy} (pos : Spot) (outcome : Outcome) :
    (outcome.update policy target cache).seed? pos = cache.seed? pos := by
  cases outcome with
  | reused => rfl
  | noParser => rfl
  | rendered r =>
    show (cache.set target.pos ⟨target.node, policy.keep r⟩).seed? pos = _
    cases target.pos <;> rfl

/-! ### A document -/

/-- There is nothing to do for the document. -/
def Idle (o : Overlay) (doc : Node) : Prop :=
  o.rule = none ∨ doc.contentSize = 0 ∨ o.kinds.isEmpty = true

/-- There is something to do if there are a rule, content and kinds. -/
theorem not_idle_iff :
    ¬o.Idle doc ↔
      ∃ rule, o.rule = some rule ∧ doc.contentSize ≠ 0 ∧ o.kinds.isEmpty = false := by
  rw [Idle, not_or, not_or, Bool.not_eq_true]
  cases o.rule with
  | none => simp
  | some rule => simp

/-- A pass that has nothing to do leaves the cache as it is. -/
theorem highlight_of_idle (h : o.Idle doc) :
    o.highlight (some doc) cache = ([], .ok ⟨cache, .empty⟩) := by
  unfold highlight
  cases hrule : o.rule with
  | none => rfl
  | some rule =>
    rw [Idle, hrule] at h
    exact if_pos (h.resolve_left (Option.some_ne_none rule))

/-- A pass that has something to do visits the targets. -/
theorem highlight_of_content (hrule : o.rule = some rule) (hcontent : doc.contentSize ≠ 0)
    (hkinds : o.kinds.isEmpty = false) :
    o.highlight (some doc) cache =
      ((o.visitAll rule cache (doc.targets o.kinds)).1,
        (o.visitAll rule cache (doc.targets o.kinds)).2.map
          fun pass => ⟨pass.2.dropSeeds, .ofStrokes pass.1⟩) := by
  have hidle : ¬(doc.contentSize = 0 ∨ o.kinds.isEmpty = true) := by simp [hcontent, hkinds]
  simp only [highlight, hrule, if_neg hidle]

/-- **A pass over a document.**  There is nothing to do, whatever the cache, or else the targets
    are visited and the seeds are used up. -/
theorem highlight_cases (o : Overlay) (doc : Node) :
    (o.Idle doc ∧
        ∀ cache, (o.highlight (some doc) cache).2 = .ok ⟨cache, .empty⟩) ∨
      ∃ rule, o.rule = some rule ∧ ∀ cache, (o.highlight (some doc) cache).2 =
        (o.visitAll rule cache (doc.targets o.kinds)).2.map
          fun pass => ⟨pass.2.dropSeeds, .ofStrokes pass.1⟩ := by
  by_cases hidle : o.Idle doc
  · exact .inl ⟨hidle, fun cache => by rw [highlight_of_idle hidle]⟩
  · obtain ⟨rule, hrule, hcontent, hkinds⟩ := not_idle_iff.mp hidle
    exact .inr ⟨rule, hrule, fun cache => by rw [highlight_of_content hrule hcontent hkinds]⟩

section
variable {μ : Type} [Carrier μ] {carrier : μ} {decorations : Decorations}

theorem proceed_of_changed (h : Carrier.changesDocument carrier = true) :
    o.proceed decorations cache carrier doc = o.highlight (some doc) cache :=
  if_pos h

theorem proceed_of_unchanged (h : Carrier.changesDocument carrier = false) :
    o.proceed decorations cache carrier doc =
      ([], .ok ⟨cache, decorations.carry carrier⟩) :=
  if_neg (by simp [h])

end

end Overlay

end CodeOverlay
