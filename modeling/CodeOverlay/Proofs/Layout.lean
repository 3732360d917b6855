import CodeOverlay.Proofs.Colouring
import CodeOverlay.Proofs.Following
import CodeOverlay.Proofs.Reading

namespace CodeOverlay

open Node

/-!
# Where decorations lie

A node is painted within its content: its text takes no more room than the content, and no capture
reaches beyond the text.  The contents of two targets do not overlap.  So decorations ascend without
overlap, each within one target, whether its strokes were painted for the version of the document
that is shown or for an earlier one.

* `Parser.StaysWithin` — the captures of a parser end within the text;
* `Target.Holds`, `LaidOn` — strokes that ascend without overlap, each in the content of a target;
* `innerTargets_apart`, `targets_before` — targets do not overlap, and so their contents follow one
  another;
* `LaidOn.append` — the strokes of one target come before those of the targets after it;
* `laidOn_render`, `LaidOn.follow` — strokes lie on their node, and go along with it;
* `Cache.WellLaid` — the strokes of each entry lie on its node;
* `Overlay.laidOn_visitAll`, `Overlay.laidOn_highlight` — so do those of a pass on the targets;
* `Follows.decorations_apart` — all along a run, decorations keep apart, each within one target.
-/

/-! ### Parsers -/

/-- Every capture ends within the text that was parsed. -/
def Parser.StaysWithin (parser : Parser) : Prop :=
  ∀ text prior tree, parser.parse text prior = .ok tree →
    ∀ c ∈ tree.captures, c.stop ≤ text.utf8ByteSize

/-- Every capture of the grammar ends within the text. -/
def Grammar.StaysWithin (grammar : Grammar) : Prop :=
  ∀ text ranges prior layer, grammar.parse text ranges prior = some layer →
    ∀ c ∈ layer.captures, c.stop ≤ text.utf8ByteSize

theorem GrammarParser.captures_layer {p : GrammarParser} {grammar : Grammar} {text : String}
    {ranges : List ByteRange} {prior : Option Layer} {layer : Layer} (h : grammar.StaysWithin)
    (hlayer : p.layer grammar text ranges prior = .ok layer) :
    ∀ c ∈ layer.captures, c.stop ≤ text.utf8ByteSize := by
  unfold GrammarParser.layer at hlayer
  split at hlayer
  · rename_i found hfound
    cases hlayer
    exact h text ranges prior layer hfound
  · cases hlayer

/-- If the grammars of a language stay within the text, so does its parser. -/
theorem GrammarParser.staysWithin {p : GrammarParser} (hprimary : p.grammars.primary.StaysWithin)
    (hinline : ∀ second, p.grammars.inline = some second → second.grammar.StaysWithin) :
    p.toParser.StaysWithin := by
  intro text prior tree htree c hc
  obtain ⟨primary, hlayer, hrest⟩ := bind_eq_ok_iff.mp htree
  obtain ⟨inline, hsecond, heq⟩ := bind_eq_ok_iff.mp hrest
  cases heq
  obtain ⟨layer, hmem, hcapture⟩ := List.mem_flatMap.mp hc
  rcases List.mem_cons.mp hmem with rfl | hmem
  · exact captures_layer hprimary hlayer c hcapture
  · -- an inline layer is that of the second grammar
    obtain rfl := Option.mem_toList.mp hmem
    unfold inlineLayer at hsecond
    split at hsecond
    · cases hsecond
    · rename_i second hgrammar
      split at hsecond
      · cases hsecond
      · obtain ⟨found, hfound, hsome⟩ := map_eq_ok_iff.mp hsecond
        cases hsome
        exact captures_layer (hinline second hgrammar) hfound c hcapture

/-- Every capture of a parser of the table ends within the text. -/
def ParserTable.StayWithin (table : ParserTable) : Prop :=
  ∀ (key : String) (parser : Parser), table.parsers[key]? = some parser → parser.StaysWithin

theorem ParserTable.stayWithin_empty : ({} : ParserTable).StayWithin := by
  intro key parser h
  simp at h

theorem ParserTable.StayWithin.insert {table : ParserTable} {key : String} {parser : Parser}
    (h : table.StayWithin) (hparser : parser.StaysWithin) :
    (table.insert key parser).StayWithin := by
  intro key' parser' hget
  rcases ParserTable.eq_or_of_getElem?_insert hget with rfl | hbefore
  · exact hparser
  · exact h key' parser' hbefore

/-! ### Strokes on targets -/

/-- The stroke lies in the content of the node. -/
def Target.Holds (target : Target) (s : Stroke) : Prop :=
  target.pos.origin ≤ s.start ∧ s.stop ≤ target.pos.origin + target.node.contentSize

/-- The content of one node ends before that of another one begins. -/
def Target.Before (t u : Target) : Prop :=
  t.pos.origin + t.node.contentSize ≤ u.pos.origin

/-- Strokes that are not empty, ascend without overlap and lie each in the content of a node. -/
structure LaidOn (targets : List Target) (strokes : List Stroke) : Prop where
  /-- None is empty. -/
  lt : ∀ s ∈ strokes, s.start < s.stop
  /-- Each ends before those after it start. -/
  apart : strokes.Pairwise (·.stop ≤ ·.start)
  /-- Each lies in the content of one of the nodes. -/
  held : ∀ s ∈ strokes, ∃ target ∈ targets, target.Holds s

variable {target : Target} {targets : List Target} {strokes rest : List Stroke} {s : Stroke}

theorem laidOn_nil (targets : List Target) : LaidOn targets [] where
  lt _ h := nomatch h
  apart := .nil
  held _ h := nomatch h

/-- **One node after the other.**  The strokes of a node come before those of nodes whose contents
    come after its own. -/
theorem LaidOn.append (h : LaidOn [target] strokes) (hrest : LaidOn targets rest)
    (hbefore : ∀ u ∈ targets, target.Before u) : LaidOn (target :: targets) (strokes ++ rest) where
  lt := by
    intro s hs
    rcases List.mem_append.mp hs with hs | hs
    · exact h.lt s hs
    · exact hrest.lt s hs
  apart := by
    refine List.pairwise_append.mpr ⟨h.apart, hrest.apart, fun s hs u hu => ?_⟩
    obtain ⟨t, ht, -, hstop⟩ := h.held s hs
    obtain ⟨later, hlater, hstart, -⟩ := hrest.held u hu
    obtain rfl := List.mem_singleton.mp ht
    exact Nat.le_trans hstop (Nat.le_trans (hbefore later hlater) hstart)
  held := by
    intro s hs
    rcases List.mem_append.mp hs with hs | hs
    · obtain ⟨t, ht, hholds⟩ := h.held s hs
      exact ⟨t, List.mem_cons.mpr (.inl (List.mem_singleton.mp ht)), hholds⟩
    · obtain ⟨t, ht, hholds⟩ := hrest.held s hs
      exact ⟨t, List.mem_cons_of_mem _ ht, hholds⟩

/-- Strokes that ascend without overlap are decorations as they are. -/
theorem LaidOn.strokes_ofStrokes (h : LaidOn targets strokes) :
    (Decorations.ofStrokes strokes).strokes = strokes := by
  have hordered : strokes.Pairwise (·.start ≤ ·.start) :=
    h.apart.imp_of_mem fun hs _ hle => Nat.le_trans (Nat.le_of_lt (h.lt _ hs)) hle
  exact congrArg Decorations.strokes (Decorations.ofStrokes_strokes ⟨strokes, hordered⟩)

/-! ### The contents of targets -/

section
variable {n m : Node} {pos q : Nat} {kinds : Kinds}

/-- Around a position in the content of a node is the node itself. -/
theorem Node.mem_tagsAround (h : n.nodeAt? pos = some m) (hlt : pos < q) (hle : q < pos + m.size) :
    m.tag ∈ n.tagsAround q := by
  obtain ⟨before, after, hn, rfl⟩ := exists_tokens_of_nodeAt? h
  have hsize := m.size_eq
  have hlen := length_tokens m
  obtain ⟨k, rfl⟩ := Nat.exists_eq_add_of_lt hlt
  have htake : n.tokens.take (before.length + k + 1) =
      before ++ .opening m.tag :: m.tokens.take k := by
    rw [hn, List.append_assoc, Nat.add_assoc, List.take_length_add_append, enclosed,
      List.cons_append, List.take_succ_cons, List.append_assoc,
      List.take_append_of_le_length (by omega)]
  rw [tagsAround, htake, openTags_append, openTags_opening, (balanced_tokens m).nested]
  exact List.mem_append_right _ List.mem_cons_self

/-- **The targets below the root do not overlap**: each ends before those after it start. -/
theorem innerTargets_apart (kinds : Kinds) (n : Node) :
    (n.innerTargets kinds).Pairwise fun p q => p.pos + p.node.size ≤ q.pos := by
  have hascending : (n.innerTargets kinds).Pairwise (·.pos < ·.pos) := walk_ascending.filter _
  refine hascending.imp_of_mem fun {p p'} hp hp' hlt => ?_
  obtain ⟨hnode, htarget, -⟩ := mem_innerTargets_iff.mp hp
  obtain ⟨-, -, haround⟩ := mem_innerTargets_iff.mp hp'
  -- a target that reached beyond the start of another one would stand around it
  by_contra hnot
  have hfree := haround _ (mem_tagsAround hnode hlt (Nat.lt_of_not_le hnot))
  exact Bool.false_ne_true (hfree.symm.trans htarget)

/-- **The contents of targets follow one another**, unless the root is a target. -/
theorem targets_before (hroot : rootKind ∉ kinds) (n : Node) :
    (n.targets kinds).Pairwise Target.Before := by
  have hcontains : ¬kinds.contains rootKind = true := fun h =>
    hroot (Std.ExtTreeSet.contains_iff_mem.mp h)
  have htargets : n.targets kinds =
      (n.innerTargets kinds).map fun p => ⟨p.node, .inner p.pos⟩ := by
    rw [targets, if_neg hcontains, List.nil_append]
  rw [htargets, List.pairwise_map]
  refine (innerTargets_apart kinds n).imp fun {p p'} hle => ?_
  have := p.node.size_eq
  show p.pos + 1 + p.node.contentSize ≤ p'.pos + 1
  omega

/-- A stroke that is not empty lies in the content of at most one target. -/
theorem Target.Holds.unique {t u : Target} (hroot : rootKind ∉ kinds)
    (ht : t ∈ n.targets kinds) (hu : u ∈ n.targets kinds) (hs : s.start < s.stop)
    (hts : t.Holds s) (hus : u.Holds s) : t = u := by
  by_contra hne
  let Other : Target → Target → Prop := fun t u => ¬(t.Holds s ∧ u.Holds s)
  have hother : (n.targets kinds).Pairwise Other := by
    refine (targets_before hroot n).imp fun {t u} hbefore => ?_
    rintro ⟨ht, hu⟩
    have : t.pos.origin + t.node.contentSize ≤ u.pos.origin := hbefore
    have := ht.2
    have := hu.1
    omega
  have : Std.Symm Other := ⟨fun _ _ h h' => h ⟨h'.2, h'.1⟩⟩
  exact hother.forall ht hu hne ⟨hts, hus⟩

end

/-! ### Strokes of one node -/

/-- What is painted for a tree ends within the text, if the captures do. -/
theorem SyntaxTree.stop_le_of_mem_strokes {styling : Styling} {tree : SyntaxTree} {size : Nat}
    (hcaptures : ∀ c ∈ tree.captures, c.stop ≤ size) (hs : s ∈ tree.strokes styling) :
    s.stop ≤ size := by
  have hlt : s.start < s.stop := tree.lt_of_mem_strokes hs
  -- a capture covers the last byte of the stroke
  obtain ⟨i, c, hc, -⟩ := painted_strokes_iff.mp (painted_of_mem hs hlt).2
  have hstop := hcaptures c (List.mem_of_getElem? hc.get)
  have hcovers : s.stop - 1 < c.stop := hc.counts.2.2
  omega

/-- **The strokes of a rendering** lie in the content of the node, where it stands. -/
theorem laidOn_render {styling : Styling} {parser : Parser} {prior : Option SyntaxTree}
    {r : Rendering} (hparser : parser.StaysWithin)
    (hr : render styling parser target.node.text target.pos prior = .ok r) :
    LaidOn [target] r.strokes := by
  obtain ⟨tree, htree, rfl⟩ := map_eq_ok_iff.mp hr
  have hjoined : Joined (tree.strokes styling) := tree.joined_strokes
  have hsize := target.node.utf8ByteSize_text_le
  refine ⟨?_, ?_, ?_⟩
  · intro s hs
    exact lt_of_mem_render hr hs
  · show ((tree.strokes styling).map _).Pairwise _
    refine List.pairwise_map.mpr (hjoined.separate.imp fun {s t} hst => ?_)
    show s.stop + target.pos.origin ≤ t.start + target.pos.origin
    exact Nat.add_le_add_right hst.le _
  · intro s hs
    obtain ⟨t, ht, rfl⟩ := List.mem_map.mp hs
    have hstop := tree.stop_le_of_mem_strokes (hparser _ _ _ htree) ht
    refine ⟨target, List.mem_singleton_self _, Nat.le_add_left _ _, ?_⟩
    show t.stop + target.pos.origin ≤ _
    omega

/-- Strokes that lie on a node go along with it. -/
theorem LaidOn.follow {node : Node} {p : Nat} (h : LaidOn [⟨node, .inner p⟩] strokes) (q : Nat) :
    LaidOn [⟨node, .inner q⟩] (strokes.map (·.follow p q)) := by
  have hbounds : ∀ s ∈ strokes, p + 1 ≤ s.start ∧ s.stop ≤ p + 1 + node.contentSize := by
    intro s hs
    obtain ⟨t, ht, hholds⟩ := h.held s hs
    rw [List.mem_singleton.mp ht] at hholds
    exact hholds
  refine ⟨?_, ?_, ?_⟩
  · intro s hs
    obtain ⟨t, ht, rfl⟩ := List.mem_map.mp hs
    have := h.lt t ht
    have := hbounds t ht
    show t.start + q - p < t.stop + q - p
    omega
  · refine List.pairwise_map.mpr (h.apart.imp fun {s t} hst => ?_)
    show s.stop + q - p ≤ t.start + q - p
    exact Nat.sub_le_sub_right (Nat.add_le_add_right hst q) p
  · intro s hs
    obtain ⟨t, ht, rfl⟩ := List.mem_map.mp hs
    have := hbounds t ht
    refine ⟨_, List.mem_singleton_self _, ?_, ?_⟩
    · show q + 1 ≤ t.start + q - p
      omega
    · show t.stop + q - p ≤ q + 1 + node.contentSize
      omega

/-! ### What is kept -/

/-- The strokes of each entry lie on its node where it stands. -/
def Cache.WellLaid (cache : Cache) : Prop :=
  ∀ (pos : Nat) (entry : Entry) (strokes : List Stroke), cache.entries[pos]? = some entry →
    entry.kept.strokes = some strokes → LaidOn [⟨entry.node, .inner pos⟩] strokes

namespace Cache

variable {cache old : Cache} {doc : Node}

theorem wellLaid_empty : empty.WellLaid := by
  intro pos entry strokes h
  simp [empty] at h

/-- Strokes lie on their nodes after any change, whatever it claims of positions. -/
theorem WellLaid.carried {μ : Type} [Carrier μ] {carrier : μ} (h : old.WellLaid)
    (hcache : old.Carried carrier doc cache) : cache.WellLaid := by
  intro q e' strokes he' hstrokes
  obtain ⟨p, e, he, hfate⟩ := hcache.exists_of_entry he'
  -- an entry that is kept moves with its node, and its strokes with it
  obtain ⟨-, -, rfl⟩ := fate_eq_kept_iff.mp hfate
  obtain ⟨earlier, hearlier, rfl⟩ := Option.map_eq_some_iff.mp hstrokes
  exact (h p e earlier he hearlier).follow q

/-- What lies on a node can be kept of it. -/
theorem WellLaid.set {policy : KeepPolicy} {r : Rendering} (h : cache.WellLaid)
    (hr : LaidOn [target] r.strokes) :
    (cache.set target.pos ⟨target.node, policy.keep r⟩).WellLaid := by
  intro pos entry strokes hentry hstrokes
  rw [set_entries] at hentry
  split at hentry
  · rename_i hpos
    cases hentry
    rw [KeepPolicy.strokes_of_keep hstrokes, ← hpos]
    exact hr
  · exact h pos entry strokes hentry hstrokes

end Cache

/-! ### What a pass paints -/

namespace Overlay

variable {o : Overlay} {rule : LanguageRule} {cache final : Cache} {doc : Node} {r : Rendering}
variable {outcome : Outcome} {state next : OverlayState}

/-- What is rendered of a node lies on it. -/
theorem laidOn_renderTarget {prior : Option SyntaxTree} (hparsers : o.parsers.StayWithin)
    (h : (o.renderTarget rule target prior).2 = .ok outcome) : LaidOn [target] outcome.strokes := by
  rw [renderTarget_result] at h
  cases hparser : o.parsers.find? (rule.key target.node) with
  | none =>
    rw [hparser] at h
    cases h
    exact laidOn_nil _
  | some parser =>
    rw [hparser] at h
    obtain ⟨r, hr, rfl⟩ := map_eq_ok_iff.mp h
    obtain ⟨key, hkey⟩ := ParserTable.exists_of_find? hparser
    exact laidOn_render (hparsers key parser hkey) hr

/-- **What comes of a node lies on it**, whether its strokes were kept or it is rendered. -/
theorem laidOn_visit (hask : o.ask = none) (hparsers : o.parsers.StayWithin) (h : cache.WellLaid)
    (hvisit : (o.visit rule cache target).2 = .ok outcome) : LaidOn [target] outcome.strokes := by
  obtain ⟨strokes, huse, hresult⟩ | ⟨-, prior, hresult⟩ := o.visit_result rule cache target
  · cases hresult.symm.trans hvisit
    have hused := (decision_eq_use_iff hask).mp huse
    obtain ⟨kept, hkept, hstrokes⟩ := Option.bind_eq_some_iff.mp hused
    obtain ⟨pos, hpos, hentry⟩ := kept?_eq_some_iff.mp hkept
    have hlaid := h pos _ strokes hentry hstrokes
    rw [← hpos] at hlaid
    exact hlaid
  · exact laidOn_renderTarget hparsers (hresult ▸ hvisit)

/-- **A pass paints within the targets**, one after the other, and so does what it keeps. -/
theorem laidOn_visitAll (hask : o.ask = none) (hparsers : o.parsers.StayWithin)
    (hbefore : targets.Pairwise Target.Before) (h : cache.WellLaid)
    (hpass : (o.visitAll rule cache targets).2 = .ok (strokes, final)) :
    LaidOn targets strokes ∧ final.WellLaid := by
  induction targets generalizing cache strokes with
  | nil =>
    cases hpass
    exact ⟨laidOn_nil [], h⟩
  | cons target targets ih =>
    obtain ⟨outcome, rest, hvisit, hrest, rfl⟩ := visitAll_cons_eq_ok.mp hpass
    obtain ⟨hfirst, hbefore⟩ := List.pairwise_cons.mp hbefore
    have hlaid : LaidOn [target] outcome.strokes := laidOn_visit hask hparsers h hvisit
    -- later nodes are visited with a cache that may have a new entry for this one
    have hcache : (outcome.update o.policy target cache).WellLaid := by
      refine update_invariant (fun r hr => h.set ?_) h hvisit
      cases hr.symm.trans hvisit
      exact hlaid
    obtain ⟨hlater, hfinal⟩ := ih hbefore hcache hrest
    exact ⟨hlaid.append hlater hfirst, hfinal⟩

/-- What a pass over a document shows lies on its targets. -/
theorem laidOn_highlight (hask : o.ask = none) (hroot : rootKind ∉ o.kinds)
    (hparsers : o.parsers.StayWithin) (h : cache.WellLaid)
    (hnext : (o.highlight (some doc) cache).2 = .ok next) :
    LaidOn (doc.targets o.kinds) next.decorations.strokes ∧ next.cache.WellLaid := by
  obtain ⟨-, hkept⟩ | ⟨rule, -, hpass⟩ := o.highlight_cases doc
  · cases (hkept cache).symm.trans hnext
    exact ⟨laidOn_nil _, h⟩
  · rw [hpass] at hnext
    obtain ⟨⟨strokes, final⟩, hfinal, rfl⟩ := map_eq_ok_iff.mp hnext
    obtain ⟨hlaid, hcache⟩ := laidOn_visitAll hask hparsers (targets_before hroot doc) h hfinal
    refine ⟨?_, hcache⟩
    show LaidOn _ (Decorations.ofStrokes strokes).strokes
    rw [hlaid.strokes_ofStrokes]
    exact hlaid

/-- All along a run, what is shown lies on the targets, and what is kept on its nodes. -/
theorem Follows.laidOn (hask : o.ask = none) (hroot : rootKind ∉ o.kinds)
    (hparsers : o.parsers.StayWithin) (h : Follows (· = o) doc state) :
    LaidOn (doc.targets o.kinds) state.decorations.strokes ∧ state.cache.WellLaid := by
  -- the strokes kept lie on their nodes whatever the change, so the next pass starts from such
  induction h with
  | start ho h =>
    subst ho
    exact laidOn_highlight hask hroot hparsers Cache.wellLaid_empty h
  | @advance _ doc state next steps cache _ ho hcache hnext ih =>
    subst ho
    have hcarried := ih.2.carried hcache
    cases hchanged : (doc.revise steps).changesDocument with
    | true =>
      rw [proceed_of_changed hchanged] at hnext
      exact laidOn_highlight hask hroot hparsers hcarried hnext
    | false =>
      -- without a pass, the decorations are those of before, where they were
      obtain ⟨hshifts, hdoc⟩ := Revision.eq_of_unchanged hchanged
      have hcarry : state.decorations.carry (doc.revise steps) = state.decorations := by
        refine Decorations.carry_eq_self (fun pos bias => ?_) ih.1.lt
        show (Route.landThrough (doc.revise steps).route.shifts pos bias).pos = pos
        rw [hshifts]
        rfl
      rw [proceed_of_unchanged hchanged, hcarry] at hnext
      cases hnext
      rw [hdoc]
      exact ⟨ih.1, hcarried⟩

/-- **Decorations keep apart.**  All along a run, if nobody decides what is done with a node and the
    root is not a target, no decoration is empty, each ends before those after it start, and each
    lies in the content of one target of the document and of no other. -/
theorem Follows.decorations_apart (hask : o.ask = none) (hroot : rootKind ∉ o.kinds)
    (hparsers : o.parsers.StayWithin) (h : Follows (· = o) doc state) :
    (∀ s ∈ state.decorations.strokes, s.start < s.stop) ∧
      state.decorations.strokes.Pairwise (·.stop ≤ ·.start) ∧
      ∀ s ∈ state.decorations.strokes, ∃! target, target ∈ doc.targets o.kinds ∧
        target.pos.origin ≤ s.start ∧
        s.stop ≤ target.pos.origin + target.node.contentSize := by
  obtain ⟨hlaid, -⟩ := h.laidOn hask hroot hparsers
  refine ⟨hlaid.lt, hlaid.apart, fun s hs => ?_⟩
  obtain ⟨target, htarget, hholds⟩ := hlaid.held s hs
  refine ⟨target, ⟨htarget, hholds⟩, ?_⟩
  rintro other ⟨hother, hholds'⟩
  exact Target.Holds.unique hroot hother htarget (hlaid.lt s hs) hholds' hholds

/-- No character of a list of digits is past the end of the text. -/
theorem staysWithin_digitList : digitList.StaysWithin := by
  intro text ranges prior layer hlayer c hc
  cases hlayer
  obtain ⟨item, hitem, rfl⟩ := List.mem_map.mp hc
  obtain ⟨⟨char, i⟩, hmem, rfl⟩ := List.mem_map.mp (List.mem_filter.mp hitem).1
  have hi : i < text.toList.length :=
    (List.getElem?_eq_some_iff.mp (List.mem_zipIdx_iff_getElem?.mp hmem)).1
  have hlen := length_le_extent Char.utf8Size_pos text.toList
  rw [← Text.utf8ByteSize_eq_extent] at hlen
  show i + 1 ≤ text.utf8ByteSize
  omega

theorem stayWithin_digitLists : digitLists.parsers.StayWithin :=
  ParserTable.stayWithin_empty.insert
    (GrammarParser.staysWithin staysWithin_digitList fun _ h => nomatch h)

/-- The digit of a note moves along with its list, and lies in it and in nothing else. -/
theorem decorations_apart_note :
    digitLists.ask = none ∧ rootKind ∉ digitLists.kinds ∧ digitLists.parsers.StayWithin ∧
      ∃ state next, (digitLists.start note).2 = .ok state ∧
        (digitLists.advance state noteRevision noteRevision.doc).2 = .ok next ∧
        next.decorations.strokes = [⟨10, 11, "tok-number"⟩] ∧
        ∃! target, target ∈ noteRevision.doc.targets digitLists.kinds ∧
          target.pos.origin ≤ 10 ∧ 11 ≤ target.pos.origin + target.node.contentSize := by
  have hroot : rootKind ∉ digitLists.kinds := by decide +kernel
  obtain ⟨state, hstate⟩ : ∃ state, (digitLists.start note).2 = .ok state := ⟨_, rfl⟩
  obtain ⟨next, hstart⟩ : ∃ next, (digitLists.start noteRevision.doc).2 = .ok next := ⟨_, rfl⟩
  have hnext : (digitLists.advance state noteRevision noteRevision.doc).2 = .ok next := by
    rw [← hstart]
    exact (ready_empty.highlight_fits ignorePriors_digitLists hstate).proceed_eq_start rfl
      ignorePriors_digitLists (Cache.carried_carry _ _ _) rfl
  have hstrokes : next.decorations.strokes = [⟨10, 11, "tok-number"⟩] := by
    have hpainted : ((digitLists.start noteRevision.doc).2.map
        (·.decorations.strokes)).toOption = some [⟨10, 11, "tok-number"⟩] := by
      decide +kernel
    rw [hstart] at hpainted
    exact Option.some.inj hpainted
  obtain ⟨-, -, hheld⟩ := Follows.decorations_apart rfl hroot stayWithin_digitLists
    (.advance (.start rfl hstate) rfl (Cache.carried_carry _ _ _) hnext)
  exact ⟨rfl, hroot, stayWithin_digitLists, state, next, hstate, hnext, hstrokes,
    hheld ⟨10, 11, "tok-number"⟩ (by simp [hstrokes])⟩

end Overlay

end CodeOverlay
