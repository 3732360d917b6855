import CodeOverlay.Proofs.Fields
import Mathlib.Data.List.Forall2

namespace CodeOverlay

open Json Config

/-!
# Reading what was written of a configuration

A configuration is read back from its written form, and from whatever has the same members: in any
order, with any of them left out, among others that have no meaning, and in any way in which they
may be written.

* `LanguageHint.Written` — the values that stand for a hint;
* `LanguageHint.reads_readHint` — a hint is read from each of them;
* `Config.Written`, `Config.keeping` — the members that stand for parts of a configuration, and what
  it is with these parts only;
* `Config.readsKnown` — what is known of a configuration after some of its members;
* `Config.spelled_render` — the written form is one of those that stand for all of it;
* `Config.Repeats` — members of which a known one is given again;
* `Config.ofJson_restores` — what is read in each case.
-/

variable {rest : List Piece} {cs : List Char}

/-! ### Hints -/

namespace LanguageHint

/-- The name of the kind of a hint. -/
def kindName : LanguageHint → String
  | .attribute _ => "attr"
  | .firstWord _ => "first_token"

/-- The attribute at which a hint looks. -/
def attrName : LanguageHint → String
  | .attribute name => name
  | .firstWord name => name

/-- The hints of the same kind, by their attributes. -/
def make : LanguageHint → String → LanguageHint
  | .attribute _ => .attribute
  | .firstWord _ => .firstWord

theorem make_attrName (hint : LanguageHint) : hint.make hint.attrName = hint := by
  cases hint <;> rfl

theorem lookup_kindName (hint : LanguageHint) :
    hintNames.lookup hint.kindName = some hint.make := by
  cases hint <;> rfl

/-- The names of the members of a hint. -/
def fieldNames : List String :=
  ["kind", "attr"]

/-- The members of a hint. -/
def fields (hint : LanguageHint) : List (String × Value) :=
  [("kind", .ofText hint.kindName), ("attr", .ofText hint.attrName)]

/-- The values that stand for a hint: objects with its two members in any order, and any others. -/
def Written (hint : LanguageHint) (v : Value) : Prop :=
  ∃ members, v = .ofMembers members ∧ (members.filter (·.1 ∈ fieldNames)).Perm hint.fields

/-- What is known of a hint after members of some names. -/
def draft (hint : LanguageHint) (names : List String) : HintDraft :=
  if "kind" ∈ names then
    if "attr" ∈ names then .complete hint else .kind hint.make
  else if "attr" ∈ names then .attribute (some hint.attrName) else .blank

theorem reads_kind {hint : LanguageHint} {names : List String} (hnew : "kind" ∉ names) :
    Reads (readHintMember (hint.draft names) "kind")
      (.mark ':' :: (Value.ofText hint.kindName).pieces) (hint.draft (names ++ ["kind"])) := by
  intro rest cs hrest hcs
  obtain ⟨left, hcolon, hcs⟩ := hcs.expect (by decide)
  obtain ⟨left, hkind, hcs⟩ := reads_readVariant hint.lookup_kindName hrest hcs
  refine ⟨left, ?_, hcs⟩
  unfold readHintMember draft
  by_cases hattr : "attr" ∈ names
  · simp [hnew, hattr, hcolon, hkind, make_attrName, bind, Except.bind, pure, Except.pure]
  · simp [hnew, hattr, hcolon, hkind, bind, Except.bind, pure, Except.pure]

theorem reads_attr {hint : LanguageHint} {names : List String} (hnew : "attr" ∉ names) :
    Reads (readHintMember (hint.draft names) "attr")
      (.mark ':' :: (Value.ofText hint.attrName).pieces) (hint.draft (names ++ ["attr"])) := by
  intro rest cs hrest hcs
  obtain ⟨left, hcolon, hcs⟩ := hcs.expect (by decide)
  unfold readHintMember draft
  -- before the kind is known, any value will do, and a text is kept as it is
  by_cases hkind : "kind" ∈ names
  · obtain ⟨left, hattr, hcs⟩ := reads_readString hint.attrName hrest hcs
    refine ⟨left, ?_, hcs⟩
    simp [hnew, hkind, hcolon, hattr, make_attrName, bind, Except.bind, pure, Except.pure]
  · rw [Value.pieces_ofText] at hcs
    obtain ⟨body, left, hleft, hbody, hcs⟩ := hcs.text
    refine ⟨left, ?_, hcs⟩
    simp [hnew, hkind, hcolon, readAttribute, hleft, hbody.readText_signs, bind, Except.bind, pure,
      Except.pure, Except.map]

/-- How the members of a hint are read. -/
theorem readsKnown (hint : LanguageHint) :
    ReadsKnown readHintMember fieldNames hint.fields hint.draft where
  nodup := by simp [fields]
  new hm hnew := by
    rcases List.mem_pair.mp hm with rfl | rfl
    · exact reads_kind hnew
    · exact reads_attr hnew
  again {names name cs} hname hagain := by
    unfold readHintMember draft
    rcases List.mem_pair.mp hname with rfl | rfl
    · by_cases hattr : "attr" ∈ names <;> simp [hagain, hattr]
    · by_cases hkind : "kind" ∈ names <;> simp [hagain, hkind]
  other {names name v} hname := by
    simp only [fieldNames, List.mem_cons, List.not_mem_nil, or_false, not_or] at hname
    have hdraft : hint.draft (names ++ [name]) = hint.draft names := by
      simp [draft, Ne.symm hname.1, Ne.symm hname.2]
    refine (reads_skipMember _ v).congr (fun cs => ?_) hdraft
    unfold readHintMember
    rw [if_neg hname.1, if_neg hname.2]

/-- After all its members a hint is known. -/
theorem draft_complete {hint : LanguageHint} {members : List (String × Value)}
    (h : (members.filter (·.1 ∈ fieldNames)).Perm hint.fields) :
    hint.draft (members.map Prod.fst) = .complete hint := by
  have hmem : ∀ {m}, m ∈ hint.fields → m.1 ∈ members.map Prod.fst := fun hm =>
    List.mem_map_of_mem (List.mem_filter.mp (h.mem_iff.mpr hm)).1
  have hkind : "kind" ∈ members.map Prod.fst := hmem (List.mem_pair.mpr (.inl rfl))
  have hattr : "attr" ∈ members.map Prod.fst := hmem (List.mem_pair.mpr (.inr rfl))
  rw [draft, if_pos hkind, if_pos hattr]

/-- **A hint is read** from each value that stands for it. -/
theorem reads_readHint {hint : LanguageHint} {v : Value} (h : hint.Written v) :
    Reads readHint v.pieces hint := by
  obtain ⟨members, rfl, hmembers⟩ := h
  intro rest cs hrest hcs
  rw [Value.pieces_ofMembers, List.cons_append] at hcs
  obtain ⟨left, hleft, hcs⟩ := hcs.mark (by decide)
  obtain ⟨left', hread, hcs⟩ := hint.readsKnown.reads hmembers.subperm hrest hcs
  rw [draft_complete hmembers] at hread
  refine ⟨left', ?_, hcs⟩
  have hblank : hint.draft [] = .blank := rfl
  rw [hblank] at hread
  simp [readHint, hleft, hread, bind, Except.bind, pure, Except.pure]

/-- Members of a hint in any order, of which a known one is given again. -/
def Repeats (members : List (String × Value)) : Prop :=
  ∃ (hint : LanguageHint) (before after : List (String × Value)) (name : String) (v : Value),
    members = before ++ (name, v) :: after ∧ Among fieldNames hint.fields before ∧
      name ∈ fieldNames ∧ name ∈ before.map Prod.fst

theorem readHint_eq_error {members : List (String × Value)} (h : Repeats members)
    (hcs : Spelled ((Value.ofMembers members).pieces ++ rest) cs) :
    readHint cs = .error .unfit := by
  obtain ⟨hint, before, after, name, v, rfl, hbefore, hname, hagain⟩ := h
  rw [Value.pieces_ofMembers, List.cons_append] at hcs
  obtain ⟨left, hleft, hcs⟩ := hcs.mark (by decide)
  have hread := hint.readsKnown.refuses hbefore hname hagain hcs
  have hblank : hint.draft [] = .blank := rfl
  rw [hblank] at hread
  simp [readHint, hleft, hread, bind, Except.bind]

end LanguageHint

/-! ### Configurations -/

namespace Config

/-- The name of what is kept. -/
def policyName : KeepPolicy → String
  | .tree => "parse_state"
  | .strokes => "ranges"
  | .both => "both"

theorem lookup_policyName (policy : KeepPolicy) :
    policyNames.lookup (policyName policy) = some policy := by
  cases policy <;> rfl

/-- The names of the members of a configuration. -/
def fieldNames : List String :=
  ["target_types", "language_sources", "languages", "fallback_language", "artifact_policy"]

/-- The members of a configuration, given values for its hints. -/
def fields (config : Config) (hints : List Value) : List (String × Value) :=
  [("target_types", .list (config.kinds.map .ofText)),
   ("language_sources", .list hints),
   ("languages", .list (config.languages.map .ofText)),
   ("fallback_language", optionalValue config.fallback),
   ("artifact_policy", .ofText (policyName config.policy))]

/-- The members that stand for a configuration, or for parts of it: in any order, with any left out,
    and among any others. -/
def Written (config : Config) (members : List (String × Value)) : Prop :=
  ∃ hints, List.Forall₂ LanguageHint.Written config.hints hints ∧
    Among fieldNames (config.fields hints) members

/-- The configuration of which only the parts of some names are kept; the others are as usual. -/
def keeping (config : Config) (names : List String) : Config :=
  let usual : Config := {}
  { kinds := if "target_types" ∈ names then config.kinds else usual.kinds
    hints := if "language_sources" ∈ names then config.hints else usual.hints
    languages := if "languages" ∈ names then config.languages else usual.languages
    fallback := if "fallback_language" ∈ names then config.fallback else usual.fallback
    policy := if "artifact_policy" ∈ names then config.policy else usual.policy }

/-- What is known of a part after members of some names. -/
def given {α : Type} (names : List String) (name : String) (a : α) : Option α :=
  if name ∈ names then some a else none

/-- What is known of a configuration after members of some names. -/
def draft (config : Config) (names : List String) : Draft :=
  { kinds := given names "target_types" config.kinds
    hints := given names "language_sources" config.hints
    languages := given names "languages" config.languages
    fallback := given names "fallback_language" config.fallback
    policy := given names "artifact_policy" config.policy }

theorem getD_given {α : Type} (names : List String) (name : String) (a usual : α) :
    (given names name a).getD usual = if name ∈ names then a else usual := by
  unfold given
  split <;> rfl

theorem complete_draft (config : Config) (names : List String) :
    (config.draft names).complete = config.keeping names := by
  simp only [draft, Draft.complete, getD_given, keeping]

theorem given_append {α : Type} (names : List String) {name other : String} (a : α)
    (h : other ≠ name) : given (names ++ [other]) name a = given names name a := by
  simp [given, h.symm]

theorem given_append_self {α : Type} (names : List String) (name : String) (a : α) :
    given (names ++ [name]) name a = some a := by
  simp [given]

theorem reads_readOnce {α β : Type} {names : List String} {name : String} {a : α} {v : Value}
    {read : List Char → Except Problem (α × List Char)} (hread : Reads read v.pieces a)
    (hnew : name ∉ names) (g : α → β) :
    Reads (fun cs => (readOnce (given names name a) read cs).map fun (a, rest) => (g a, rest))
      (.mark ':' :: v.pieces) (g a) := by
  have honce : readOnce (given names name a) read = fun cs => (expect ':' cs).bind read := by
    funext cs
    simp [readOnce, given, hnew]
  rw [honce]
  exact hread.colon.map g

section

variable {hints : List LanguageHint} {values : List Value}

theorem reads_zip (h : List.Forall₂ LanguageHint.Written hints values) :
    ∀ m ∈ hints.zip values, Reads readHint m.2.pieces m.1 :=
  fun _ hm => LanguageHint.reads_readHint (List.forall₂_zip h hm)

theorem reads_hints (h : List.Forall₂ LanguageHint.Written hints values) :
    Reads (readList readHint) (Value.list values).pieces hints := by
  have hread := reads_readList (reads_zip h)
  rwa [List.map_fst_zip (Nat.le_of_eq h.length_eq),
    List.map_snd_zip (Nat.le_of_eq h.length_eq.symm)] at hread

theorem readHints_eq_error {members : List (String × Value)} {others : List Value}
    (h : List.Forall₂ LanguageHint.Written hints values) (hmembers : LanguageHint.Repeats members)
    (hcs : Spelled ((Value.list (values ++ .ofMembers members :: others)).pieces ++ rest) cs) :
    readList readHint cs = .error .unfit := by
  rw [← List.map_snd_zip (Nat.le_of_eq h.length_eq.symm)] at hcs
  exact readList_eq_error (reads_zip h)
    (fun _ _ hleft => LanguageHint.readHint_eq_error hmembers hleft) hcs

end

theorem reads_texts (texts : List String) :
    Reads (readList readString) (Value.list (texts.map .ofText)).pieces texts := by
  have hread := @reads_readList _ _ readString Value.ofText id texts fun text _ =>
    reads_readString text
  rwa [List.map_id] at hread

/-- How the members of a configuration are read. -/
theorem readsKnown (config : Config) {hints : List Value}
    (hhints : List.Forall₂ LanguageHint.Written config.hints hints) :
    ReadsKnown readMember fieldNames (config.fields hints) config.draft where
  nodup := by simp [fields]
  new {names m} hm hnew := by
    simp only [fields, List.mem_cons, List.not_mem_nil, or_false] at hm
    rcases hm with rfl | rfl | rfl | rfl | rfl
    · have hread := reads_readOnce (reads_texts config.kinds) hnew fun kinds =>
        { config.draft names with kinds := some kinds }
      exact hread.congr (fun cs => by simp [readMember, draft])
        (by simp [draft, given_append, given_append_self])
    · have hread := reads_readOnce (reads_hints hhints) hnew fun hints =>
        { config.draft names with hints := some hints }
      exact hread.congr (fun cs => by simp [readMember, draft])
        (by simp [draft, given_append, given_append_self])
    · have hread := reads_readOnce (reads_texts config.languages) hnew fun languages =>
        { config.draft names with languages := some languages }
      exact hread.congr (fun cs => by simp [readMember, draft])
        (by simp [draft, given_append, given_append_self])
    · have hread := reads_readOnce (reads_readOptional config.fallback) hnew fun fallback =>
        { config.draft names with fallback := some fallback }
      exact hread.congr (fun cs => by simp [readMember, draft])
        (by simp [draft, given_append, given_append_self])
    · have hread := reads_readOnce (reads_readVariant (lookup_policyName config.policy)) hnew
        fun policy => { config.draft names with policy := some policy }
      exact hread.congr (fun cs => by simp [readMember, draft])
        (by simp [draft, given_append, given_append_self])
  again {names name cs} hname hagain := by
    simp only [fieldNames, List.mem_cons, List.not_mem_nil, or_false] at hname
    rcases hname with rfl | rfl | rfl | rfl | rfl <;>
      simp [readMember, readOnce, draft, given, hagain, Except.map]
  other {names name v} hname := by
    simp only [fieldNames, List.mem_cons, List.not_mem_nil, or_false, not_or] at hname
    obtain ⟨h1, h2, h3, h4, h5⟩ := hname
    have hdraft : config.draft (names ++ [name]) = config.draft names := by
      simp only [draft, given_append _ _ h1, given_append _ _ h2, given_append _ _ h3,
        given_append _ _ h4, given_append _ _ h5]
    refine (reads_skipMember _ v).congr (fun cs => ?_) hdraft
    rw [readMember, if_neg h1, if_neg h2, if_neg h3, if_neg h4, if_neg h5]

end Config

/-! ### Written configurations -/

/-- Texts with a comma between each two of them. -/
theorem toList_intercalate_cons (t : String) (ts : List String) :
    (",".intercalate (t :: ts)).toList = t.toList ++ ts.flatMap fun t => ',' :: t.toList := by
  induction ts generalizing t with
  | nil => simp
  | cons t' ts ih =>
    rw [String.intercalate_cons_cons, String.toList_append, ih, List.flatMap_cons]
    simp

/-- Entries are written one by one. -/
theorem spelled_listed {close : Char} {es : List (List Piece)} {ts : List String}
    (h : List.Forall₂ (fun e t => Spelled e t.toList) es ts) :
    Spelled (listed close true es) ((",".intercalate ts).toList ++ [close]) := by
  have hmore : ∀ {es ts}, List.Forall₂ (fun e (t : String) => Spelled e t.toList) es ts →
      Spelled (listed close false es) ((ts.flatMap fun t => ',' :: t.toList) ++ [close]) := by
    intro es ts h
    induction h with
    | nil => exact spelled_mark close
    | @cons e t es ts he _ ih =>
      have hentry := (spelled_mark ',').append (he.append ih)
      simpa [listed] using hentry
  cases h with
  | nil => exact spelled_mark close
  | @cons e t es ts he h =>
    rw [toList_intercalate_cons, List.append_assoc, listed, if_pos rfl, List.nil_append]
    exact he.append (hmore h)

namespace Config

theorem spelled_writeList {values : List Value} {texts : List String}
    (h : List.Forall₂ (fun v t => Spelled v.pieces t.toList) values texts) :
    Spelled (Value.list values).pieces (writeList texts).toList := by
  have hlist := (spelled_mark '[').append (@spelled_listed ']' (values.map Value.pieces) texts
    (List.forall₂_map_left_iff.mpr h))
  rw [Value.pieces_list]
  simpa [writeList] using hlist

theorem spelled_writeObject {members : List (String × Value)} {texts : List (String × String)}
    (h : List.Forall₂ (fun m t => m.1 = t.1 ∧ Spelled m.2.pieces t.2.toList) members texts) :
    Spelled (Value.ofMembers members).pieces (writeObject texts).toList := by
  have hentry : ∀ m t, (m : String × Value).1 = (t : String × String).1 ∧
      Spelled m.2.pieces t.2.toList →
      Spelled (entry (signs m.1, m.2)) (writeText t.1 ++ ":" ++ t.2).toList := by
    rintro ⟨name, v⟩ ⟨_, t⟩ ⟨rfl, hv⟩
    simpa [entry] using (spelled_writeText name).append ((spelled_mark ':').append hv)
  have hentries : List.Forall₂ (fun e (t : String) => Spelled e t.toList)
      (members.map fun m => entry (signs m.1, m.2))
      (texts.map fun t => writeText t.1 ++ ":" ++ t.2) := by
    rw [List.forall₂_map_left_iff, List.forall₂_map_right_iff]
    exact h.imp hentry
  have hobject := (spelled_mark '\x7b').append (@spelled_listed '\x7d' _ _ hentries)
  rw [Value.pieces_ofMembers]
  simpa [writeObject] using hobject

theorem spelled_ofText (text : String) :
    Spelled (Value.ofText text).pieces (writeText text).toList := by
  rw [Value.pieces_ofText]
  exact spelled_writeText text

/-- The values that stand for the hints of a configuration in its written form. -/
def hintValues (config : Config) : List Value :=
  config.hints.map fun hint => .ofMembers hint.fields

theorem forall₂_written (config : Config) :
    List.Forall₂ LanguageHint.Written config.hints config.hintValues := by
  rw [hintValues, List.forall₂_map_right_iff, List.forall₂_same]
  exact fun hint _ => ⟨hint.fields, rfl, by simp [LanguageHint.fields, LanguageHint.fieldNames]⟩

theorem written_fields (config : Config) : config.Written (config.fields config.hintValues) :=
  ⟨_, config.forall₂_written, List.filter_sublist.subperm⟩

theorem spelled_writeTexts (texts : List String) :
    Spelled (Value.list (texts.map .ofText)).pieces (writeList (texts.map writeText)).toList := by
  refine spelled_writeList ?_
  rw [List.forall₂_map_left_iff, List.forall₂_map_right_iff, List.forall₂_same]
  exact fun text _ => spelled_ofText text

theorem spelled_writeHint (hint : LanguageHint) :
    Spelled (Value.ofMembers hint.fields).pieces (writeHint hint).toList := by
  have hmembers : ∀ kind name : String, List.Forall₂
      (fun m t => m.1 = t.1 ∧ Spelled m.2.pieces t.2.toList)
      [("kind", Value.ofText kind), ("attr", Value.ofText name)]
      [("kind", writeText kind), ("attr", writeText name)] := fun kind name =>
    .cons ⟨rfl, spelled_ofText kind⟩ (.cons ⟨rfl, spelled_ofText name⟩ .nil)
  cases hint <;> exact spelled_writeObject (hmembers _ _)

/-- **A configuration is written in one of the ways in which it may be.** -/
theorem spelled_render (config : Config) :
    Spelled (Value.ofMembers (config.fields config.hintValues)).pieces config.render.toList := by
  have hhints : Spelled (Value.list config.hintValues).pieces
      (writeList (config.hints.map writeHint)).toList := by
    refine spelled_writeList ?_
    rw [hintValues, List.forall₂_map_left_iff, List.forall₂_map_right_iff, List.forall₂_same]
    exact fun hint _ => spelled_writeHint hint
  have hfallback : Spelled (optionalValue config.fallback).pieces
      ((config.fallback.map writeText).getD "null").toList := by
    cases config.fallback with
    | none => exact Piece.Written.spelled rfl
    | some text => exact spelled_ofText text
  have hpolicy : Spelled (Value.ofText (policyName config.policy)).pieces
      (writePolicy config.policy).toList := by
    cases config.policy <;> exact spelled_ofText _
  exact spelled_writeObject
    (.cons ⟨rfl, spelled_writeTexts _⟩ (.cons ⟨rfl, hhints⟩ (.cons ⟨rfl, spelled_writeTexts _⟩
      (.cons ⟨rfl, hfallback⟩ (.cons ⟨rfl, hpolicy⟩ .nil)))))

/-! ### What is read -/

/-- Members of a configuration of which a known one is given again, be it one of the configuration
    itself or one of a hint.  Whatever comes after it, what comes before is as it should be. -/
inductive Repeats (config : Config) : List (String × Value) → Prop
  | field {before after : List (String × Value)} {name : String} {v : Value}
      (hbefore : config.Written before) (hname : name ∈ fieldNames)
      (hagain : name ∈ before.map Prod.fst) : Repeats config (before ++ (name, v) :: after)
  | hint {before after members : List (String × Value)} {hints : List LanguageHint}
      {values others : List Value} (hbefore : config.Written before)
      (hnew : "language_sources" ∉ before.map Prod.fst)
      (hvalues : List.Forall₂ LanguageHint.Written hints values)
      (hmembers : LanguageHint.Repeats members) :
      Repeats config
        (before ++ ("language_sources", .list (values ++ .ofMembers members :: others)) :: after)

theorem reads_readConfig {config : Config} {members : List (String × Value)}
    (h : config.Written members) :
    Reads readConfig (Value.ofMembers members).pieces (config.keeping (members.map Prod.fst)) := by
  obtain ⟨hints, hhints, hmembers⟩ := h
  intro rest cs hrest hcs
  rw [Value.pieces_ofMembers, List.cons_append] at hcs
  obtain ⟨left, hleft, hcs⟩ := hcs.mark (by decide)
  obtain ⟨left', hread, hcs⟩ := (config.readsKnown hhints).reads hmembers hrest hcs
  have hblank : config.draft [] = {} := rfl
  rw [hblank] at hread
  refine ⟨left', ?_, hcs⟩
  simp only [readConfig, hleft, hread, Except.map, complete_draft]

theorem readConfig_eq_error {config : Config} {members : List (String × Value)}
    (h : config.Repeats members)
    (hcs : Spelled ((Value.ofMembers members).pieces ++ rest) cs) :
    readConfig cs = .error .unfit := by
  rw [Value.pieces_ofMembers, List.cons_append] at hcs
  obtain ⟨left, hleft, hcs⟩ := hcs.mark (by decide)
  have hblank : config.draft [] = {} := rfl
  suffices readMembers true readMember (config.draft []) left = .error .unfit by
    rw [hblank] at this
    simp only [readConfig, hleft, this, Except.map]
  cases h with
  | field hbefore hname hagain =>
    obtain ⟨hints, hhints, hbefore⟩ := hbefore
    exact (config.readsKnown hhints).refuses hbefore hname hagain hcs
  | hint hbefore hnew hvalues hmembers =>
    -- the members before the list of hints are read, and so are the hints before the refused one
    obtain ⟨hints, hhints, hbefore⟩ := hbefore
    rw [List.map_append, List.map_cons] at hcs
    refine ((config.readsKnown hhints).readsMembers hbefore).eq_error whole_signs
      (fun name rest left hname hcs => ?_) hcs
    have hsigns : signs "language_sources" = signs name := by simpa using hname
    obtain rfl : "language_sources" = name := signs_injective hsigns
    obtain ⟨left', hcolon, hcs⟩ := hcs.expect (by decide)
    have hlist := readHints_eq_error hvalues hmembers hcs
    simp [readMember, readOnce, draft, given, hnew, hcolon, hlist, Except.bind, Except.map]

/-- The whole text is read if a reader of configurations takes what is written in it. -/
theorem ofJson_eq_ok {ps : List Piece} {config : Config} {text : String}
    (hread : Reads readConfig ps config) (h : Spelled ps text.toList) :
    ofJson text = .ok config := by
  rw [← List.append_nil ps] at h
  obtain ⟨left, hleft, h⟩ := hread closing_nil h
  simp only [ofJson, hleft, if_pos h.skipBlanks_eq_nil]

theorem keeping_all (config : Config) : config.keeping fieldNames = config := by
  simp [keeping, fieldNames]

/-- **A configuration is read back in any spelling.**  Its written form, which is one of those that
    stand for all of it, gives the configuration again.  However members that stand for parts of it
    are written, it is read with these parts, and with the usual ones for those left out.  However
    members are written of which a known one is given again, they are well written but not what is
    wanted. -/
theorem ofJson_restores (config : Config) :
    ofJson config.render = .ok config ∧
      (config.Written (config.fields config.hintValues) ∧
        Spelled (Value.ofMembers (config.fields config.hintValues)).pieces config.render.toList) ∧
      ∀ members text, Spelled (Value.ofMembers members).pieces text.toList →
        (config.Written members →
          ofJson text = .ok (config.keeping (members.map Prod.fst))) ∧
        (config.Repeats members → ofJson text = .error .unfit) := by
  -- the written form is the case in which no part is left out
  refine ⟨?_, ⟨config.written_fields, config.spelled_render⟩, fun members text hmembers =>
    ⟨fun hwritten => ofJson_eq_ok (reads_readConfig hwritten) hmembers, fun hrepeats => ?_⟩⟩
  · have hread := ofJson_eq_ok (reads_readConfig config.written_fields) config.spelled_render
    rwa [show (config.fields config.hintValues).map Prod.fst = fieldNames from rfl, keeping_all]
      at hread
  · rw [← List.append_nil (Value.ofMembers members).pieces] at hmembers
    rw [ofJson, readConfig_eq_error hrepeats hmembers]

/-- Parts left out, in another order, among others and with a character by its number; and a member
    that is given again. -/
theorem ofJson_restores_shuffled :
    ofJson ("\x7b\"x\":-1, " ++
        "\"language_sources\":[\x7b\"attr\":\"j\\u0073\",\"kind\":\"attr\"\x7d]\x7d") =
      .ok { hints := [.attribute "js"] } ∧
      ofJson "\x7b\"languages\":[],\"languages\":-1\x7d" = .error .unfit := by
  let number : Numeral :=
    { negative := true
      whole := ⟨['1'], nofun, List.forall_mem_singleton.mpr rfl⟩
      noLeadingZero := by simp }
  have hnumber : Spelled [.number number] ['-', '1'] := Piece.Written.spelled rfl
  constructor
  · let hint : Value := .ofMembers [("attr", .ofText "js"), ("kind", .ofText "attr")]
    let members : List (String × Value) :=
      [("x", .number number), ("language_sources", .list [hint])]
    have hhints : List.Forall₂ LanguageHint.Written [.attribute "js"] [hint] :=
      .cons ⟨_, rfl, .swap _ _ []⟩ .nil
    have hwritten : Written { hints := [.attribute "js"] } members :=
      ⟨[hint], hhints, (List.singleton_sublist.mpr (.tail _ (.head _))).subperm⟩
    have hquad : Quad ['0', '0', '7', '3'] 115 := @Quad.digits _ _ _ _ 0 0 7 3 rfl rfl rfl rfl
    have hspells : Spells (signs "js") ['j', '\\', 'u', '0', '0', '7', '3'] :=
      .plain (by decide) (.number hquad (by decide) .nil)
    have hjs : Spelled [.text (signs "js")] ['"', 'j', '\\', 'u', '0', '0', '7', '3', '"'] :=
      Piece.Written.spelled ⟨_, hspells, rfl⟩
    have hhint := (spelled_mark '\x7b').append <| (spelled_writeText "attr").append <|
      (spelled_mark ':').append <| hjs.append <| (spelled_mark ',').append <|
      (spelled_writeText "kind").append <| (spelled_mark ':').append <|
      (spelled_writeText "attr").append <| spelled_mark '\x7d'
    have hblank : ∀ c ∈ [' '], isBlank c = true := List.forall_mem_singleton.mpr rfl
    have hmembers := (spelled_mark '\x7b').append <| (spelled_writeText "x").append <|
      (spelled_mark ':').append <| hnumber.append <| (spelled_mark ',').append <|
      ((spelled_writeText "language_sources").blanks hblank).append <|
      (spelled_mark ':').append <| (spelled_mark '[').append <| hhint.append <|
      (spelled_mark ']').append <| spelled_mark '\x7d'
    refine ((ofJson_restores { hints := [.attribute "js"] }).2.2 members _ ?_).1 hwritten
    simp only [members, hint, Value.pieces_ofMembers, List.map_cons, List.map_nil, listed, entry,
      Value.pieces]
    exact hmembers
  · have hbefore : Written {} [("languages", .list [])] :=
      ⟨_, forall₂_written {}, (List.singleton_sublist.mpr (.tail _ (.tail _ (.head _)))).subperm⟩
    have hrepeats : Repeats {} ([("languages", .list [])] ++ ("languages", .number number) :: []) :=
      .field hbefore (by decide) (by decide)
    have hmembers := (spelled_mark '\x7b').append <| (spelled_writeText "languages").append <|
      (spelled_mark ':').append <| (spelled_mark '[').append <| (spelled_mark ']').append <|
      (spelled_mark ',').append <| (spelled_writeText "languages").append <|
      (spelled_mark ':').append <| hnumber.append <| spelled_mark '\x7d'
    refine ((ofJson_restores {}).2.2 _ _ ?_).2 hrepeats
    simp only [Value.pieces_ofMembers, List.singleton_append, List.map_cons, List.map_nil, listed,
      entry, Value.pieces]
    exact hmembers

end Config

end CodeOverlay
