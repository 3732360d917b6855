import CodeOverlay.Config.Reader
import CodeOverlay.Proofs.Consuming
import Mathlib.Data.List.Perm.Subperm

namespace CodeOverlay

open Json

/-!
# Reading objects of known members

An object has members of known names, in any order, and others that have no meaning.  What is known
of it after some members depends on their names only: each known one has brought what is wanted
under its name.

* `Among` — the known members of an object are wanted ones, each at most once;
* `ReadsKnown` — how a reader treats known members, known members given again, and others;
* `ReadsKnown.reads`, `ReadsKnown.refuses` — what follows for objects;
* `reads_readString`, `reads_readOptional`, `reads_readVariant`, `reads_readList` — the parts of a
  configuration, in the way in which they are written.
-/

variable {α β M : Type} {a : α} {v : Value} {rest : List Piece} {cs : List Char}

namespace Json

/-! ### Known members -/

/-- The members with known names are wanted ones, each at most once.  There may be any others. -/
def Among (known : List String) (wanted members : List (String × Value)) : Prop :=
  (members.filter (·.1 ∈ known)).Subperm wanted

section

variable {known : List String} {wanted init before after members : List (String × Value)}
  {m : String × Value}

theorem Among.of_append (h : Among known wanted (before ++ after)) : Among known wanted before :=
  (((List.prefix_append before after).sublist.filter _).subperm).trans h

theorem Among.mem (h : Among known wanted members) (hmem : m ∈ members) (hm : m.1 ∈ known) :
    m ∈ wanted :=
  h.subset (List.mem_filter.mpr ⟨hmem, by simpa using hm⟩)

/-- A known member is not given before. -/
theorem Among.notMem (h : Among known wanted (init ++ [m])) (hwanted : (wanted.map Prod.fst).Nodup)
    (hm : m.1 ∈ known) : m.1 ∉ init.map Prod.fst := by
  -- otherwise two of the known members would have one name
  obtain ⟨kept, hkept, hsub⟩ := h
  have hnames := (hkept.map Prod.fst).nodup (hwanted.sublist (hsub.map Prod.fst))
  rw [List.filter_append, List.filter_cons_of_pos (by simpa using hm), List.map_append,
    List.nodup_append] at hnames
  intro hagain
  obtain ⟨m', hm', heq⟩ := List.mem_map.mp hagain
  have hkept' : m' ∈ init.filter (·.1 ∈ known) :=
    List.mem_filter.mpr ⟨hm', by simpa [heq] using hm⟩
  exact hnames.2.2 _ (List.mem_map_of_mem hkept') _ (by simp) heq

end

/-! ### Readers put together -/

theorem Reads.map {read : List Char → Except Problem (α × List Char)} {ps : List Piece}
    (h : Reads read ps a) (g : α → β) :
    Reads (fun cs => (read cs).map fun (a, rest) => (g a, rest)) ps (g a) := by
  intro rest cs hrest hcs
  obtain ⟨left, hleft, hcs⟩ := h hrest hcs
  exact ⟨left, by simp [hleft, Except.map], hcs⟩

theorem Reads.congr {read read' : List Char → Except Problem (α × List Char)} {ps : List Piece}
    {a' : α} (h : Reads read ps a) (hread : ∀ cs, read' cs = read cs) (ha : a' = a) :
    Reads read' ps a' := by
  obtain rfl : read' = read := funext hread
  exact ha ▸ h

/-- A value is read after the colon. -/
theorem Reads.colon {read : List Char → Except Problem (α × List Char)}
    (h : Reads read v.pieces a) :
    Reads (fun cs => (expect ':' cs).bind read) (.mark ':' :: v.pieces) a := by
  intro rest cs hrest hcs
  obtain ⟨left, hleft, hcs⟩ := hcs.expect (by decide)
  obtain ⟨left', hv, hcs⟩ := h hrest hcs
  exact ⟨left', by simp only [hleft, Except.bind, hv], hcs⟩

/-! ### Objects -/

/-- A reader of members keeps track of the known ones.  Given the names of the members so far, it
    takes one that is wanted, refuses one that is given again, and passes over any other. -/
structure ReadsKnown (read : β → String → List Char → Except Problem (β × List Char))
    (known : List String) (wanted : List (String × Value)) (state : List String → β) : Prop where
  /-- What is wanted has different names. -/
  nodup : (wanted.map Prod.fst).Nodup
  /-- A wanted member is taken if it is new. -/
  new : ∀ {names m}, m ∈ wanted → m.1 ∉ names →
    Reads (read (state names) m.1) (.mark ':' :: m.2.pieces) (state (names ++ [m.1]))
  /-- No known member may be given again. -/
  again : ∀ {names name cs}, name ∈ known → name ∈ names →
    read (state names) name cs = .error .unfit
  /-- Others have no meaning. -/
  other : ∀ {names name} {v : Value}, name ∉ known →
    Reads (read (state names) name) (.mark ':' :: v.pieces) (state (names ++ [name]))

namespace ReadsKnown

variable {known : List String} {wanted before after members : List (String × Value)}
  {state : List String → β} {read : β → String → List Char → Except Problem (β × List Char)}

theorem readsMembers (h : ReadsKnown read known wanted state)
    (hmembers : Among known wanted members) :
    ReadsMembers true read (fun m => (signs m.1, m.2)) (fun ms => state (ms.map Prod.fst))
      members := by
  intro init m hinit
  refine ⟨whole_signs, fun name hname => ?_⟩
  obtain rfl : m.1 = name := signs_injective (hname rfl)
  simp only [List.map_append, List.map_singleton]
  -- the members so far are themselves among what is wanted
  have hlast : Among known wanted (init ++ [m]) := by
    obtain ⟨after, rfl⟩ := hinit
    exact hmembers.of_append
  by_cases hm : m.1 ∈ known
  · exact h.new (hlast.mem (by simp) hm) (hlast.notMem h.nodup hm)
  · exact h.other hm

/-- **An object is read in any order.** -/
theorem reads (h : ReadsKnown read known wanted state) (hmembers : Among known wanted members) :
    Reads (readMembers true read (state []))
      (listed '\x7d' true (members.map fun m => entry (signs m.1, m.2)))
      (state (members.map Prod.fst)) :=
  (h.readsMembers hmembers).reads

/-- **No known member may be given twice.** -/
theorem refuses {name : String} (h : ReadsKnown read known wanted state)
    (hbefore : Among known wanted before) (hname : name ∈ known)
    (hagain : name ∈ before.map Prod.fst)
    (hcs : Spelled (listed '\x7d' true
      ((before ++ (name, v) :: after).map fun m => entry (signs m.1, m.2)) ++ rest) cs) :
    readMembers true read (state []) cs = .error .unfit := by
  rw [List.map_append, List.map_cons] at hcs
  refine (h.readsMembers hbefore).eq_error whole_signs (fun name' _ _ hname' _ => ?_) hcs
  obtain rfl : name = name' := signs_injective (hname' rfl)
  exact h.again hname hagain

end ReadsKnown

end Json

/-! ### Parts of a configuration -/

namespace Config

theorem reads_readString (text : String) : Reads readString (Value.ofText text).pieces text := by
  intro rest cs _ h
  rw [Value.pieces_ofText] at h
  obtain ⟨body, left, hleft, hbody, h⟩ := h.text
  exact ⟨left, by rw [readString, hleft]; exact hbody.readText_signs, h⟩

/-- A text that may be missing, as a value. -/
def optionalValue (text : Option String) : Value :=
  (text.map Value.ofText).getD (.word .null)

theorem reads_readOptional (text : Option String) :
    Reads readOptional (optionalValue text).pieces text := by
  intro rest cs _ h
  cases text with
  | none =>
    rw [optionalValue, Option.map_none, Option.getD_none, Value.pieces] at h
    obtain ⟨left, hleft, h⟩ := h.word
    exact ⟨left, by simp [readOptional, hleft, Word.chars, expectWord, Except.map], h⟩
  | some text =>
    rw [optionalValue, Option.map_some, Option.getD_some, Value.pieces_ofText] at h
    obtain ⟨body, left, hleft, hbody, h⟩ := h.text
    have hread : readString ('"' :: (body ++ '"' :: left)) = .ok (text, left) :=
      hbody.readText_signs
    exact ⟨left, by simp [readOptional, hleft, hread, Except.map], h⟩

theorem reads_readVariant {names : List (String × α)} {name : String}
    (h : names.lookup name = some a) :
    Reads (readVariant names) (Value.ofText name).pieces a := by
  intro rest cs _ hcs
  rw [Value.pieces_ofText] at hcs
  obtain ⟨body, left, hleft, hbody, hcs⟩ := hcs.text
  refine ⟨left, ?_, hcs⟩
  simp [readVariant, hleft, hbody.readText_signs, chooseNamed, h, bind, Except.bind, pure,
    Except.pure]

section

variable {item : List Char → Except Problem (α × List Char)} {f : M → Value} {g : M → α}
  {before : List M}

theorem readsItems (h : ∀ m ∈ before, Reads item (f m).pieces (g m)) :
    ReadsItems (fun items cs => (item cs).map fun (a, rest) => (items ++ [a], rest)) f
      (fun ms => ms.map g) before := by
  intro init m hinit
  simp only [List.map_append, List.map_singleton]
  exact (h m (hinit.subset (by simp))).map fun a => init.map g ++ [a]

theorem reads_readList (h : ∀ m ∈ before, Reads item (f m).pieces (g m)) :
    Reads (readList item) (Value.list (before.map f)).pieces (before.map g) := by
  intro rest cs hrest hcs
  rw [Value.pieces_list, List.map_map, List.cons_append] at hcs
  obtain ⟨left, hleft, hcs⟩ := hcs.mark (by decide)
  obtain ⟨left', hitems, hcs⟩ := (readsItems h).reads hrest hcs
  exact ⟨left', by simp only [readList, hleft]; exact hitems, hcs⟩

/-- A list is refused where its first wrong item is. -/
theorem readList_eq_error {e : Problem} {after : List Value}
    (h : ∀ m ∈ before, Reads item (f m).pieces (g m))
    (hv : ∀ rest left, Spelled (v.pieces ++ rest) left → item left = .error e)
    (hcs : Spelled ((Value.list (before.map f ++ v :: after)).pieces ++ rest) cs) :
    readList item cs = .error e := by
  rw [Value.pieces_list, List.map_append, List.map_map, List.map_cons, List.cons_append] at hcs
  obtain ⟨left, hleft, hcs⟩ := hcs.mark (by decide)
  simp only [readList, hleft]
  refine (readsItems h).eq_error (fun rest left hleft => ?_) hcs
  rw [hv rest left hleft]
  rfl

end

/-- A member that has no meaning is passed over. -/
theorem reads_skipMember (b : β) (v : Value) :
    Reads (fun cs => (skipMember cs).map (b, ·)) (.mark ':' :: v.pieces) b := by
  intro rest cs hrest hcs
  obtain ⟨left, hcolon, hcs⟩ := hcs.expect (by decide)
  obtain ⟨left', hskip, hcs⟩ := hcs.skipValue hrest
  exact ⟨left', by simp only [skipMember, hcolon, Except.bind, hskip, Except.map], hcs⟩

end Config

end CodeOverlay
