import CodeOverlay.Json.Value

namespace CodeOverlay.Json

/-!
# How values are written

One value can be written in many ways.  Blanks may stand between its pieces, and a character of a
text may be written as it is, by a letter after a backslash, or by its number.  This module says
which ways there are, without regard to how they are read.

* `Sign`, `Spells` — what a text is made of, and how it may be written;
* `Numeral` — a number as it is written;
* `Value`, `Value.pieces` — a value, and the pieces of which it is written;
* `listed` — what lists and objects have in common;
* `Spelled` — pieces in one of the ways in which they may be written;
* `Spelled.append` — what is written piece by piece can be put together;
* `spells_encode`, `spelled_writeText` — how texts are written here is one of the ways.
-/

/-! ### Texts -/

/-- What a text is made of.  Half of a character is none, but it can be written. -/
inductive Sign where
  /-- A character. -/
  | char (c : Char)
  /-- One of two halves of a character, by its number, without the other one. -/
  | half (n : Nat)
deriving DecidableEq

/-- The signs of a text. -/
def signs (text : String) : List Sign :=
  text.toList.map .char

/-- Four hexadecimal digits, small or capital, and the number for which they stand. -/
inductive Quad : List Char → Nat → Prop
  | digits {a b c d : Char} {w x y z : Nat} (ha : hexValue? a = some w) (hb : hexValue? b = some x)
      (hc : hexValue? c = some y) (hd : hexValue? d = some z) :
      Quad [a, b, c, d] (((w * 16 + x) * 16 + y) * 16 + z)

/-- How signs may be written between quotes. -/
inductive Spells : List Sign → List Char → Prop
  | nil : Spells [] []
  /-- A character as it is, unless it is a quote, a backslash or a control character. -/
  | plain {c : Char} {ss : List Sign} {cs : List Char}
      (hc : c ≠ '"' ∧ c ≠ '\\' ∧ 0x20 ≤ c.toNat) (h : Spells ss cs) :
      Spells (.char c :: ss) (c :: cs)
  /-- A character that has a letter. -/
  | letter {l c : Char} {ss : List Sign} {cs : List Char}
      (hl : (l, c) ∈ escapes) (h : Spells ss cs) :
      Spells (.char c :: ss) ('\\' :: l :: cs)
  /-- A character of the first plane by its number. -/
  | number {ds : List Char} {n : Nat} {ss : List Sign} {cs : List Char}
      (hn : Quad ds n) (hwhole : isLead n = false ∧ isTrail n = false) (h : Spells ss cs) :
      Spells (.char (Char.ofNat n) :: ss) ('\\' :: 'u' :: (ds ++ cs))
  /-- Any other character by the numbers of its halves. -/
  | pair {ds ds' : List Char} {lead trail : Nat} {ss : List Sign} {cs : List Char}
      (hlead : Quad ds lead ∧ isLead lead = true) (htrail : Quad ds' trail ∧ isTrail trail = true)
      (h : Spells ss cs) :
      Spells (.char (Char.ofNat (0x10000 + (lead - 0xD800) * 0x400 + (trail - 0xDC00))) :: ss)
        ('\\' :: 'u' :: (ds ++ '\\' :: 'u' :: (ds' ++ cs)))
  /-- Half of a character by its number. -/
  | half {ds : List Char} {n : Nat} {ss : List Sign} {cs : List Char}
      (hn : Quad ds n) (hhalf : isLead n = true ∨ isTrail n = true) (h : Spells ss cs) :
      Spells (.half n :: ss) ('\\' :: 'u' :: (ds ++ cs))

/-! ### Numbers -/

/-- One digit or more. -/
abbrev Digits := { ds : List Char // ds ≠ [] ∧ ∀ d ∈ ds, d.isDigit = true }

/-- A number as it is written. -/
structure Numeral where
  /-- Whether there is a minus in front. -/
  negative : Bool := false
  /-- The digits before the point. -/
  whole : Digits
  /-- No digit follows a zero in front. -/
  noLeadingZero : whole.val.head? = some '0' → whole.val = ['0']
  /-- The digits after the point, if there is a point. -/
  fraction : Option Digits := none
  /-- The exponent, if there is one: whether its mark is a capital, its sign and its digits. -/
  exponent : Option (Bool × Option Bool × Digits) := none

namespace Numeral

/-- The point and the digits after it. -/
def fractionChars (n : Numeral) : List Char :=
  match n.fraction with
  | none => []
  | some ds => '.' :: ds.val

/-- The exponent with its mark and its sign. -/
def exponentChars (n : Numeral) : List Char :=
  match n.exponent with
  | none => []
  | some (capital, sign, ds) =>
    (if capital then 'E' else 'e') ::
      ((match sign with
        | none => []
        | some true => ['-']
        | some false => ['+']) ++ ds.val)

/-- The characters of a number after its sign. -/
def magnitude (n : Numeral) : List Char :=
  n.whole.val ++ (n.fractionChars ++ n.exponentChars)

/-- The characters of a number. -/
def chars (n : Numeral) : List Char :=
  if n.negative then '-' :: n.magnitude else n.magnitude

end Numeral

/-! ### Values -/

/-- The words that stand for values. -/
inductive Word where
  /-- The word for nothing. -/
  | null
  /-- The word for true. -/
  | yes
  /-- The word for false. -/
  | no
deriving DecidableEq, Repr

/-- The letters of a word. -/
def Word.chars : Word → List Char
  | .null => ['n', 'u', 'l', 'l']
  | .yes => ['t', 'r', 'u', 'e']
  | .no => ['f', 'a', 'l', 's', 'e']

/-- A value, the way in which it is written apart. -/
inductive Value where
  /-- A word. -/
  | word (w : Word)
  /-- A number. -/
  | number (n : Numeral)
  /-- A text. -/
  | text (ss : List Sign)
  /-- A list of values. -/
  | list (items : List Value)
  /-- An object: values by names. -/
  | object (members : List (List Sign × Value))

/-- The value that is a text. -/
def Value.ofText (text : String) : Value :=
  .text (signs text)

/-- The object with the given members. -/
def Value.ofMembers (members : List (String × Value)) : Value :=
  .object (members.map fun m => (signs m.1, m.2))

/-- A piece of a written value. -/
inductive Piece where
  /-- A bracket, a brace, a comma or a colon. -/
  | mark (c : Char)
  /-- A word. -/
  | word (w : Word)
  /-- A number. -/
  | number (n : Numeral)
  /-- A text with its quotes. -/
  | text (ss : List Sign)

mutual

/-- The pieces of a value. -/
def Value.pieces : Value → List Piece
  | .word w => [.word w]
  | .number n => [.number n]
  | .text ss => [.text ss]
  | .list items => .mark '[' :: itemPieces true items
  | .object members => .mark '\x7b' :: memberPieces true members

/-- The pieces of the items of a list, with a comma before each except the first, and the bracket
    after them. -/
def itemPieces (first : Bool) : List Value → List Piece
  | [] => [.mark ']']
  | v :: vs => (if first then [] else [.mark ',']) ++ (v.pieces ++ itemPieces false vs)

/-- The pieces of the members of an object, with a comma before each except the first, and the brace
    after them. -/
def memberPieces (first : Bool) : List (List Sign × Value) → List Piece
  | [] => [.mark '\x7d']
  | (name, v) :: ms =>
    (if first then [] else [.mark ',']) ++
      (.text name :: .mark ':' :: (v.pieces ++ memberPieces false ms))

end

/-- Entries with a comma before each except the first, and a mark after them. -/
def listed (close : Char) (first : Bool) : List (List Piece) → List Piece
  | [] => [.mark close]
  | e :: es => (if first then [] else [.mark ',']) ++ (e ++ listed close false es)

theorem itemPieces_eq_listed (first : Bool) (vs : List Value) :
    itemPieces first vs = listed ']' first (vs.map Value.pieces) := by
  induction vs generalizing first with
  | nil => rfl
  | cons v vs ih => rw [itemPieces, List.map_cons, listed, ih]

/-- The pieces of a member of an object. -/
def entry (member : List Sign × Value) : List Piece :=
  .text member.1 :: .mark ':' :: member.2.pieces

theorem memberPieces_eq_listed (first : Bool) (members : List (List Sign × Value)) :
    memberPieces first members = listed '\x7d' first (members.map entry) := by
  induction members generalizing first with
  | nil => rfl
  | cons member members ih =>
    rw [memberPieces, List.map_cons, listed, ih, entry, List.cons_append, List.cons_append]

namespace Value

theorem pieces_list (vs : List Value) :
    (list vs).pieces = .mark '[' :: listed ']' true (vs.map pieces) := by
  rw [pieces, itemPieces_eq_listed]

theorem pieces_object (members : List (List Sign × Value)) :
    (object members).pieces = .mark '\x7b' :: listed '\x7d' true (members.map entry) := by
  rw [pieces, memberPieces_eq_listed]

theorem pieces_ofText (text : String) : (ofText text).pieces = [.text (signs text)] := by
  rw [ofText, pieces]

theorem pieces_ofMembers (members : List (String × Value)) :
    (ofMembers members).pieces =
      .mark '\x7b' :: listed '\x7d' true (members.map fun m => entry (signs m.1, m.2)) := by
  rw [ofMembers, pieces_object, List.map_map]
  rfl

end Value

/-! ### Ways of writing -/

/-- How a piece may be written. -/
def Piece.Written : Piece → List Char → Prop
  | .mark c, cs => cs = [c]
  | .word w, cs => cs = w.chars
  | .number n, cs => cs = n.chars
  | .text ss, cs => ∃ body, Spells ss body ∧ cs = '"' :: (body ++ ['"'])

/-- How pieces may be written one after the other: with any blanks before, between and after
    them. -/
inductive Spelled : List Piece → List Char → Prop
  | nil {blanks : List Char} (hblanks : ∀ c ∈ blanks, isBlank c = true) : Spelled [] blanks
  | cons {p : Piece} {ps : List Piece} {blanks written cs : List Char}
      (hblanks : ∀ c ∈ blanks, isBlank c = true) (hwritten : p.Written written)
      (h : Spelled ps cs) : Spelled (p :: ps) (blanks ++ (written ++ cs))

variable {p : Piece} {ps qs : List Piece} {cs ds : List Char}

/-- Blanks may be added in front. -/
theorem Spelled.blanks {blanks : List Char} (hblanks : ∀ c ∈ blanks, isBlank c = true)
    (h : Spelled ps cs) : Spelled ps (blanks ++ cs) := by
  have hall : ∀ {more : List Char}, (∀ c ∈ more, isBlank c = true) →
      ∀ c ∈ blanks ++ more, isBlank c = true := fun hmore c hc =>
    (List.mem_append.mp hc).elim (hblanks c) (hmore c)
  cases h with
  | nil hmore => exact .nil (hall hmore)
  | cons hmore hwritten h =>
    rw [← List.append_assoc]
    exact .cons (hall hmore) hwritten h

/-- **Piece by piece.**  What is written of some pieces and of others can be put together. -/
theorem Spelled.append (h : Spelled ps cs) (hqs : Spelled qs ds) :
    Spelled (ps ++ qs) (cs ++ ds) := by
  induction h with
  | nil hblanks => exact hqs.blanks hblanks
  | cons hblanks hwritten _ ih =>
    rw [List.append_assoc, List.append_assoc]
    exact .cons hblanks hwritten ih

theorem Piece.Written.spelled (h : p.Written cs) : Spelled [p] cs := by
  have hpiece := @Spelled.cons p [] [] cs [] nofun h (.nil nofun)
  rw [List.append_nil] at hpiece
  exact hpiece

theorem spelled_mark (c : Char) : Spelled [.mark c] [c] :=
  Piece.Written.spelled rfl

theorem Piece.Written.ne_nil (h : p.Written cs) : cs ≠ [] := by
  cases p with
  | mark c =>
    rw [show cs = [c] from h]
    exact List.cons_ne_nil _ _
  | word w =>
    rw [show cs = w.chars from h]
    cases w <;> exact List.cons_ne_nil _ _
  | number n =>
    rw [show cs = n.chars from h, Numeral.chars]
    split
    · exact List.cons_ne_nil _ _
    · exact List.append_ne_nil_of_left_ne_nil n.whole.2.1 _
  | text ss =>
    obtain ⟨body, -, rfl⟩ := h
    exact List.cons_ne_nil _ _

/-- Each piece takes a character at least. -/
theorem Spelled.length_le (h : Spelled ps cs) : ps.length ≤ cs.length := by
  induction h with
  | nil => exact Nat.zero_le _
  | cons _ hwritten _ ih =>
    have := List.length_pos_iff.mpr hwritten.ne_nil
    rw [List.length_cons, List.length_append, List.length_append]
    omega

/-! ### Texts as they are written here -/

theorem hexValue?_hexDigit {n : Nat} (hn : n < 16) : hexValue? (hexDigit n) = some n := by
  have hall : ∀ n < 16, hexValue? (hexDigit n) = some n := by decide
  exact hall n hn

/-- A character is written in one of the ways in which it may be. -/
theorem spells_encodeChar {c : Char} {ss : List Sign} (h : Spells ss cs) :
    Spells (.char c :: ss) (encodeChar c ++ cs) := by
  have hletter : ∀ l, (l, c) ∈ escapes → Spells (.char c :: ss) (['\\', l] ++ cs) :=
    fun l hl => .letter hl h
  unfold encodeChar
  split
  · subst c
    exact hletter '"' (by decide)
  split
  · subst c
    exact hletter '\\' (by decide)
  split
  · subst c
    exact hletter 'b' (by decide)
  split
  · subst c
    exact hletter 't' (by decide)
  split
  · subst c
    exact hletter 'n' (by decide)
  split
  · subst c
    exact hletter 'f' (by decide)
  split
  · subst c
    exact hletter 'r' (by decide)
  split
  -- a control character that has no letter
  · rename_i hcontrol
    have hzero : hexValue? '0' = some 0 := by decide
    have hquad := Quad.digits hzero hzero (hexValue?_hexDigit (n := c.toNat / 16) (by omega))
      (hexValue?_hexDigit (n := c.toNat % 16) (by omega))
    have hnumber : ((0 * 16 + 0) * 16 + c.toNat / 16) * 16 + c.toNat % 16 = c.toNat := by omega
    rw [hnumber] at hquad
    have hspells := Spells.number hquad (by simp [isLead, isTrail]; omega) h
    rw [Char.ofNat_toNat] at hspells
    exact hspells
  · rename_i hquote hbackslash _ _ _ _ _ hcontrol
    exact .plain ⟨hquote, hbackslash, Nat.le_of_not_lt hcontrol⟩ h

/-- So is a text. -/
theorem spells_encode (cs : List Char) : Spells (cs.map .char) (encode cs) := by
  induction cs with
  | nil => exact .nil
  | cons c cs ih =>
    rw [List.map_cons, encode, List.flatMap_cons]
    exact spells_encodeChar ih

theorem spelled_writeText (text : String) :
    Spelled [.text (signs text)] (writeText text).toList := by
  rw [writeText, String.toList_ofList]
  exact Piece.Written.spelled ⟨_, spells_encode text.toList, rfl⟩

end CodeOverlay.Json
