namespace CodeOverlay.Text

/-!
# Blank characters

The twenty-five characters of the standard's property White_Space separate words.

* `isBlank` — whether a character is one of them;
* `trim` — a text without the blanks at its ends;
* `firstWord?` — the first maximal run of characters that are not blank.
-/

/-- The code points of the blank characters, as closed ranges in ascending order. -/
def blankRanges : List (Nat × Nat) :=
  [(0x09, 0x0D), (0x20, 0x20), (0x85, 0x85), (0xA0, 0xA0), (0x1680, 0x1680), (0x2000, 0x200A),
   (0x2028, 0x2029), (0x202F, 0x202F), (0x205F, 0x205F), (0x3000, 0x3000)]

/-- Whether a character separates words. -/
def isBlank (c : Char) : Bool :=
  blankRanges.any fun (first, last) => first ≤ c.toNat && c.toNat ≤ last

/-- The text without the blanks at its beginning and its end. -/
def trim (text : String) : String :=
  let leading := text.toList.dropWhile isBlank
  String.ofList (leading.reverse.dropWhile isBlank).reverse

/-- The first word of a text, or `none` if the text is blank throughout. -/
def firstWord? (text : String) : Option String :=
  match (text.toList.dropWhile isBlank).takeWhile (!isBlank ·) with
  | [] => none
  | word => some (String.ofList word)

end CodeOverlay.Text
