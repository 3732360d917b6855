import CodeOverlay.Text.Quoted

namespace CodeOverlay.Text

/-!
# Descriptions of values

A `Description` is the outline of a value as it is shown to a developer: named records with
their fields, lists, sets, tables.  It can be written on one line or with one item a line.

* `Description.oneLine` — everything on a single line;
* `Description.indented` — each item on a line of its own, four blanks deeper than its
  parent and followed by a comma.
-/

/-- The outline of a value. -/
inductive Description where
  /-- Text that is shown as it is. -/
  | word (text : String)
  /-- Text that is shown between quotes. -/
  | text (text : String)
  /-- A record with named fields. -/
  | record (name : String) (fields : List (String × Description))
  /-- A constructor applied to arguments. -/
  | apply (name : String) (arguments : List Description)
  /-- A sequence. -/
  | list (items : List Description)
  /-- A set. -/
  | set (items : List Description)
  /-- A table from texts to values. -/
  | table (rows : List (String × Description))

namespace Description

/-- The description of a truth value. -/
def ofBool (b : Bool) : Description :=
  .word (if b then "true" else "false")

/-- The description of a value that may be absent. -/
def ofOption : Option Description → Description
  | none => .word "None"
  | some d => .apply "Some" [d]

/-! ### On one line -/

mutual

/-- The description on a single line. -/
def oneLine : Description → String
  | .word w => w
  | .text s => quoted s
  | .record name fields => name ++ " \x7b " ++ ", ".intercalate (oneLineFields fields) ++ " \x7d"
  | .apply name arguments => name ++ "(" ++ ", ".intercalate (oneLineItems arguments) ++ ")"
  | .list items => "[" ++ ", ".intercalate (oneLineItems items) ++ "]"
  | .set items => "\x7b" ++ ", ".intercalate (oneLineItems items) ++ "\x7d"
  | .table rows => "\x7b" ++ ", ".intercalate (oneLineRows rows) ++ "\x7d"

/-- The items of a sequence, each on a single line. -/
def oneLineItems : List Description → List String
  | [] => []
  | d :: ds => oneLine d :: oneLineItems ds

/-- The fields of a record, each on a single line. -/
def oneLineFields : List (String × Description) → List String
  | [] => []
  | (name, d) :: fields => (name ++ ": " ++ oneLine d) :: oneLineFields fields

/-- The rows of a table, each on a single line. -/
def oneLineRows : List (String × Description) → List String
  | [] => []
  | (key, d) :: rows => (quoted key ++ ": " ++ oneLine d) :: oneLineRows rows

end

/-! ### One item a line -/

/-- The blanks in front of a line at some depth. -/
def margin (depth : Nat) : String :=
  String.ofList (List.replicate (4 * depth) ' ')

/-- Puts items between an opening and a closing mark, one a line and one step deeper than
    `depth`.  Without items the two marks stand together. -/
def block (depth : Nat) (opening closing : String) : List String → String
  | [] => opening ++ closing
  | lines => opening ++ "\n" ++ String.join (lines.map fun l => margin (depth + 1) ++ l ++ ",\n")
      ++ margin depth ++ closing

mutual

/-- The description with one item a line, its first line standing at `depth`. -/
def indentedAt (depth : Nat) : Description → String
  | .word w => w
  | .text s => quoted s
  | .record name fields => block depth (name ++ " \x7b") "\x7d" (indentedFields (depth + 1) fields)
  | .apply name arguments => block depth (name ++ "(") ")" (indentedItems (depth + 1) arguments)
  | .list items => block depth "[" "]" (indentedItems (depth + 1) items)
  | .set items => block depth "\x7b" "\x7d" (indentedItems (depth + 1) items)
  | .table rows => block depth "\x7b" "\x7d" (indentedRows (depth + 1) rows)

/-- The items of a sequence at `depth`. -/
def indentedItems (depth : Nat) : List Description → List String
  | [] => []
  | d :: ds => indentedAt depth d :: indentedItems depth ds

/-- The fields of a record at `depth`. -/
def indentedFields (depth : Nat) : List (String × Description) → List String
  | [] => []
  | (name, d) :: fields => (name ++ ": " ++ indentedAt depth d) :: indentedFields depth fields

/-- The rows of a table at `depth`. -/
def indentedRows (depth : Nat) : List (String × Description) → List String
  | [] => []
  | (key, d) :: rows => (quoted key ++ ": " ++ indentedAt depth d) :: indentedRows depth rows

end

/-- The description with one item a line. -/
def indented (d : Description) : String :=
  d.indentedAt 0

end Description

end CodeOverlay.Text
