import CodeOverlay.Text.Hidden

namespace CodeOverlay.Text

/-!
# Quoted texts

A text inside a description or a message is put between double quotes, and every character
that would be misread or could not be seen is escaped.

* `escaped` — how a single character is written;
* `quoted` — a text between quotes.
-/

/-- How a character is written between quotes: NUL, tab, carriage return, line feed, the
    quote and the backslash by a letter after a backslash, a hidden character by its number
    in hexadecimal digits, and any other character by itself. -/
def escaped (c : Char) : String :=
  if c = '\x00' then "\\0"
  else if c = '\t' then "\\t"
  else if c = '\r' then "\\r"
  else if c = '\n' then "\\n"
  else if c = '"' then "\\\""
  else if c = '\\' then "\\\\"
  else if isHidden c then "\\u\x7b" ++ String.ofList (Nat.toDigits 16 c.toNat) ++ "\x7d"
  else c.toString

/-- A text between double quotes, with its characters escaped where needed. -/
def quoted (text : String) : String :=
  "\"" ++ String.join (text.toList.map escaped) ++ "\""

end CodeOverlay.Text
