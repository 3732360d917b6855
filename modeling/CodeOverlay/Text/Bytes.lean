import CodeOverlay.Measured

namespace CodeOverlay.Text

/-!
# Texts as bytes

Offsets into a text count the bytes of its UTF-8 form.

* `bytes` — the UTF-8 bytes of a text, in order;
* `utf8ByteSize_eq_extent` — the length of a text in bytes is the room its characters take.
-/

/-- The UTF-8 bytes of a text. -/
def bytes (text : String) : List UInt8 :=
  text.toList.flatMap String.utf8EncodeChar

/-- The length of a text in bytes is the room taken by its characters. -/
theorem utf8ByteSize_eq_extent (text : String) :
    text.utf8ByteSize = extent Char.utf8Size text.toList := by
  have h : ∀ cs : List Char, (String.ofList cs).utf8ByteSize = extent Char.utf8Size cs := by
    intro cs
    induction cs with
    | nil => rfl
    | cons c cs ih =>
      rw [String.ofList_cons, String.utf8ByteSize_append, String.utf8ByteSize_singleton, ih,
        extent_cons]
  rw [← h, String.ofList_toList]

/-- The bytes of a text are as many as its length says. -/
@[simp] theorem length_bytes (text : String) : (bytes text).length = text.utf8ByteSize := by
  rw [utf8ByteSize_eq_extent, bytes]
  exact length_flatMap_eq_extent fun c _ => String.length_utf8EncodeChar c

end CodeOverlay.Text
