/-
# Bytes

File contents and object encodings are lists of bytes.  Text enters them as UTF-8.

`through` is how `parse_object_type` takes a header apart.

* `Bytes.text?_ofText`: the bytes of a text spell that text again.
-/

namespace LocalVcs

/-- What a file holds, or what an object is encoded as. -/
abbrev Bytes := List UInt8

namespace Bytes

/-- The UTF-8 form of a text. -/
def ofText (text : String) : Bytes := text.toUTF8.data.toList

/-- The text that bytes spell; `none` when they are not UTF-8. -/
def text? (bytes : Bytes) : Option String := String.fromUTF8? ⟨bytes.toArray⟩

@[simp] theorem text?_ofText (text : String) : text? (ofText text) = some text := by
  simp [text?, ofText, String.fromUTF8?, String.toUTF8, text.isValidUTF8, String.fromUTF8]

theorem ofText_injective {s t : String} (h : ofText s = ofText t) : s = t := by
  simpa using congrArg text? h

theorem ofText_append (s t : String) : ofText (s ++ t) = ofText s ++ ofText t := by
  simp [ofText, String.toUTF8]

theorem length_ofText (text : String) : (ofText text).length = text.utf8ByteSize := by
  simp [ofText, String.toUTF8]

theorem ofText_ofList (cs : List Char) :
    ofText (String.ofList cs) = cs.flatMap String.utf8EncodeChar := by
  simp [ofText, String.toUTF8, List.utf8Encode]

/-- The bytes up to and with the first `stop`, and the rest; all of them when it is absent. -/
def through (stop : UInt8) (bytes : Bytes) : Bytes × Bytes :=
  let before := bytes.takeWhile (· ≠ stop)
  let after := bytes.dropWhile (· ≠ stop)
  (before ++ after.take 1, after.drop 1)

theorem through_of_not_mem {stop : UInt8} {before : Bytes} (h : stop ∉ before) (rest : Bytes) :
    through stop (before ++ stop :: rest) = (before ++ [stop], rest) := by
  have keep : ∀ b ∈ before, decide (b ≠ stop) = true := fun b hb =>
    decide_eq_true fun heq => h (heq ▸ hb)
  rw [through, List.takeWhile_append_of_pos keep, List.dropWhile_append_of_pos keep]
  simp

end Bytes

end LocalVcs
