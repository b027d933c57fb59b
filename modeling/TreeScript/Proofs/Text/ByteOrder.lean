import Mathlib.Tactic.Common

/-!
# The order of texts by their bytes

Texts are compared character by character, in the order of the code points. Written in UTF-8, they
are in the same order when they are compared byte by byte: a character with the smaller code point
has the smaller bytes, at the first byte where the two differ, and never runs out before it.
-/

namespace TreeScript.Text

/-- The bytes of a text in UTF-8. -/
def bytes (text : String) : List UInt8 := text.toUTF8.data.toList

/-- A text has the bytes of its characters. -/
theorem bytes_eq (text : String) : bytes text = text.toList.flatMap String.utf8EncodeChar := by
  rw [bytes, String.toUTF8_eq_toByteArray, ← String.utf8Encode_toList, List.utf8Encode,
    List.toList_data_toByteArray]

/-- Whether one byte comes before another is a matter of their numbers. -/
theorem byte_lt_iff {m n : Nat} (hm : m < 256) (hn : n < 256) :
    UInt8.ofNat m < UInt8.ofNat n ↔ m < n := by
  rw [UInt8.lt_iff_toNat_lt, UInt8.toNat_ofNat_of_lt' hm, UInt8.toNat_ofNat_of_lt' hn]

/-- Bytes are told by their numbers. -/
theorem byte_eq_iff {m n : Nat} (hm : m < 256) (hn : n < 256) :
    UInt8.ofNat m = UInt8.ofNat n ↔ m = n := by
  rw [← UInt8.toNat_inj, UInt8.toNat_ofNat_of_lt' hm, UInt8.toNat_ofNat_of_lt' hn]

/-- A code point is below the first number that is none. -/
theorem codePoint_lt (c : Char) : c.val.toNat < 0x110000 := by
  rcases c.valid with h | ⟨-, h⟩
  · exact Nat.lt_trans h (by decide)
  · exact h

/-- The smaller number has the smaller digit in base sixty-four, at the first place where the two
differ. -/
theorem digits_lt {m n : Nat} (h : m < n) :
    m / 262144 < n / 262144 ∨ m / 262144 = n / 262144 ∧
      (m / 4096 % 64 < n / 4096 % 64 ∨ m / 4096 % 64 = n / 4096 % 64 ∧
        (m / 64 % 64 < n / 64 % 64 ∨ m / 64 % 64 = n / 64 % 64 ∧ m % 64 < n % 64)) := by
  omega

/-- Of two characters, the one with the smaller code point has the smaller bytes, whatever
follows. -/
theorem encode_lt_encode {c d : Char} (h : c < d) (rest rest' : List UInt8) :
    String.utf8EncodeChar c ++ rest < String.utf8EncodeChar d ++ rest' := by
  have hval : c.val.toNat < d.val.toNat := h
  have hc := codePoint_lt c
  have hd := codePoint_lt d
  unfold String.utf8EncodeChar
  dsimp only
  generalize c.val.toNat = m at hval hc ⊢
  generalize d.val.toNat = n at hval hd ⊢
  have hm : m / 262144 % 8 = m / 262144 := by omega
  have hn : n / 262144 % 8 = n / 262144 := by omega
  rw [hm, hn]
  have hdigits := digits_lt hval
  -- One case for each pair of lengths. The length is marked in the first byte; where it is the
  -- same, the digits decide.
  split_ifs
  all_goals simp (disch := omega) only [List.cons_append, List.cons_lt_cons_iff, byte_lt_iff,
    byte_eq_iff]
  all_goals omega

/-- No character is written without a byte. -/
theorem nil_lt_encode (c : Char) (rest : List UInt8) : [] < String.utf8EncodeChar c ++ rest := by
  cases hencode : String.utf8EncodeChar c with
  | nil => exact absurd hencode String.utf8EncodeChar_ne_nil
  | cons first others => exact List.nil_lt_cons _ _

/-- Texts in order have bytes in order. -/
theorem flatMap_lt_flatMap {first second : List Char} (h : first < second) :
    first.flatMap String.utf8EncodeChar < second.flatMap String.utf8EncodeChar := by
  induction first generalizing second with
  | nil =>
    cases second with
    | nil => exact absurd h (List.lt_irrefl _)
    | cons d others => exact nil_lt_encode d _
  | cons c rest ih =>
    cases second with
    | nil => exact absurd h (List.not_lt_nil _)
    | cons d others =>
      rw [List.flatMap_cons, List.flatMap_cons]
      rcases List.cons_lt_cons_iff.mp h with hchar | ⟨rfl, hrest⟩
      · exact encode_lt_encode hchar _ _
      · exact List.append_left_lt (ih hrest)

/-- Texts are in the order of their bytes. -/
theorem bytes_lt_bytes_iff {first second : String} :
    bytes first < bytes second ↔ first < second := by
  have hmono : ∀ {s t : String}, s < t → bytes s < bytes t := by
    intro s t h
    rw [bytes_eq, bytes_eq]
    exact flatMap_lt_flatMap h
  constructor
  · intro h
    by_contra hle
    by_cases hgt : second < first
    · exact List.lt_asymm (hmono hgt) h
    · obtain rfl : first = second := String.le_antisymm hgt hle
      exact List.lt_irrefl _ h
  · exact hmono

end TreeScript.Text
