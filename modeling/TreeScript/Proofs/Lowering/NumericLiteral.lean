import Mathlib.Algebra.Order.Field.Rat
import Mathlib.Tactic.FieldSimp
import Mathlib.Tactic.Positivity
import Mathlib.Tactic.NormNum
import TreeScript.Proofs.Decimal.Finite
import TreeScript.Proofs.Decimal.Numerals
import TreeScript.Proofs.Tree.Derivation

/-!
# Numbers as literals

The text of a number token is a numeral, so it is read as the decimal that the numeral denotes and
only its size can keep it from being a literal. The main statement says where that happens: from
the middle between the greatest double and `2 ^ 1024` on, and nowhere below. A number written with
digits alone that fits into 64 bits is a literal of exactly that value.
-/

namespace TreeScript

/-! ## What numerals denote -/

namespace Decimal

/-- The number that a decimal denotes, apart from its sign. -/
def magnitude (decimal : Decimal) : ℚ := decimal.digits * 10 ^ decimal.exponent

/-- To be below a limit is a matter of the magnitude. -/
theorem below_iff {decimal : Decimal} {limit : Nat} :
    decimal.Below limit ↔ decimal.magnitude < limit := by
  have hexponent : decimal.exponent = decimal.exponent.toNat - (-decimal.exponent).toNat := by
    omega
  have hscale : (10 : ℚ) ^ decimal.exponent =
      10 ^ decimal.exponent.toNat / 10 ^ (-decimal.exponent).toNat := by
    conv_lhs => rw [hexponent]
    rw [zpow_sub₀ (by norm_num), zpow_natCast, zpow_natCast]
  rw [magnitude, hscale, ← mul_div_assoc, div_lt_iff₀ (by positivity), Below]
  exact_mod_cast Iff.rfl

end Decimal

namespace WrittenNumber

/-- The number that a numeral denotes: its digits count by their places before and after the point,
and the exponent moves the point. -/
def value (number : WrittenNumber) : ℚ :=
  let fraction := fractionDigits number.fraction?
  (number.whole.value + fraction.value / 10 ^ fraction.chars.length) *
    10 ^ exponentValue number.exponent?

/-- The sign of a number does not change its magnitude. -/
theorem magnitude_decimal (number : WrittenNumber) (sign : WrittenSign) :
    (number.decimal sign).magnitude = number.value := by
  simp only [Decimal.magnitude, decimal, DigitRun.value_append, value]
  rw [zpow_sub₀ (by norm_num), zpow_natCast]
  push_cast
  field_simp

end WrittenNumber

/-- The limit of the doubles, written out. -/
theorem overflowLimit_binary64 :
    ((overflowLimit .binary64 : Nat) : ℚ) = (2 ^ 54 - 1) * 2 ^ 970 := by
  have hlimit : overflowLimit .binary64 = (2 ^ 54 - 1) * 2 ^ 970 := by decide +kernel
  have hodd : ((2 ^ 54 - 1 : Nat) : ℚ) = 2 ^ 54 - 1 := by norm_num
  rw [hlimit, Nat.cast_mul, hodd, Nat.cast_pow, Nat.cast_ofNat]

/-! ## Literals -/

/-- A run of digits is an integer literal in the narrower width that takes it. -/
theorem Literal.readNumber?_of_digits {text : String} {digits : DigitRun}
    (hnonempty : digits.chars ≠ []) (htext : text.toList = digits.chars)
    (hvalue : digits.value < 2 ^ 63) :
    readNumber? text = some (if digits.value < 2 ^ 31 then .int (.ofNat digits.value)
      else .long (.ofNat digits.value)) := by
  have hread : Decimal.readInteger? text = some (digits.value : Int) :=
    Decimal.readInteger?_eq_some_iff.mpr ⟨.absent, digits, hnonempty, htext, rfl⟩
  rw [readNumber?, readInt?_of_readInteger? hread, readLong?_of_readInteger? hread, if_pos hvalue]
  split <;> rfl

namespace Tree

/-- A numeral is read from the text of its token. -/
theorem numericLiteral_eq {tree : Tree} {token : Token} (hkind : token.kind = .number)
    (honly : tree.children = [token.leaf]) :
    tree.numericLiteral = (Literal.readNumber? token.text).elim
      (.error token.leaf.unimplementedLiteral) .ok := by
  have hleaf : token.leaf.category? = some .decimalLiteral := by
    rw [Token.leaf, hkind]
    rfl
  have hchild : tree.onlyChild = .ok token.leaf := by
    rw [onlyChild, honly]
  have htext : token.leaf.text = token.text := rfl
  unfold numericLiteral
  simp only [hchild, bind, Except.bind, hleaf, htext]
  cases Literal.readNumber? token.text with
  | none => rfl
  | some literal => rfl

end Tree

/-- The text of every number token of a source text is a numeral, and it is read as the decimal
that the numeral denotes. Its double is finite exactly if the numeral denotes less than the middle
between the greatest double and `2 ^ 1024`, and the literal made of the token fails exactly if it is
not, and only as an unimplemented one. A token of digits alone that denotes less than `2 ^ 63` is
the integer literal of that value. -/
theorem numericLiteral_number_token (source : String) {token : Token}
    (htoken : token ∈ (TokenStream.ofSource source).tokens) (hkind : token.kind = .number)
    (tree : Tree) (honly : tree.children = [token.leaf]) :
    ∃ number : WrittenNumber, token.text = number.text ∧
      Decimal.read? token.text = some (number.decimal .absent) ∧
      ((Decoded.ofFloat (number.decimal .absent).toFloat).IsFinite ↔
        number.value < (2 ^ 54 - 1) * 2 ^ 970) ∧
      (∀ error, tree.numericLiteral = .error error ↔
        error = token.leaf.unimplementedLiteral ∧
          ¬ (Decoded.ofFloat (number.decimal .absent).toFloat).IsFinite) ∧
      ∀ digits : DigitRun, token.text = String.ofList digits.chars → digits.value < 2 ^ 63 →
        tree.numericLiteral = .ok (if digits.value < 2 ^ 31 then .int (.ofNat digits.value)
          else .long (.ofNat digits.value)) := by
  have hspells : Spells token.text .number := by
    rw [← hkind]
    exact Scan.spells_of_mem_scanFrom 0 source.toList token htoken (hkind ▸ Kind.noConfusion)
  obtain ⟨number, htext⟩ := spells_number_iff.mp hspells
  have hchars : token.text.toList = number.chars := by
    rw [htext, WrittenNumber.text, String.toList_ofList]
  have hread : Decimal.read? token.text = some (number.decimal .absent) :=
    Decimal.read?_eq_some_iff.mpr ⟨.absent, number, hchars, rfl⟩
  refine ⟨number, htext, hread, ?_, ?_, ?_⟩
  · rw [Decimal.isFinite_toFloat_iff, Decimal.below_iff, number.magnitude_decimal,
      overflowLimit_binary64]
  · intro error
    rw [Tree.numericLiteral_eq hkind honly, ← Literal.isSome_readNumber?_iff hread]
    cases Literal.readNumber? token.text with
    | none => simp [eq_comm]
    | some literal => simp
  · intro digits hdigits hvalue
    have hrun : token.text.toList = digits.chars := by rw [hdigits, String.toList_ofList]
    have hnonempty : digits.chars ≠ [] := by
      obtain ⟨first, chars, hfirst, -⟩ := number.exists_first
      rw [← hrun, hchars, hfirst]
      exact List.cons_ne_nil _ _
    rw [Tree.numericLiteral_eq hkind honly, Literal.readNumber?_of_digits hnonempty hrun hvalue]
    rfl

/-- The first number here has the digits of the greatest double with the last one raised, and the
second one is the greatest that fits into 64 bits. -/
theorem numericLiteral_number_token_limits :
    let source := "1.7976931348623159e308 9223372036854775807"
    let beyond : Token := ⟨.number, "1.7976931348623159e308", ⟨0, 22⟩, false⟩
    let greatest : Token := ⟨.number, "9223372036854775807", ⟨23, 42⟩, false⟩
    (beyond ∈ (TokenStream.ofSource source).tokens ∧
      (Tree.node .numericLiteral [beyond.leaf] beyond.span).numericLiteral =
        .error beyond.leaf.unimplementedLiteral) ∧
    greatest ∈ (TokenStream.ofSource source).tokens ∧
      (Tree.node .numericLiteral [greatest.leaf] greatest.span).numericLiteral =
        .ok (.long Int64.maxValue) := by
  intro source beyond greatest
  have htokens : (TokenStream.ofSource source).tokens = [beyond, greatest] := by
    decide +kernel
  have hbeyond : beyond ∈ (TokenStream.ofSource source).tokens := by
    rw [htokens]
    exact List.mem_cons_self
  have hgreatest : greatest ∈ (TokenStream.ofSource source).tokens := by
    rw [htokens]
    exact List.mem_cons_of_mem _ List.mem_cons_self
  refine ⟨⟨hbeyond, ?_⟩, hgreatest, ?_⟩
  · obtain ⟨number, -, hread, -, herror, -⟩ := numericLiteral_number_token source hbeyond rfl
      (.node .numericLiteral [beyond.leaf] beyond.span) rfl
    have hdecimal : Decimal.read? beyond.text = some ⟨false, 17976931348623159, 292⟩ := by decide
    rw [herror, ← Option.some.inj (hdecimal.symm.trans hread), Decimal.isFinite_toFloat_iff]
    exact ⟨rfl, by decide +kernel⟩
  · obtain ⟨number, -, -, -, -, hliteral⟩ := numericLiteral_number_token source hgreatest rfl
      (.node .numericLiteral [greatest.leaf] greatest.span) rfl
    let digits := DigitRun.ofFront greatest.text.toList
    have hvalue : digits.value = 9223372036854775807 := by
      rw [← DigitRun.ofDigits_chars]
      decide
    have hliteral := hliteral digits (by decide) (by rw [hvalue]; decide)
    rw [hvalue, if_neg (by decide)] at hliteral
    exact hliteral

end TreeScript
