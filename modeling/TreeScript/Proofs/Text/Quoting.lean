import Mathlib.Tactic.IntervalCases
import TreeScript.Proofs.Token.Spelling
import TreeScript.Text.Quoted

/-!
# Quoted texts can be told apart

What one character of a quoted text is written as is never the beginning of what another one is
written as. So a quoted text has one content only. No line feed is left in it.
-/

namespace TreeScript.Text

/-! ## Digits -/

/-- Digits are told apart. -/
theorem digitChar_injective {m n : Nat} (hm : m < 16) (hn : n < 16)
    (h : m.digitChar = n.digitChar) : m = n := by
  interval_cases m <;> interval_cases n <;> first | rfl | exact absurd h (by decide)

/-- A number is read off its digits. -/
theorem toDigits_injective {base : Nat} (hbase : 1 < base) (hle : base ≤ 16) {m n : Nat}
    (h : Nat.toDigits base m = Nat.toDigits base n) : m = n := by
  induction m using Nat.strongRecOn generalizing n with
  | ind m ih =>
    have hdigit (k : Nat) : k % base < 16 := (Nat.mod_lt _ (by omega)).trans_le hle
    have hpos (k : Nat) : 0 < (Nat.toDigits base k).length :=
      List.length_pos_iff.mpr Nat.toDigits_ne_nil
    rw [@Nat.toDigits_eq_if base m hbase, @Nat.toDigits_eq_if base n hbase] at h
    split at h <;> split at h
    · exact digitChar_injective (by omega) (by omega) (List.singleton_inj.mp h)
    · have hlength := congrArg List.length h
      have hfront := hpos (n / base)
      rw [List.length_append, List.length_singleton, List.length_singleton] at hlength
      omega
    · have hlength := congrArg List.length h
      have hfront := hpos (m / base)
      rw [List.length_append, List.length_singleton, List.length_singleton] at hlength
      omega
    · obtain ⟨hfront, hlast⟩ := List.append_inj' h rfl
      have hquotient : m / base = n / base :=
        ih (m / base) (Nat.div_lt_self (by omega) hbase) hfront
      have hrest := digitChar_injective (hdigit m) (hdigit n) (List.singleton_inj.mp hlast)
      rw [← Nat.div_add_mod m base, ← Nat.div_add_mod n base, hquotient, hrest]

/-- A number is read off its decimal text. -/
theorem natText_injective {m n : Nat} (h : m.repr = n.repr) : m = n := by
  have hdigits := congrArg String.toList h
  rw [Nat.toList_repr, Nat.toList_repr] at hdigits
  exact toDigits_injective (by decide) (by decide) hdigits

/-- No number begins with the sign of a negative one. -/
theorem natText_ne_minus (m : Nat) (text : String) : m.repr ≠ "-" ++ text := by
  intro h
  have hmem : '-' ∈ Nat.toDigits 10 m := by
    rw [← Nat.toList_repr, h, String.toList_append]
    exact List.mem_append_left _ (by decide)
  exact absurd (Nat.isDigit_of_mem_toDigits (by decide) (by decide) hmem) (by decide)

/-- An integer is read off its decimal text. -/
theorem intText_injective {m n : Int} (h : m.repr = n.repr) : m = n := by
  rcases m with m | m <;> rcases n with n | n
  · rw [natText_injective h]
  · exact absurd h (natText_ne_minus m _)
  · exact absurd h.symm (natText_ne_minus n _)
  · rw [Nat.succ.inj (natText_injective ((String.append_right_inj "-").mp h))]

/-- The digits of a number are digits. -/
theorem exists_digitChar_of_mem {base n : Nat} (hbase : 1 < base) {c : Char}
    (h : c ∈ Nat.toDigits base n) : ∃ digit : Nat, c = digit.digitChar := by
  induction n using Nat.strongRecOn with
  | ind n ih =>
    rw [Nat.toDigits_eq_if hbase] at h
    split at h
    · exact ⟨n, List.mem_singleton.mp h⟩
    · rcases List.mem_append.mp h with hfront | hlast
      · exact ih (n / base) (Nat.div_lt_self (by omega) hbase) hfront
      · exact ⟨n % base, List.mem_singleton.mp hlast⟩

/-! ## Characters -/

/-- The characters that are written as a letter after a backslash. -/
def letterEscapes : List (Char × Char) :=
  [('\x00', '0'), ('\t', 't'), ('\n', 'n'), ('\r', 'r'), ('"', '"'), ('\\', '\\')]

/-- A character is written as it is, as a letter after a backslash or by its code point. -/
theorem quoteChar_cases (c : Char) :
    (c ∉ letterEscapes.map Prod.fst ∧ quoteChar c = [c]) ∨
      (∃ letter, (c, letter) ∈ letterEscapes ∧ quoteChar c = ['\\', letter]) ∨
      quoteChar c = escapeCodePoint c := by
  unfold quoteChar
  split
  · exact .inr (.inl ⟨'0', by decide, rfl⟩)
  · exact .inr (.inl ⟨'t', by decide, rfl⟩)
  · exact .inr (.inl ⟨'n', by decide, rfl⟩)
  · exact .inr (.inl ⟨'r', by decide, rfl⟩)
  · exact .inr (.inl ⟨'"', by decide, rfl⟩)
  · exact .inr (.inl ⟨'\\', by decide, rfl⟩)
  · split
    · refine .inl ⟨?_, rfl⟩
      simp only [letterEscapes, List.map_cons, List.map_nil, List.mem_cons, List.not_mem_nil]
      tauto
    · exact .inr (.inr rfl)

/-- A quoted character is not empty. -/
theorem quoteChar_ne_nil (c : Char) : quoteChar c ≠ [] := by
  rcases quoteChar_cases c with ⟨-, h⟩ | ⟨letter, -, h⟩ | h <;> rw [h] <;>
    exact List.cons_ne_nil _ _

/-- A quoted character has no line feed. -/
theorem lineFeed_notMem_quoteChar (c : Char) : '\n' ∉ quoteChar c := by
  rcases quoteChar_cases c with ⟨hplain, h⟩ | ⟨letter, hletter, h⟩ | h <;> rw [h]
  · intro hmem
    obtain rfl := List.mem_singleton.mp hmem
    exact hplain (by decide)
  · have hall : ∀ escape ∈ letterEscapes, '\n' ∉ ['\\', escape.2] := by decide
    exact hall _ hletter
  · intro hmem
    simp only [escapeCodePoint, List.mem_append, List.mem_cons, List.not_mem_nil] at hmem
    rcases hmem with (hmark | hdigit) | hmark
    · revert hmark
      decide
    · obtain ⟨digit, hdigit⟩ := exists_digitChar_of_mem (by decide) hdigit
      exact Nat.digitChar_ne '\n' rfl hdigit.symm
    · revert hmark
      decide

/-- The braces around a code point show where it ends. -/
theorem escapeCodePoint_append_injective {c d : Char} {rest rest' : List Char}
    (h : escapeCodePoint c ++ rest = escapeCodePoint d ++ rest') : c = d ∧ rest = rest' := by
  simp only [escapeCodePoint, List.cons_append, List.nil_append, List.append_assoc,
    List.cons.injEq, true_and] at h
  have hdigits (e : Char) : ∀ x ∈ Nat.toDigits 16 e.toNat, (x != '\x7d') = true := by
    intro x hx
    obtain ⟨digit, rfl⟩ := exists_digitChar_of_mem (by decide) hx
    exact bne_iff_ne.mpr (Nat.digitChar_ne '\x7d' rfl)
  have hstops (after : List Char) : Scan.Stops (· != '\x7d') ('\x7d' :: after) :=
    Scan.stops_cons rfl after
  obtain ⟨hsame, hrest⟩ :=
    Scan.append_injective_of_stops (hdigits c) (hdigits d) (hstops rest) (hstops rest') h
  have hcode := toDigits_injective (by decide) (by decide) hsame
  exact ⟨Char.toNat_inj.mp hcode, (List.cons.inj hrest).2⟩

/-- What a character is written as is never the beginning of what another one is written as. -/
theorem quoteChar_append_injective {c d : Char} {rest rest' : List Char}
    (h : quoteChar c ++ rest = quoteChar d ++ rest') : c = d ∧ rest = rest' := by
  have hplain {e : Char} (he : e ∉ letterEscapes.map Prod.fst) : e ≠ '\\' := by
    rintro rfl
    exact he (by decide)
  have hletters : ∀ escape ∈ letterEscapes, escape.2 ≠ 'u' ∧
      ∀ other ∈ letterEscapes, escape.2 = other.2 → escape.1 = other.1 := by decide
  rcases quoteChar_cases c with ⟨hc, hwritten⟩ | ⟨letter, hc, hwritten⟩ | hwritten <;>
    rcases quoteChar_cases d with ⟨hd, hwritten'⟩ | ⟨letter', hd, hwritten'⟩ | hwritten' <;>
    rw [hwritten, hwritten'] at h
  · exact List.cons.inj h
  · exact absurd (List.cons.inj h).1 (hplain hc)
  · exact absurd (List.cons.inj h).1 (hplain hc)
  · exact absurd (List.cons.inj h).1.symm (hplain hd)
  · obtain ⟨hsame, hrest⟩ := List.cons.inj (List.cons.inj h).2
    exact ⟨(hletters _ hc).2 _ hd hsame, hrest⟩
  · exact absurd (List.cons.inj (List.cons.inj h).2).1 (hletters _ hc).1
  · exact absurd (List.cons.inj h).1.symm (hplain hd)
  · exact absurd (List.cons.inj (List.cons.inj h).2).1.symm (hletters _ hd).1
  · exact escapeCodePoint_append_injective h

/-! ## Texts -/

/-- Characters are told by how they are quoted. -/
theorem flatMap_quoteChar_injective {first second : List Char}
    (h : first.flatMap quoteChar = second.flatMap quoteChar) : first = second := by
  induction first generalizing second with
  | nil =>
    cases second with
    | nil => rfl
    | cons d second => exact absurd (List.append_eq_nil_iff.mp h.symm).1 (quoteChar_ne_nil d)
  | cons c first ih =>
    cases second with
    | nil => exact absurd (List.append_eq_nil_iff.mp h).1 (quoteChar_ne_nil c)
    | cons d second =>
      obtain ⟨rfl, hrest⟩ := quoteChar_append_injective h
      rw [ih hrest]

/-- Texts are told by how they are quoted. -/
theorem quote_injective {first second : String} (h : quote first = quote second) :
    first = second := by
  have hchars := (List.cons.inj (String.ofList_injective h)).2
  exact String.toList_inj.mp (flatMap_quoteChar_injective (List.append_inj' hchars rfl).1)

/-- A quoted text has no line feed. -/
theorem lineFeed_notMem_quote (text : String) : '\n' ∉ (quote text).toList := by
  rw [quote, String.toList_ofList]
  simp only [List.cons_append, List.mem_cons, List.mem_append, List.mem_flatMap, List.not_mem_nil,
    or_false, not_or, not_exists, not_and]
  exact ⟨by decide, fun c _ => lineFeed_notMem_quoteChar c, by decide⟩

end TreeScript.Text
