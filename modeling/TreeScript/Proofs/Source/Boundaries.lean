import Mathlib.Tactic.ByContra
import TreeScript.Source

/-!
# Offsets between characters

Offsets count bytes, so not every offset is between two characters of a text. `IsBoundary` says
which ones are, by cutting the characters in two; these are the offsets where the encoded text may
be cut. The text under a span exists exactly if the span begins and ends at such offsets, in order.
-/

namespace TreeScript.Source

variable {chars : List Char} {offset : Nat} {source : String}

/-! ## Lengths in bytes -/

/-- No characters have no bytes. -/
@[simp] theorem byteLength_nil : byteLength [] = 0 := rfl

/-- Byte lengths add up. -/
@[simp] theorem byteLength_append (first second : List Char) :
    byteLength (first ++ second) = byteLength first + byteLength second := by
  induction first with
  | nil => simp
  | cons c first ih => simp [byteLength, ih, Nat.add_assoc]

/-- Every character has a byte. -/
theorem byteLength_pos (h : chars ≠ []) : 0 < byteLength chars := by
  cases chars with
  | nil => exact absurd rfl h
  | cons c rest =>
    have hpos : 0 < c.utf8Size := c.utf8Size_pos
    rw [byteLength]
    omega

/-- The bytes are those of the encoded text. -/
theorem byteLength_eq_utf8ByteSize (chars : List Char) :
    byteLength chars = (String.ofList chars).utf8ByteSize := by
  induction chars with
  | nil => rfl
  | cons c rest ih =>
    rw [byteLength, ih, String.ofList_cons, String.utf8ByteSize_append,
      String.utf8ByteSize_singleton]

/-! ## Cutting characters off -/

/-- Characters are split off by the number of their bytes. -/
theorem splitExactly?_append (taken left : List Char) :
    splitExactly? (byteLength taken) (taken ++ left) = some (taken, left) := by
  induction taken with
  | nil => cases left <;> rfl
  | cons c taken ih =>
    have hpos : 0 < c.utf8Size := c.utf8Size_pos
    have hsize : byteLength (c :: taken) = c.utf8Size + byteLength taken - 1 + 1 := by
      rw [byteLength]
      omega
    have hleft : c.utf8Size + byteLength taken - 1 + 1 - c.utf8Size = byteLength taken := by omega
    rw [hsize, List.cons_append, splitExactly?, if_pos (by omega), hleft, ih]
    rfl

/-- A text is split where so many bytes end. -/
theorem splitExactly?_eq_some {bytes : Nat} {chars taken left : List Char}
    (h : splitExactly? bytes chars = some (taken, left)) :
    chars = taken ++ left ∧ byteLength taken = bytes := by
  fun_induction splitExactly? bytes chars generalizing taken with
  | case1 chars =>
    cases h
    exact ⟨rfl, rfl⟩
  | case2 => cases h
  | case3 bytes c rest hsize ih =>
    obtain ⟨⟨more, _⟩, hmore, hpair⟩ := Option.map_eq_some_iff.mp h
    cases hpair
    obtain ⟨rfl, hbytes⟩ := ih hmore
    refine ⟨rfl, ?_⟩
    rw [byteLength, hbytes]
    omega
  | case4 => cases h

/-- The characters before an offset between two characters. -/
theorem takeWithin_append (before after : List Char) :
    takeWithin (byteLength before) (before ++ after) = before := by
  induction before with
  | nil =>
    cases after with
    | nil => rfl
    | cons c after =>
      have hpos : 0 < c.utf8Size := c.utf8Size_pos
      rw [byteLength_nil, List.nil_append, takeWithin, if_neg (by omega)]
  | cons c before ih =>
    rw [byteLength, List.cons_append, takeWithin, if_pos (Nat.le_add_right _ _),
      Nat.add_sub_cancel_left, ih]

/-- What is taken is a beginning. -/
theorem takeWithin_prefix (bytes : Nat) (chars : List Char) : takeWithin bytes chars <+: chars := by
  fun_induction takeWithin bytes chars with
  | case1 => exact List.prefix_rfl
  | case2 bytes c rest _ ih => exact List.cons_prefix_cons.mpr ⟨rfl, ih⟩
  | case3 => exact List.nil_prefix

/-! ## Boundaries -/

/-- The offset is in front of a character or at the end. -/
def IsBoundary (chars : List Char) (offset : Nat) : Prop :=
  ∃ front back, chars = front ++ back ∧ byteLength front = offset

/-- A text begins at a boundary. -/
theorem isBoundary_zero (chars : List Char) : IsBoundary chars 0 := ⟨[], chars, rfl, rfl⟩

/-- Behind the first character, the boundaries are those of the rest. -/
theorem isBoundary_cons_iff {c : Char} {rest : List Char} :
    IsBoundary (c :: rest) offset ↔
      offset = 0 ∨ ∃ size, IsBoundary rest size ∧ offset = c.utf8Size + size := by
  constructor
  · rintro ⟨front, back, hsplit, rfl⟩
    cases front with
    | nil => exact .inl rfl
    | cons d front =>
      obtain ⟨rfl, hrest⟩ := List.cons.inj hsplit
      exact .inr ⟨byteLength front, ⟨front, back, hrest, rfl⟩, rfl⟩
  · rintro (rfl | ⟨size, ⟨front, back, rfl, rfl⟩, rfl⟩)
    · exact isBoundary_zero _
    · exact ⟨c :: front, back, rfl, rfl⟩

/-- Boundaries are inside the text. -/
theorem IsBoundary.le_byteLength (h : IsBoundary chars offset) : offset ≤ byteLength chars := by
  obtain ⟨front, back, rfl, rfl⟩ := h
  rw [byteLength_append]
  exact Nat.le_add_right _ _

/-- The boundaries are the offsets where the encoded text may be cut. -/
theorem isBoundary_iff_isValid :
    IsBoundary source.toList offset ↔ String.Pos.Raw.IsValid source ⟨offset⟩ := by
  rw [String.Pos.Raw.isValid_iff_exists_append]
  constructor
  · rintro ⟨front, back, hsource, rfl⟩
    refine ⟨String.ofList front, String.ofList back, ?_, ?_⟩
    · rw [← String.ofList_append, ← hsource, String.ofList_toList]
    · rw [byteLength_eq_utf8ByteSize]
      rfl
  · rintro ⟨front, back, rfl, hoffset⟩
    refine ⟨front.toList, back.toList, String.toList_append, ?_⟩
    rw [byteLength_eq_utf8ByteSize, String.ofList_toList]
    exact (congrArg String.Pos.Raw.byteIdx hoffset).symm

/-- The characters under the span of a part are that part. -/
theorem slice?_append (before part after : List Char) :
    slice? (String.ofList (before ++ part ++ after))
      ⟨byteLength before, byteLength before + byteLength part⟩ = some part := by
  have hlength : Span.length? ⟨byteLength before, byteLength before + byteLength part⟩ =
      some (byteLength part) := by
    simp [Span.length?]
  unfold slice?
  rw [hlength, String.toList_ofList, List.append_assoc]
  simp [splitExactly?_append]

/-- The characters stand under the span, behind as many bytes as it starts with. -/
def IsUnder (source : String) (span : Span) (text : List Char) : Prop :=
  ∃ front back, source.toList = front ++ text ++ back ∧ byteLength front = span.start ∧
    byteLength front + byteLength text = span.stop

/-- A span has the text under it. -/
theorem slice?_eq_some_iff {span : Span} {text : List Char} :
    slice? source span = some text ↔ IsUnder source span text := by
  constructor
  · intro h
    simp only [slice?, Span.length?, Option.bind_eq_bind, Option.bind_eq_some_iff, Prod.exists] at h
    obtain ⟨size, hsize, front, rest, hfront, part, back, hpart, htext⟩ := h
    split at hsize
    · obtain ⟨hsource, hstart⟩ := splitExactly?_eq_some hfront
      obtain ⟨rfl, hstop⟩ := splitExactly?_eq_some hpart
      cases hsize
      cases htext
      refine ⟨front, back, ?_, hstart, by omega⟩
      rw [hsource, List.append_assoc]
    · cases hsize
  · rintro ⟨front, back, hsource, hstart, hstop⟩
    have hslice := slice?_append front text back
    rwa [← hsource, String.ofList_toList, hstart, ← hstart, hstop, hstart] at hslice

/-- A text under a span has boundaries at its ends. -/
theorem IsUnder.isBoundary {span : Span} {text : List Char} (h : IsUnder source span text) :
    IsBoundary source.toList span.start ∧ IsBoundary source.toList span.stop := by
  obtain ⟨front, back, hsource, hstart, hstop⟩ := h
  refine ⟨⟨front, text ++ back, ?_, hstart⟩, front ++ text, back, hsource, ?_⟩
  · rw [hsource, List.append_assoc]
  · rw [byteLength_append, hstop]

/-- There is a text between any two boundaries. -/
theorem exists_slice? {low high : Nat} (hlow : IsBoundary source.toList low)
    (hhigh : IsBoundary source.toList high) (hle : low ≤ high) :
    ∃ text, slice? source ⟨low, high⟩ = some text := by
  obtain ⟨front, rest, hsource, rfl⟩ := hlow
  obtain ⟨long, back, hlong, rfl⟩ := hhigh
  obtain ⟨part, rfl⟩ : ∃ part, long = front ++ part := by
    rcases List.append_eq_append_iff.mp (hsource.symm.trans hlong) with
      ⟨part, hpart, -⟩ | ⟨part, rfl, -⟩
    · exact ⟨part, hpart⟩
    · have hnil : part = [] := by
        by_contra hne
        have hpos := byteLength_pos hne
        rw [byteLength_append] at hle
        omega
      exact ⟨[], by rw [hnil, List.append_nil, List.append_nil]⟩
  refine ⟨part, ?_⟩
  have hslice := slice?_append front part back
  rwa [← hlong, String.ofList_toList, ← byteLength_append] at hslice

end TreeScript.Source
