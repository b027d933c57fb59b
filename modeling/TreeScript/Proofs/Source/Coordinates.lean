import Mathlib.Data.List.Induction
import Mathlib.Order.Bounds.Basic
import TreeScript.Proofs.Source.Boundaries

/-!
# Lines and columns as coordinates

The line and the column of an offset are found by counting in the characters before it. The other
way round, a line and a column lead to an offset: `walk?` skips line feeds from the start of a text
and then characters, and gives up where a line is too short. The two are inverse to one another on
the offsets between characters, and going on in a text means going on in lines and columns. An
offset inside a character or past the end counts as the last boundary in front of it.
-/

namespace TreeScript

/-- The order of places in a text: by lines, and on one line by columns. -/
def Position.Precedes (first second : Position) : Prop :=
  first.line < second.line ∨ first.line = second.line ∧ first.column < second.column

namespace Position.Precedes

variable {first second third : Position}

/-- Order is transitive. -/
theorem trans (h : first.Precedes second) (hnext : second.Precedes third) :
    first.Precedes third := by
  unfold Precedes at h hnext ⊢
  omega

/-- No place precedes itself. -/
theorem irrefl (place : Position) : ¬ place.Precedes place := by
  unfold Precedes
  omega

end Position.Precedes

namespace Source

/-! ## Walking to a place -/

/-- The number of bytes passed when so many line feeds are skipped, with all in front of them, and
then so many characters. None of the latter may be a line feed. -/
def walk? : Nat → Nat → List Char → Option Nat
  | 0, 0, _ => some 0
  | 0, columns + 1, c :: rest =>
    if c = '\n' then none else (walk? 0 columns rest).map (c.utf8Size + ·)
  | lines + 1, columns, c :: rest =>
    (walk? (if c = '\n' then lines else lines + 1) columns rest).map (c.utf8Size + ·)
  | _, _, [] => none

/-- The offset that a line and a column lead to, both counted from one. -/
def offset? (source : String) (place : Position) : Option Nat :=
  match place with
  | ⟨line + 1, column + 1⟩ => walk? line column source.toList
  | _ => none

/-! ## Places after characters -/

/-- Lines count from one. -/
theorem one_le_line_positionAfter (chars : List Char) : 1 ≤ (positionAfter chars).line :=
  Nat.le_add_left 1 _

/-- A character more leads to the next line or to the next column. -/
theorem positionAfter_concat (chars : List Char) (c : Char) :
    positionAfter (chars ++ [c]) =
      if c = '\n' then ⟨(positionAfter chars).line + 1, 1⟩
      else ⟨(positionAfter chars).line, (positionAfter chars).column + 1⟩ := by
  by_cases hc : c = '\n' <;> simp [positionAfter, hc]

/-- A character in front moves a place to the next line or, on the first line only, to the next
column. -/
theorem positionAfter_cons (c : Char) (chars : List Char) :
    positionAfter (c :: chars) =
      if c = '\n' then ⟨(positionAfter chars).line + 1, (positionAfter chars).column⟩
      else if (positionAfter chars).line = 1 then ⟨1, (positionAfter chars).column + 1⟩
      else positionAfter chars := by
  induction chars using List.reverseRecOn with
  | nil => by_cases hc : c = '\n' <;> simp [positionAfter, hc]
  | append_singleton chars d ih =>
    have hline := one_le_line_positionAfter chars
    have hnext : (positionAfter chars).line + 1 ≠ 1 := by omega
    rw [← List.cons_append, positionAfter_concat, positionAfter_concat, ih]
    by_cases hc : c = '\n'
    · by_cases hd : d = '\n' <;> simp only [hc, hd, if_true, if_false]
    · by_cases hfirst : (positionAfter chars).line = 1
      · by_cases hd : d = '\n' <;> simp [hc, hd, hfirst]
      · by_cases hd : d = '\n' <;> simp only [hc, hd, hfirst, hnext, if_true, if_false]

/-- Whatever is added leads on. -/
theorem precedes_positionAfter (before : List Char) {added : List Char} (h : added ≠ []) :
    (positionAfter before).Precedes (positionAfter (before ++ added)) := by
  have hstep (chars : List Char) (c : Char) :
      (positionAfter chars).Precedes (positionAfter (chars ++ [c])) := by
    rw [positionAfter_concat]
    split
    · exact .inl (Nat.lt_succ_self _)
    · exact .inr ⟨rfl, Nat.lt_succ_self _⟩
  induction added using List.reverseRecOn with
  | nil => exact absurd rfl h
  | append_singleton added c ih =>
    rw [← List.append_assoc]
    cases added with
    | nil =>
      rw [List.append_nil]
      exact hstep before c
    | cons d added => exact (ih (List.cons_ne_nil _ _)).trans (hstep _ c)

/-- Only nothing ends where it begins. -/
theorem eq_nil_of_positionAfter {before added : List Char}
    (h : positionAfter (before ++ added) = positionAfter before) : added = [] := by
  by_contra hadded
  have hprecedes := precedes_positionAfter before hadded
  rw [h] at hprecedes
  exact Position.Precedes.irrefl _ hprecedes

/-- The place of an offset between two characters. -/
theorem position_append {source : String} {before after : List Char}
    (h : source.toList = before ++ after) :
    position source (byteLength before) = positionAfter before := by
  rw [position, h, takeWithin_append]

/-! ## Places lead back -/

/-- The offset is between two characters, and the place is that of the characters before it. -/
def Locates (chars : List Char) (place : Position) (offset : Nat) : Prop :=
  ∃ front back, chars = front ++ back ∧ byteLength front = offset ∧ positionAfter front = place

section

variable {c : Char} {chars rest : List Char} {place place' : Position} {offset : Nat}

/-- The first place is the beginning. -/
theorem locates_start : Locates chars ⟨1, 1⟩ offset ↔ offset = 0 := by
  constructor
  · rintro ⟨front, back, -, rfl, hplace⟩
    rw [← List.nil_append front] at hplace
    rw [eq_nil_of_positionAfter hplace, byteLength_nil]
  · rintro rfl
    exact ⟨[], chars, rfl, rfl, rfl⟩

/-- An empty text has one place. -/
theorem not_locates_nil (h : place ≠ ⟨1, 1⟩) : ¬ Locates [] place offset := by
  rintro ⟨front, back, hsplit, -, hplace⟩
  obtain ⟨rfl, -⟩ := List.append_eq_nil_iff.mp hsplit.symm
  exact h hplace.symm

/-- Behind the first character, a place is found as one in the rest is. -/
theorem locates_cons (hstart : place ≠ ⟨1, 1⟩)
    (hplace : ∀ front, positionAfter (c :: front) = place ↔ positionAfter front = place') :
    Locates (c :: rest) place offset ↔
      ∃ size, Locates rest place' size ∧ c.utf8Size + size = offset := by
  constructor
  · rintro ⟨front, back, hsplit, rfl, hfront⟩
    cases front with
    | nil => exact absurd hfront.symm hstart
    | cons d front =>
      obtain ⟨rfl, hrest⟩ := List.cons.inj hsplit
      exact ⟨byteLength front, ⟨front, back, hrest, rfl, (hplace front).mp hfront⟩, rfl⟩
  · rintro ⟨size, ⟨front, back, rfl, rfl, hfront⟩, rfl⟩
    exact ⟨c :: front, back, rfl, rfl, (hplace front).mpr hfront⟩

end

/-- On the first line, a character in front makes a column. -/
theorem positionAfter_cons_eq_first {c : Char} (hc : c ≠ '\n') (columns : Nat) (front : List Char) :
    positionAfter (c :: front) = ⟨1, columns + 2⟩ ↔ positionAfter front = ⟨1, columns + 1⟩ := by
  rw [positionAfter_cons, if_neg hc]
  rcases positionAfter front with ⟨line, column⟩
  by_cases hline : line = 1 <;> simp [hline]

/-- On later lines, a line feed in front makes a line and all else makes nothing. -/
theorem positionAfter_cons_eq_later (c : Char) (lines columns : Nat) (front : List Char) :
    positionAfter (c :: front) = ⟨lines + 2, columns + 1⟩ ↔
      positionAfter front = ⟨(if c = '\n' then lines else lines + 1) + 1, columns + 1⟩ := by
  rw [positionAfter_cons]
  rcases positionAfter front with ⟨line, column⟩
  by_cases hc : c = '\n'
  · simp [hc]
  · by_cases hline : line = 1 <;> simp [hc, hline]

/-- Skipping line feeds and then characters leads to the offset with that place. -/
theorem walk?_eq_some_iff {lines columns offset : Nat} {chars : List Char} :
    walk? lines columns chars = some offset ↔
      Locates chars ⟨lines + 1, columns + 1⟩ offset := by
  fun_induction walk? lines columns chars generalizing offset with
  | case1 chars =>
    rw [locates_start, Option.some.injEq]
    exact eq_comm
  | case2 columns rest =>
    refine ⟨fun h => (nomatch h), ?_⟩
    rintro ⟨front, back, hsplit, -, hfront⟩
    cases front with
    | nil => cases hfront
    | cons d front =>
      obtain ⟨rfl, -⟩ := List.cons.inj hsplit
      have hline := one_le_line_positionAfter front
      rw [positionAfter_cons, if_pos rfl, Position.mk.injEq] at hfront
      omega
  | case3 columns c rest hc ih =>
    rw [Option.map_eq_some_iff, locates_cons (by simp) (positionAfter_cons_eq_first hc columns)]
    exact exists_congr fun size => and_congr_left fun _ => ih
  | case4 lines columns c rest ih =>
    rw [Option.map_eq_some_iff,
      locates_cons (by simp) (positionAfter_cons_eq_later c lines columns)]
    exact exists_congr fun size => and_congr_left fun _ => ih
  | case5 lines columns hstart =>
    refine ⟨fun h => (nomatch h), fun h => absurd h (not_locates_nil ?_)⟩
    intro hplace
    obtain ⟨hline, hcolumn⟩ := Position.mk.inj hplace
    exact hstart (by omega) (by omega)

/-- A line and a column lead to an offset exactly if it is between two characters and they are its
line and column. -/
theorem offset?_eq_some_iff {source : String} {place : Position} {offset : Nat} :
    offset? source place = some offset ↔
      IsBoundary source.toList offset ∧ position source offset = place := by
  have hlocates : Locates source.toList place offset ↔
      IsBoundary source.toList offset ∧ position source offset = place := by
    constructor
    · rintro ⟨front, back, hsource, rfl, hplace⟩
      exact ⟨⟨front, back, hsource, rfl⟩, (position_append hsource).trans hplace⟩
    · rintro ⟨⟨front, back, hsource, rfl⟩, hplace⟩
      exact ⟨front, back, hsource, rfl, (position_append hsource).symm.trans hplace⟩
  rw [← hlocates]
  unfold offset?
  split
  · exact walk?_eq_some_iff
  · rename_i hzero
    refine ⟨fun h => (nomatch h), ?_⟩
    rintro ⟨front, back, -, -, rfl⟩
    exact absurd rfl (hzero (front.count '\n') _)

/-! ## Order and rounding -/

/-- Going on in a text is going on in lines and columns. -/
theorem precedes_of_lt {source : String} {low high : Nat} (hlow : IsBoundary source.toList low)
    (hhigh : IsBoundary source.toList high) (hlt : low < high) :
    (position source low).Precedes (position source high) := by
  obtain ⟨front, back, hsource, rfl⟩ := hlow
  obtain ⟨long, rest, hlong, rfl⟩ := hhigh
  rw [position_append hsource, position_append hlong]
  rcases List.append_eq_append_iff.mp (hsource.symm.trans hlong) with
    ⟨added, rfl, -⟩ | ⟨added, rfl, -⟩
  · apply precedes_positionAfter
    rintro rfl
    rw [List.append_nil] at hlt
    exact lt_irrefl _ hlt
  · rw [byteLength_append] at hlt
    omega

/-- The characters that fit into some bytes end at the last boundary that does. -/
theorem isGreatest_takeWithin (bytes : Nat) (chars : List Char) :
    IsGreatest {offset | IsBoundary chars offset ∧ offset ≤ bytes}
      (byteLength (takeWithin bytes chars)) := by
  induction chars generalizing bytes with
  | nil =>
    refine ⟨⟨isBoundary_zero _, Nat.zero_le _⟩, ?_⟩
    rintro offset ⟨hoffset, -⟩
    exact hoffset.le_byteLength
  | cons c rest ih =>
    rw [takeWithin]
    split
    · rename_i hfits
      obtain ⟨⟨hlast, hle⟩, hgreatest⟩ := ih (bytes - c.utf8Size)
      rw [byteLength]
      refine ⟨⟨isBoundary_cons_iff.mpr (.inr ⟨_, hlast, rfl⟩), by omega⟩, ?_⟩
      rintro offset ⟨hoffset, hbytes⟩
      rcases isBoundary_cons_iff.mp hoffset with rfl | ⟨size, hsize, rfl⟩
      · exact Nat.zero_le _
      · exact Nat.add_le_add_left (hgreatest ⟨hsize, by omega⟩) _
    · rename_i hlong
      refine ⟨⟨isBoundary_zero _, Nat.zero_le _⟩, ?_⟩
      rintro offset ⟨hoffset, hbytes⟩
      rcases isBoundary_cons_iff.mp hoffset with rfl | ⟨size, -, rfl⟩
      · exact le_rfl
      · omega

/-- Lines and columns are exact coordinates of a text. At a character boundary, they lead back to
the offset, and no other line and column do: skipping the line feeds before the line and then the
characters before the column arrives there, without passing another line feed. Going on in the text
is going on in lines and columns, so they tell the boundaries apart. Any other offset, inside a
character or past the end, has the line and column of the last boundary that is not behind it. -/
theorem position_exact (source : String) :
    (∀ (place : Position) (offset : Nat), offset? source place = some offset ↔
      String.Pos.Raw.IsValid source ⟨offset⟩ ∧ position source offset = place) ∧
    (∀ low high : Nat, String.Pos.Raw.IsValid source ⟨low⟩ → String.Pos.Raw.IsValid source ⟨high⟩ →
      (low < high ↔ (position source low).Precedes (position source high)) ∧
      (position source low = position source high → low = high)) ∧
    ∀ offset : Nat, ∃ boundary,
      IsGreatest {p | String.Pos.Raw.IsValid source ⟨p⟩ ∧ p ≤ min offset source.utf8ByteSize}
        boundary ∧
      position source offset = position source boundary := by
  simp only [← isBoundary_iff_isValid]
  refine ⟨fun place offset => offset?_eq_some_iff, ?_, ?_⟩
  · intro low high hlow hhigh
    have hlt := precedes_of_lt hlow hhigh
    have hgt := precedes_of_lt hhigh hlow
    refine ⟨⟨hlt, fun hprecedes => ?_⟩, fun hsame => ?_⟩
    · rcases lt_trichotomy low high with hless | rfl | hgreater
      · exact hless
      · exact absurd hprecedes (Position.Precedes.irrefl _)
      · exact absurd (hprecedes.trans (hgt hgreater)) (Position.Precedes.irrefl _)
    · rw [hsame] at hlt hgt
      have hirrefl := Position.Precedes.irrefl (position source high)
      exact le_antisymm (not_lt.mp fun h => hirrefl (hgt h)) (not_lt.mp fun h => hirrefl (hlt h))
  · intro offset
    have hsize : source.utf8ByteSize = byteLength source.toList := by
      rw [byteLength_eq_utf8ByteSize, String.ofList_toList]
    obtain ⟨⟨hlast, hle⟩, hgreatest⟩ := isGreatest_takeWithin offset source.toList
    refine ⟨_, ⟨⟨hlast, ?_⟩, fun p hp => ?_⟩, ?_⟩
    · rw [hsize]
      exact le_min hle hlast.le_byteLength
    · exact hgreatest ⟨hp.1, hp.2.trans (min_le_left _ _)⟩
    · obtain ⟨back, hsource⟩ := takeWithin_prefix offset source.toList
      exact (position_append hsource.symm).symm

/-- The end of a quoted letter of two bytes is before the next line, and an offset inside the letter
counts as one before it. -/
theorem position_exact_accented :
    String.Pos.Raw.IsValid "'é'\nx" ⟨3⟩ ∧ String.Pos.Raw.IsValid "'é'\nx" ⟨5⟩ ∧
      (position "'é'\nx" 3).Precedes (position "'é'\nx" 5) ∧
      ∃ boundary ≤ 2, String.Pos.Raw.IsValid "'é'\nx" ⟨boundary⟩ ∧
        position "'é'\nx" 2 = position "'é'\nx" boundary := by
  obtain ⟨hoffset, horder, hround⟩ := position_exact "'é'\nx"
  have hquote := (hoffset ⟨1, 3⟩ 3).mp (by decide)
  have hname := (hoffset ⟨2, 1⟩ 5).mp (by decide)
  refine ⟨hquote.1, hname.1, (horder 3 5 hquote.1 hname.1).1.mp (by decide), ?_⟩
  obtain ⟨boundary, ⟨⟨hvalid, hle⟩, -⟩, hsame⟩ := hround 2
  exact ⟨boundary, hle.trans (min_le_left _ _), hvalid, hsame⟩

end Source

end TreeScript
