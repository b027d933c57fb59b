/-!
# Runs of code points

A class of characters is given by the runs of its code points. Each run is counted from the end of
the one before, so the runs of a table are in order and apart from one another.
-/

namespace TreeScript.Text

/-- Whether a number is in one of the runs. A run is the number of those left out before it and the
number of those in it. -/
def inRuns : List (Nat × Nat) → Nat → Bool
  | [], _ => false
  | (skipped, count) :: rest, n =>
    skipped ≤ n && (n < skipped + count || inRuns rest (n - (skipped + count)))

/-- Whether a character is of the class with these runs. -/
def within (runs : List (Nat × Nat)) (c : Char) : Bool := inRuns runs c.toNat

end TreeScript.Text
