/-! # Sets of code points

A character class is a list of closed ranges of code points, ascending and apart. -/

namespace PluginContract.Text

/-- Closed ranges of code points. -/
abbrev CodeRanges := List (Nat × Nat)

/-- Membership of a code point in a set of ranges. -/
def CodeRanges.has (ranges : CodeRanges) (code : Nat) : Bool :=
  ranges.any fun range => range.1 ≤ code && code ≤ range.2

/-- The range that holds a code point, if any. -/
def CodeRanges.find? (ranges : CodeRanges) (code : Nat) : Option (Nat × Nat) :=
  List.find? (fun range => range.1 ≤ code && code ≤ range.2) ranges

theorem CodeRanges.has_iff {ranges : CodeRanges} {code : Nat} :
    ranges.has code = true ↔ ∃ range ∈ ranges, range.1 ≤ code ∧ code ≤ range.2 := by
  simp [CodeRanges.has]

end PluginContract.Text
