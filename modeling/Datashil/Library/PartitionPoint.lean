import Mathlib.Data.List.Nodup
import Mathlib.Tactic.Common

/-! Halving search for the boundary of a partitioned range: the algorithm behind
`std::lower_bound` and `std::upper_bound`. -/

namespace Datashil.Library

/-- Search `[first, first + length)`. The range halves on every turn, so its
length is enough fuel. -/
def partitionPoint (below : Nat → Bool) : (fuel first length : Nat) → Nat
  | 0, first, _ => first
  | fuel + 1, first, length =>
    if length = 0 then first
    else
      let half := length / 2
      if below (first + half) then partitionPoint below fuel (first + half + 1) (length - half - 1)
      else partitionPoint below fuel first half

/-- The search stays in its range, whatever it asks. -/
theorem partitionPoint_le (below : Nat → Bool) (fuel first length : Nat) :
    partitionPoint below fuel first length ≤ first + length := by
  induction fuel generalizing first length with
  | zero => exact Nat.le_add_right first length
  | succ fuel ih =>
    simp only [partitionPoint]
    split
    · exact Nat.le_add_right first length
    next nonempty =>
      have half : length / 2 < length := Nat.div_lt_self (Nat.pos_of_ne_zero nonempty) (by decide)
      split
      · exact Nat.le_trans (ih _ _) (by omega)
      · exact Nat.le_trans (ih _ _) (by omega)

/-- It only asks inside of its range. -/
theorem partitionPoint_congr {below below' : Nat → Bool} (fuel first length : Nat)
    (same : ∀ i, first ≤ i → i < first + length → below i = below' i) :
    partitionPoint below fuel first length = partitionPoint below' fuel first length := by
  induction fuel generalizing first length with
  | zero => rfl
  | succ fuel ih =>
    simp only [partitionPoint]
    by_cases empty : length = 0
    · rw [if_pos empty, if_pos empty]
    · have half : length / 2 < length := Nat.div_lt_self (Nat.pos_of_ne_zero empty) (by decide)
      rw [if_neg empty, if_neg empty, same (first + length / 2) (Nat.le_add_right _ _) (by omega),
        ih _ _ fun i above below => same i (by omega) (by omega), ih _ _ fun i above below =>
          same i above (by omega)]

theorem partitionPoint_eq (below : Nat → Bool) {cut : Nat} (fuel first length : Nat) (enough : length ≤ fuel)
    (low : first ≤ cut) (high : cut ≤ first + length)
    (before : ∀ i, first ≤ i → i < cut → below i = true)
    (after : ∀ i, cut ≤ i → i < first + length → below i = false) :
    partitionPoint below fuel first length = cut := by
  induction fuel generalizing first length with
  | zero => simp only [partitionPoint]; omega
  | succ fuel ih =>
    simp only [partitionPoint]
    split
    · omega
    next nonempty =>
      split
      next left =>
        have inside : first + length / 2 < cut := by
          by_contra beyond
          have right := after (first + length / 2) (by omega) (by omega)
          simp [left] at right
        exact ih _ _ (by omega) (by omega) (by omega)
          (fun i above upTo => before i (by omega) upTo) (fun i from' upTo => after i from' (by omega))
      next right =>
        have outside : cut ≤ first + length / 2 := by
          by_contra inside
          exact right (before _ (by omega) (by omega))
        exact ih _ _ (by omega) low (by omega) before (fun i from' upTo => after i from' (by omega))

end Datashil.Library
