import DesignTokens.Scalar
import Mathlib.Data.Rat.Floor
import Mathlib.Order.MinMax
import Mathlib.Tactic.Linarith

/-!
# Exact arithmetic

Over the rationals every value is below or equal to itself, so the lesser of two is their minimum,
the greater one their maximum, and bringing a value between two bounds is a matter of minima and
maxima.  Rounding keeps the order of its arguments, halves and negative values included, and it
keeps arguments apart that differ by one or more.
-/

namespace DesignTokens
namespace Scalar

variable {a b low high : Rat}

theorem lesser_eq_min (a b : Rat) : lesser a b = min a b := by
  unfold lesser
  rcases lt_or_ge b a with hlt | hle
  · rw [if_pos hlt, min_eq_right hlt.le]
  · rw [if_neg (not_lt.mpr hle), if_pos (le_refl a), min_eq_left hle]

theorem greater_eq_max (a b : Rat) : greater a b = max a b := by
  unfold greater
  rcases lt_or_ge a b with hlt | hle
  · rw [if_pos hlt, max_eq_right hlt.le]
  · rw [if_neg (not_lt.mpr hle), if_pos (le_refl a), max_eq_left hle]

/-- A value between two bounds that are in order. -/
theorem clamp_eq (h : low ≤ high) (a : Rat) : clamp low high a = max low (min a high) := by
  unfold clamp
  rcases lt_or_ge a low with hlow | hlow
  · rw [if_pos hlow, max_eq_left (min_le_of_left_le hlow.le)]
  · rw [if_neg (not_lt.mpr hlow), max_eq_right (le_min hlow h)]
    rcases lt_or_ge high a with hhigh | hhigh
    · rw [if_pos hhigh, min_eq_right hhigh.le]
    · rw [if_neg (not_lt.mpr hhigh), min_eq_left hhigh]

theorem clamp_mem (h : low ≤ high) (a : Rat) :
    low ≤ clamp low high a ∧ clamp low high a ≤ high := by
  rw [clamp_eq h]
  exact ⟨le_max_left _ _, max_le h (min_le_right _ _)⟩

/-- A value that lies between the bounds stays as it is. -/
theorem clamp_of_mem (hlow : low ≤ a) (hhigh : a ≤ high) : clamp low high a = a := by
  rw [clamp, if_neg (not_lt.mpr hlow), if_neg (not_lt.mpr hhigh)]

theorem clamp_mono (h : low ≤ high) (hab : a ≤ b) : clamp low high a ≤ clamp low high b := by
  rw [clamp_eq h, clamp_eq h]
  exact max_le_max_left low (min_le_min_right high hab)

/-- What is lower stays lower between the bounds, if the other value does not end at the lower bound
and is not above the upper one. -/
theorem clamp_lt_clamp (h : low ≤ high) (hab : a < b) (hlow : low < clamp low high b)
    (hhigh : b ≤ high) : clamp low high a < clamp low high b := by
  rw [clamp_eq h, min_eq_left hhigh] at hlow
  have habove : low < b := (lt_max_iff.mp hlow).resolve_left (lt_irrefl low)
  calc
    clamp low high a = max low (min a high) := clamp_eq h a
    _ < b := max_lt habove ((min_le_left a high).trans_lt hab)
    _ = clamp low high b := (clamp_of_mem habove.le hhigh).symm

/-! ## Whole numbers -/

theorem floor_half_nonneg (ha : 0 ≤ a) : 0 ≤ ((a + 1 / 2).floor : Rat) := by
  have hzero : ((0 : Int) : Rat) ≤ a + 1 / 2 := by
    rw [Int.cast_zero]
    linarith
  exact Int.cast_nonneg (Rat.le_floor_iff.mpr hzero)

theorem roundRat_mono (hab : a ≤ b) : roundRat a ≤ roundRat b := by
  have hfloor : ∀ {x y : Rat}, x ≤ y → ((x + 1 / 2).floor : Rat) ≤ ((y + 1 / 2).floor : Rat) :=
    fun h => Int.cast_le.mpr (Rat.floor_monotone (add_le_add_left h _))
  unfold roundRat
  by_cases hb : b < 0
  · -- Below zero the order is turned around twice.
    rw [if_pos (lt_of_le_of_lt hab hb), if_pos hb]
    exact neg_le_neg (hfloor (neg_le_neg hab))
  · rw [if_neg hb]
    by_cases ha : a < 0
    · rw [if_pos ha]
      have hneg := neg_nonpos.mpr (floor_half_nonneg (neg_nonneg.mpr ha.le))
      exact hneg.trans (floor_half_nonneg (not_lt.mp hb))
    · rw [if_neg ha]
      exact hfloor hab

/-- The whole parts of two values lose less than two of their sum. -/
theorem one_le_floor_add_floor (h : 2 ≤ a + b) : (1 : Rat) ≤ a.floor + b.floor := by
  have ha : a - 1 < a.floor := Rat.lt_floor
  have hb : b - 1 < b.floor := Rat.lt_floor
  have hpos : ((0 : Int) : Rat) < (a.floor + b.floor : Int) := by
    push_cast
    linarith
  exact_mod_cast Int.cast_lt.mp hpos

/-- One less is rounded to at least one less. -/
theorem roundRat_sub_one_le (a : Rat) : roundRat (a - 1) ≤ roundRat a - 1 := by
  unfold roundRat
  rcases lt_or_ge a 0 with ha | ha
  · have hshift : -(a - 1) + 1 / 2 = -a + 1 / 2 + 1 := by ring
    rw [if_pos ha, if_pos (by linarith), hshift, Rat.floor_add_one]
    push_cast
    linarith
  · rcases lt_or_ge a 1 with hone | hone
    · -- Zero is passed, so the two sides round away from each other.
      rw [if_neg (not_lt.mpr ha), if_pos (by linarith)]
      have htwo : 2 ≤ a + 1 / 2 + (-(a - 1) + 1 / 2) := by linarith
      linarith [one_le_floor_add_floor htwo]
    · have hshift : a + 1 / 2 = a - 1 + 1 / 2 + 1 := by ring
      rw [if_neg (not_lt.mpr ha), if_neg (not_lt.mpr (by linarith)), hshift, Rat.floor_add_one]
      push_cast
      linarith

theorem toNat_mono (hab : a ≤ b) : toNat a ≤ toNat b :=
  Int.toNat_le_toNat (Rat.floor_monotone hab)

theorem toNat_le_of_le {n : Nat} (h : a ≤ n) : toNat a ≤ n := by
  have hfloor : a.floor ≤ (n : Int) := by
    have hcast : (a.floor : Rat) ≤ ((n : Int) : Rat) := (Rat.floor_le a).trans (by simpa using h)
    exact Int.cast_le.mp hcast
  exact Int.toNat_le.mpr hfloor

end Scalar
end DesignTokens
