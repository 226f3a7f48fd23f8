import DesignTokens.Naming.Grading
import DesignTokens.Proofs.Scalar
import Mathlib.Tactic.GCongr

/-!
# Bounds and order of the confidence

Over the rationals a confidence lies between the floor and one, and more aliases or skipped
segments never raise it.  Between the penalties and the result stand a rounding to three places and
two bounds, so a penalty counts for certain only if it is a thousandth or more and the value that
it lowers is not beyond the bounds.
-/

namespace DesignTokens.Naming

namespace Grading

structure IsNonneg (g : Grading Rat) : Prop where
  aliasPenalty : 0 ≤ g.aliasPenalty
  skipPenalty : 0 ≤ g.skipPenalty
  otherAliasPenalty : 0 ≤ g.otherAliasPenalty

/-! ## Rounding to three places -/

/-- The nearest value with three places. -/
def toThousandths (x : Rat) : Rat := roundRat (x * 1000) / 1000

theorem toThousandths_mono {x y : Rat} (h : x ≤ y) : toThousandths x ≤ toThousandths y := by
  have hscaled : x * 1000 ≤ y * 1000 := by linarith
  have hround := Scalar.roundRat_mono hscaled
  exact div_le_div_of_nonneg_right hround (by norm_num)

/-- Values that are a thousandth apart are not rounded to the same. -/
theorem toThousandths_lt {x y : Rat} (h : x ≤ y - 1 / 1000) :
    toThousandths x < toThousandths y := by
  have hscaled : x * 1000 ≤ y * 1000 - 1 := by linarith
  have hround : roundRat (x * 1000) ≤ roundRat (y * 1000) - 1 :=
    (Scalar.roundRat_mono hscaled).trans (Scalar.roundRat_sub_one_le _)
  unfold toThousandths
  linarith

theorem toThousandths_one : toThousandths 1 = 1 := by decide +kernel

/-! ## Confidence -/

variable {g : Grading Rat} {aliases aliases' skipped skipped' others others' : Nat}

/-- The confidence before it is bounded. -/
def rounded (g : Grading Rat) (aliases skipped others : Nat) : Rat :=
  toThousandths (g.raw aliases skipped others)

theorem confidence_eq (g : Grading Rat) (aliases skipped others : Nat) :
    g.confidence aliases skipped others =
      Scalar.clamp g.floor 1 (g.rounded aliases skipped others) :=
  rfl

theorem raw_eq (g : Grading Rat) (aliases skipped others : Nat) :
    g.raw aliases skipped others =
      g.base - g.aliasPenalty * aliases - g.skipPenalty * skipped - g.otherAliasPenalty * others :=
  rfl

theorem raw_antitone (hg : g.IsNonneg) (ha : aliases ≤ aliases') (hs : skipped ≤ skipped')
    (ho : others ≤ others') : g.raw aliases' skipped' others' ≤ g.raw aliases skipped others := by
  obtain ⟨_, _, _⟩ := hg
  rw [raw_eq, raw_eq]
  gcongr

theorem raw_alias_succ (g : Grading Rat) (aliases skipped others : Nat) :
    g.raw (aliases + 1) skipped others = g.raw aliases skipped others - g.aliasPenalty := by
  rw [raw_eq, raw_eq]
  push_cast
  ring

theorem raw_skipped_succ (g : Grading Rat) (aliases skipped others : Nat) :
    g.raw aliases (skipped + 1) others = g.raw aliases skipped others - g.skipPenalty := by
  rw [raw_eq, raw_eq]
  push_cast
  ring

/-- A loss of a thousandth shows in the confidence, unless it was at the floor or beyond one. -/
theorem confidence_lt (hfloor : g.floor ≤ 1)
    (hloss : g.raw aliases' skipped' others' ≤ g.raw aliases skipped others - 1 / 1000)
    (habove : g.floor < g.confidence aliases skipped others)
    (hone : g.rounded aliases skipped others ≤ 1) :
    g.confidence aliases' skipped' others' < g.confidence aliases skipped others := by
  rw [confidence_eq] at habove ⊢
  exact Scalar.clamp_lt_clamp hfloor (toThousandths_lt hloss) habove hone

/-- With penalties that are not negative and a floor of at most one, a confidence is between the
floor and one, and does not rise with any count.  It falls with one more alias or skipped segment if
the penalty is a thousandth or more, the confidence was above the floor and before it was bounded
at most one, for which it is enough that it was so before it was rounded. -/
theorem confidence_bounded_and_antitone (hg : g.IsNonneg) (hfloor : g.floor ≤ 1) :
    (∀ a s o, g.floor ≤ g.confidence a s o ∧ g.confidence a s o ≤ 1) ∧
      (∀ a a' s s' o o', a ≤ a' → s ≤ s' → o ≤ o' →
        g.confidence a' s' o' ≤ g.confidence a s o) ∧
      (∀ a s o, g.raw a s o ≤ 1 → g.rounded a s o ≤ 1) ∧
      ∀ a s o, g.floor < g.confidence a s o → g.rounded a s o ≤ 1 →
        (1 / 1000 ≤ g.aliasPenalty → g.confidence (a + 1) s o < g.confidence a s o) ∧
        (1 / 1000 ≤ g.skipPenalty → g.confidence a (s + 1) o < g.confidence a s o) := by
  refine ⟨fun a s o => ?_, fun a a' s s' o o' ha hs ho => ?_, fun a s o hraw => ?_,
    fun a s o habove hone => ⟨fun hpenalty => ?_, fun hpenalty => ?_⟩⟩
  · exact Scalar.clamp_mem hfloor _
  · rw [confidence_eq, confidence_eq]
    exact Scalar.clamp_mono hfloor (toThousandths_mono (raw_antitone hg ha hs ho))
  · exact (toThousandths_mono hraw).trans_eq toThousandths_one
  · refine confidence_lt hfloor ?_ habove hone
    rw [raw_alias_succ]
    exact sub_le_sub_left hpenalty _
  · refine confidence_lt hfloor ?_ habove hone
    rw [raw_skipped_succ]
    exact sub_le_sub_left hpenalty _

/-- One alias takes the value from half a thousandth above zero to as much below it, and both are
rounded away from zero. -/
def aroundZero : Grading Rat := ⟨1 / 2000, 1 / 1000, 0, 0, -1⟩

theorem confidence_bounded_and_antitone_aroundZero :
    aroundZero.IsNonneg ∧ aroundZero.floor ≤ 1 ∧ aroundZero.floor < aroundZero.confidence 0 0 0 ∧
      aroundZero.rounded 0 0 0 ≤ 1 ∧ 1 / 1000 ≤ aroundZero.aliasPenalty ∧
      aroundZero.confidence 0 0 0 = 1 / 1000 ∧ aroundZero.confidence 1 0 0 = -1 / 1000 ∧
      aroundZero.confidence 1 0 0 < aroundZero.confidence 0 0 0 := by
  have hg : aroundZero.IsNonneg := by constructor <;> decide +kernel
  have hfloor : aroundZero.floor ≤ 1 := by decide +kernel
  have habove : aroundZero.floor < aroundZero.confidence 0 0 0 := by decide +kernel
  have hone : aroundZero.rounded 0 0 0 ≤ 1 := by decide +kernel
  have hpenalty : 1 / 1000 ≤ aroundZero.aliasPenalty := by decide +kernel
  obtain ⟨_, _, _, hfalls⟩ := confidence_bounded_and_antitone hg hfloor
  exact ⟨hg, hfloor, habove, hone, hpenalty, by decide +kernel, by decide +kernel,
    (hfalls 0 0 0 habove hone).1 hpenalty⟩

end Grading

end DesignTokens.Naming
