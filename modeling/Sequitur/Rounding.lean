import Mathlib

namespace Sequitur

/-- A rounding of the rationals to the numbers of a floating-point format. -/
structure Rounding where
  round : ℚ → ℚ
  mono : Monotone round
  zero : round 0 = 0
  one : round 1 = 1

namespace Rounding

def exact : Rounding := ⟨id, monotone_id, rfl, rfl⟩

variable (R : Rounding)

def cast (n : Nat) : ℚ := R.round n

/-- The product of a converted integer and a literal, cut to an integer. -/
def scale (n : Nat) (q : ℚ) : Nat := ⌊R.round (R.cast n * R.round q)⌋₊

def ratio (a b : Nat) : ℚ := R.round (R.cast a / R.cast b)

theorem cast_nonneg (n : Nat) : 0 ≤ R.cast n := by
  have h := R.mono (Nat.cast_nonneg (α := ℚ) n)
  rwa [R.zero] at h

theorem ratio_nonneg (a b : Nat) : 0 ≤ R.ratio a b := by
  have h := R.mono (div_nonneg (R.cast_nonneg a) (R.cast_nonneg b))
  rwa [R.zero] at h

theorem ratio_le_one {a b : Nat} (h : a ≤ b) : R.ratio a b ≤ 1 := by
  have hc : R.cast a ≤ R.cast b := R.mono (Nat.cast_le.mpr h)
  have hd := R.mono (div_le_one_of_le₀ hc (R.cast_nonneg b))
  rwa [R.one] at hd

theorem ratio_le {q : ℚ} (hq : R.round q = q) {a b : Nat} (ha : (a : ℚ) ≤ q) (hb : 1 ≤ b) : R.ratio a b ≤ q := by
  have hcast : R.cast a ≤ q := le_of_le_of_eq (R.mono ha) hq
  have hone : 1 ≤ R.cast b := le_of_eq_of_le R.one.symm (R.mono (Nat.one_le_cast.mpr hb))
  have hdiv : R.cast a / R.cast b ≤ q := (div_le_self (R.cast_nonneg a) hone).trans hcast
  exact le_of_le_of_eq (R.mono hdiv) hq

end Rounding

end Sequitur
