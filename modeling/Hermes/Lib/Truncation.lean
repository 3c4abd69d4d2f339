import Mathlib.Data.Rat.Floor
import Mathlib.Tactic.FieldSimp
import Mathlib.Tactic.Linarith

/-!
# Truncated division and truncated products

Integer division rounding toward zero (`Int.tdiv`), read as linear facts when the operands are not
negative, and the integer part of a rational. Nothing here depends on a program.
-/

namespace Truncation

/-! ### Quotients of integers -/

theorem tdiv_lt_one_iff {a b : Int} (ha : 0 ≤ a) (hb : 0 < b) : a.tdiv b < 1 ↔ a < b := by
  rw [Int.tdiv_eq_ediv_of_nonneg ha, Int.ediv_lt_iff_lt_mul hb, one_mul]

theorem lt_tdiv_iff {a b : Int} (k : Int) (ha : 0 ≤ a) (hb : 0 < b) :
    k < a.tdiv b ↔ (k + 1) * b ≤ a := by
  rw [Int.tdiv_eq_ediv_of_nonneg ha, ← Int.add_one_le_iff, Int.le_ediv_iff_mul_le hb]

/-! ### The integer part of a rational -/

/-- The rational with its fraction cut off, toward zero. -/
def truncate (q : ℚ) : Int := q.num.tdiv q.den

theorem truncate_eq_floor {q : ℚ} (hq : 0 ≤ q) : truncate q = ⌊q⌋ := by
  rw [truncate, Int.tdiv_eq_ediv_of_nonneg (Rat.num_nonneg.mpr hq), Rat.floor_def']

theorem truncate_eq_zero {q : ℚ} (h0 : 0 ≤ q) (h1 : q < 1) : truncate q = 0 := by
  rw [truncate_eq_floor h0, Int.floor_eq_zero_iff]
  exact ⟨h0, h1⟩

theorem truncate_neg (q : ℚ) : truncate (-q) = -truncate q := by
  rw [truncate, Rat.neg_num, Rat.neg_den, Int.neg_tdiv, truncate]

theorem le_truncate {n : Int} {q : ℚ} (hn : 0 ≤ n) (h : n ≤ q) : n ≤ truncate q := by
  have hn' : (0 : ℚ) ≤ n := by exact_mod_cast hn
  rw [truncate_eq_floor (hn'.trans h)]
  exact Int.le_floor.mpr h

theorem truncate_le {n : Int} {q : ℚ} (hn : n ≤ 0) (h : q ≤ n) : truncate q ≤ n := by
  have hneg : ((-n : Int) : ℚ) ≤ -q := by
    push_cast
    linarith
  have hle := le_truncate (by omega) hneg
  rw [truncate_neg] at hle
  omega

/-- A part of `x` between none and all of it, truncated, is between `0` and `x`. -/
theorem truncate_mul_mem {x : Int} {m : ℚ} (hx : 0 ≤ x) (h0 : 0 ≤ m) (h1 : m ≤ 1) :
    0 ≤ truncate (x * m) ∧ truncate (x * m) ≤ x := by
  have hx' : (0 : ℚ) ≤ x := by exact_mod_cast hx
  have hq : 0 ≤ (x : ℚ) * m := mul_nonneg hx' h0
  rw [truncate_eq_floor hq]
  refine ⟨Int.floor_nonneg.mpr hq, ?_⟩
  have hle : (x : ℚ) * m ≤ x := mul_le_of_le_one_right hx' h1
  calc ⌊(x : ℚ) * m⌋ ≤ ⌊(x : ℚ)⌋ := Int.floor_le_floor hle
    _ = x := Int.floor_intCast x

/-- The floor of a scaled quotient is a quotient of integers. -/
theorem floor_mul_div (a b : Int) {c : Int} (hc : 0 ≤ c) :
    ⌊(a : ℚ) * ((b : ℚ) / (c : ℚ))⌋ = a * b / c := by
  obtain ⟨n, rfl⟩ := Int.eq_ofNat_of_zero_le hc
  rw [mul_div_assoc', ← Int.cast_mul, Int.cast_natCast, Rat.floor_intCast_div_natCast]

end Truncation
