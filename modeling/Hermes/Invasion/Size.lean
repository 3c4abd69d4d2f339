import Hermes.Invasion
import Hermes.Lib.MachineArithmetic
import Hermes.Lib.Rounding
import Mathlib.Data.Nat.Log

/-!
# The size of the invading force

`GetInvasionSize` adds up the people of all countries and draws a number between half and three halves of
that. The sum is a `long` that wraps around, the upper bound is computed as a `double`. Whatever its
rounding, there is a number between the bounds exactly when the sum is at least one
(`lower_lt_upper_iff`).
-/

namespace Hermes

namespace AlienInvasion

open MachineArithmetic

/-- Rounding to a `double`. -/
abbrev Double := Rounding 53 (-1074) 971

/-- `(long)` of a `double`: the fraction is cut off, and what is out of range is the nearest in it. -/
def toLong (q : ℚ) : Int := max (-2 ^ 63) (min (2 ^ 63 - 1) (Truncation.truncate q))

/-- The loops of `GetInvasionSize` that add up the people. -/
def worldSize (countries : List Amounts) : Int :=
  countries.foldl
    (fun size s => (getResources s).foldl
      (fun size r => if r.name = "Population" then (size + r.amount).bmod (2 ^ 64) else size) size)
    0

/-- `(long)(size / 2)`. -/
def lower (size : Int) : Int := size.tdiv 2

/-- `(long)(size * 1.5)`. -/
def upper (d : Double) (size : Int) : Int := toLong (d.round (d.round size * (3 / 2)))

/-- `GetInvasionSize`, `none` where `longs` throws: there has to be a number between the bounds. -/
def getInvasionSize (d : Double) (random : Int → Int → Int) (countries : List Amounts) : Option Int :=
  let size := worldSize countries
  if lower size < upper d size then some (random (lower size) (upper d size)) else none

/-! ### The people of the world -/

theorem foldl_getResources (size : Int) (s : Amounts) :
    (getResources s).foldl
        (fun size r => if r.name = "Population" then (size + r.amount).bmod (2 ^ 64) else size) size =
      (size + s.population).bmod (2 ^ 64) := rfl

theorem worldSize_eq (countries : List Amounts) :
    worldSize countries = ((countries.map PerResource.population).sum).bmod (2 ^ 64) := by
  have hfrom (n : Int) : countries.foldl (fun size s => (getResources s).foldl
      (fun size r => if r.name = "Population" then (size + r.amount).bmod (2 ^ 64) else size) size)
      (n.bmod (2 ^ 64)) = (n + (countries.map PerResource.population).sum).bmod (2 ^ 64) := by
    induction countries generalizing n with
    | nil => simp
    | cons s countries ih =>
      rw [List.foldl_cons, foldl_getResources, Int.bmod_add_bmod, ih, List.map_cons, List.sum_cons,
        add_assoc]
  simpa [worldSize] using hfrom 0

theorem fits_worldSize (countries : List Amounts) : Fits (2 ^ 64) (worldSize countries) := by
  rw [worldSize_eq]
  have hm : 0 < 2 ^ 64 := by decide
  exact ⟨Int.le_bmod hm, Int.bmod_lt hm⟩

/-! ### The bounds -/

variable (d : Double) {size : Int}

/-- Between the powers of two. -/
theorem exists_pow {n : Int} (hn : 1 ≤ n) (hn' : n ≤ 2 ^ 63) : ∃ k : ℕ, k ≤ 63 ∧ 2 ^ k ≤ n ∧ n < 2 ^ (k + 1) := by
  obtain ⟨m, rfl⟩ := Int.eq_ofNat_of_zero_le (by omega : 0 ≤ n)
  have hm : m ≠ 0 := by omega
  have hlow : 2 ^ Nat.log 2 m ≤ m := Nat.pow_log_le_self 2 hm
  have hhigh : m < 2 ^ (Nat.log 2 m + 1) := Nat.lt_pow_succ_log_self (by decide) m
  have hlog : Nat.log 2 m ≤ 63 := by
    by_contra hlarge
    have hpow : 2 ^ 64 ≤ 2 ^ Nat.log 2 m := Nat.pow_le_pow_right (by decide) (by omega)
    omega
  exact ⟨Nat.log 2 m, hlog, by exact_mod_cast hlow, by exact_mod_cast hhigh⟩

theorem pow_le_upper {k : ℕ} (hk : k ≤ 62) (h : 2 ^ k ≤ size) : 2 ^ k ≤ upper d size := by
  have hsize : (2 : ℚ) ^ k ≤ size := by exact_mod_cast h
  have hpos : (0 : ℚ) < 2 ^ k := by positivity
  have hhi : (k : Int) ≤ 971 := by omega
  have hround := d.le_round (by decide) (by decide) hhi hsize
  have hproduct : (2 : ℚ) ^ k ≤ d.round size * (3 / 2) := by linarith
  have hle := d.le_round (by decide) (by decide) hhi hproduct
  have htruncate : (2 : Int) ^ k ≤ Truncation.truncate (d.round (d.round size * (3 / 2))) :=
    Truncation.le_truncate (by positivity) (by exact_mod_cast hle)
  have hmax : (2 : Int) ^ k ≤ 2 ^ 62 := pow_le_pow_right₀ (by decide) hk
  unfold upper toLong
  omega

theorem upper_le_neg_pow {k : ℕ} (hk : k ≤ 63) (h : size ≤ -2 ^ k) : upper d size ≤ -2 ^ k := by
  have hsize : (size : ℚ) ≤ -2 ^ k := by exact_mod_cast h
  have hpos : (0 : ℚ) < 2 ^ k := by positivity
  have hhi : (k : Int) ≤ 971 := by omega
  have hround := d.round_le (by decide) (by decide) hhi hsize
  have hproduct : d.round size * (3 / 2) ≤ -2 ^ k := by linarith
  have hle := d.round_le (by decide) (by decide) hhi hproduct
  have hneg : (0 : Int) < 2 ^ k := by positivity
  have htruncate : Truncation.truncate (d.round (d.round size * (3 / 2))) ≤ -(2 : Int) ^ k :=
    Truncation.truncate_le (by omega) (by push_cast; exact hle)
  have hmin : (2 : Int) ^ k ≤ 2 ^ 63 := pow_le_pow_right₀ (by decide) hk
  unfold upper toLong
  omega

theorem upper_zero : upper d 0 = 0 := by
  have hzero : d.round 0 = 0 := d.round_zero (by decide) (by decide)
  rw [upper, Int.cast_zero, hzero, zero_mul, hzero]
  rfl

/-- There is a number between the bounds exactly when there is somebody. -/
theorem lower_lt_upper_iff (hfits : Fits (2 ^ 64) size) : lower size < upper d size ↔ 1 ≤ size := by
  obtain ⟨hlo, hhi⟩ := hfits
  rcases lt_trichotomy size 0 with hneg | rfl | hpos
  · obtain ⟨k, hk, hle, hlt⟩ := exists_pow (n := -size) (by omega) (by omega)
    have hbelow : size ≤ -2 ^ k := by omega
    have hupper := upper_le_neg_pow d hk hbelow
    have hpow : (2 : Int) ^ (k + 1) = 2 * 2 ^ k := by rw [pow_succ, mul_comm]
    have hlower : lower size = -(-size / 2) := by
      rw [lower, ← Int.tdiv_eq_ediv_of_nonneg (by omega), Int.neg_tdiv, neg_neg]
    omega
  · rw [upper_zero]
    decide
  · obtain ⟨k, hk, hle, hlt⟩ := exists_pow (n := size) (by omega) (by omega)
    have hk' : k ≤ 62 := by
      by_contra hlarge
      have hpow : (2 : Int) ^ 63 ≤ 2 ^ k := pow_le_pow_right₀ (by decide) (by omega)
      omega
    have hupper := pow_le_upper d hk' hle
    have hpow : (2 : Int) ^ (k + 1) = 2 * 2 ^ k := by rw [pow_succ, mul_comm]
    have hlower : lower size = size / 2 := Int.tdiv_eq_ediv_of_nonneg (by omega)
    omega

/-- In the range in which a `double` has all halves the upper bound is exact. -/
theorem upper_eq (hpos : 0 ≤ size) (hsmall : size ≤ 2 ^ 51) : upper d size = 3 * size / 2 := by
  have hsize : |size| < 2 ^ 53 := by
    rw [abs_of_nonneg hpos]
    omega
  have hthree : |3 * size| < 2 ^ 53 := by
    rw [abs_of_nonneg (by omega)]
    omega
  have hproduct : d.round size * (3 / 2) = ((3 * size : Int) : ℚ) / 2 := by
    rw [d.round_int hsize (by decide) (by decide)]
    push_cast
    ring
  have hfloor : ⌊((3 * size : Int) : ℚ) / 2⌋ = 3 * size / 2 := by
    exact_mod_cast Rat.floor_intCast_div_natCast (3 * size) 2
  have hnonneg : (0 : ℚ) ≤ ((3 * size : Int) : ℚ) / 2 := by positivity
  unfold upper toLong
  rw [hproduct, d.round_half hthree (by decide) (by decide), Truncation.truncate_eq_floor hnonneg, hfloor]
  omega

end AlienInvasion

end Hermes
