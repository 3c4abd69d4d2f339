import Hermes.Lib.Truncation
import Mathlib.Algebra.Order.Field.Rat
import Mathlib.Algebra.Order.Field.Power
import Mathlib.Algebra.Order.Ring.Abs
import Mathlib.Data.Int.ConditionallyCompleteOrder
import Mathlib.Data.Int.Log
import Mathlib.Order.Monotone.Defs
import Mathlib.Tactic.NormNum

/-!
# Rounding

A rounding to binary numbers of `bits` bits with exponents between `lo` and `hi`, in whatever direction. All
that is used of it is that it keeps the order and leaves those numbers and its own results as they are: so
it does not cross any of them (`Rounding.le_round`, `Rounding.round_le`), and it is exact on small integers
and their halves.

`Rounding.ofInteger` makes one of a rounding to integers, by the unit in the last place. With the nearest
integer, and the even one of two, it is the usual rounding (`Rounding.nearestEven`).
-/

/-- A rounding to binary numbers. -/
structure Rounding (bits : ℕ) (lo hi : Int) where
  round : ℚ → ℚ
  mono : Monotone round
  exact : ∀ m k : Int, |m| < 2 ^ bits → lo ≤ k → k ≤ hi → round (m * 2 ^ k) = m * 2 ^ k
  idem : ∀ x, round (round x) = round x

namespace Rounding

variable {bits : ℕ} {lo hi : Int} (r : Rounding bits lo hi) {x : ℚ} {k : ℕ}

/-- No rounding at all. -/
def unrounded (bits : ℕ) (lo hi : Int) : Rounding bits lo hi :=
  ⟨id, monotone_id, fun _ _ _ _ _ => rfl, fun _ => rfl⟩

theorem round_int {n : Int} (h : |n| < 2 ^ bits) (hlo : lo ≤ 0) (hhi : 0 ≤ hi) : r.round n = n := by
  simpa using r.exact n 0 h hlo hhi

/-- Half of an integer. -/
theorem round_half {n : Int} (h : |n| < 2 ^ bits) (hlo : lo ≤ -1) (hhi : -1 ≤ hi) :
    r.round (n / 2) = n / 2 := by
  have hexact := r.exact n (-1) h hlo hhi
  rwa [zpow_neg_one, ← div_eq_mul_inv] at hexact

section

variable {m e : Int} (hm : |m| < 2 ^ bits) (hlo : lo ≤ e) (hhi : e ≤ hi)
include hm hlo hhi

/-- What is below one of the numbers is not rounded above it. -/
theorem round_le_of_le (h : x ≤ m * 2 ^ e) : r.round x ≤ m * 2 ^ e := by
  rw [← r.exact m e hm hlo hhi]
  exact r.mono h

theorem le_round_of_le (h : m * 2 ^ e ≤ x) : m * 2 ^ e ≤ r.round x := by
  rw [← r.exact m e hm hlo hhi]
  exact r.mono h

end

theorem round_zero (hlo : lo ≤ 0) (hhi : 0 ≤ hi) : r.round 0 = 0 := by
  have hint := r.round_int (n := 0) (by simp) hlo hhi
  exact_mod_cast hint

theorem round_nonneg (hlo : lo ≤ 0) (hhi : 0 ≤ hi) (h : 0 ≤ x) : 0 ≤ r.round x := by
  rw [← r.round_zero hlo hhi]
  exact r.mono h

theorem abs_one_lt (hbits : 1 ≤ bits) : |(1 : Int)| < 2 ^ bits := by
  rw [abs_one]
  exact one_lt_pow₀ one_lt_two (by omega)

section

variable (hbits : 1 ≤ bits) (hlo : lo ≤ 0) (hhi : (k : Int) ≤ hi)
include hbits hlo hhi

/-- What is not below a power of two is not rounded below it. -/
theorem le_round (h : 2 ^ k ≤ x) : 2 ^ k ≤ r.round x := by
  have hle := r.le_round_of_le (abs_one_lt hbits) (by omega : lo ≤ k) hhi (by simpa using h)
  simpa using hle

theorem round_le_pow (h : x ≤ 2 ^ k) : r.round x ≤ 2 ^ k := by
  have hle := r.round_le_of_le (abs_one_lt hbits) (by omega : lo ≤ k) hhi (by simpa using h)
  simpa using hle

theorem round_le (h : x ≤ -2 ^ k) : r.round x ≤ -2 ^ k := by
  have hone : |(-1 : Int)| < 2 ^ bits := by
    rw [abs_neg]
    exact abs_one_lt hbits
  have hle := r.round_le_of_le hone (by omega : lo ≤ k) hhi (by simpa using h)
  simpa using hle

end

/-! ### From a rounding to integers -/

section OfInteger

variable (bits : ℕ) (rnd : ℚ → Int)

/-- The unit in the last place. -/
def unit (x : ℚ) : ℚ := 2 ^ (Int.log 2 |x| - (bits - 1))

/-- The number is rounded to a multiple of its unit. -/
def toUnits (x : ℚ) : ℚ := rnd (x / unit bits x) * unit bits x

variable {rnd} {x y : ℚ}

theorem unit_pos (x : ℚ) : 0 < unit bits x := zpow_pos (by norm_num) _

theorem pow_mul_unit (x : ℚ) : 2 ^ bits * unit bits x = 2 ^ (Int.log 2 |x| + 1) := by
  rw [unit, ← zpow_natCast, ← zpow_add₀ (by norm_num)]
  congr 1
  ring

theorem half_pow_mul_unit (hbits : 1 ≤ bits) (x : ℚ) :
    2 ^ (bits - 1) * unit bits x = 2 ^ Int.log 2 |x| := by
  rw [unit, ← zpow_natCast, ← zpow_add₀ (by norm_num), Nat.cast_sub hbits]
  congr 1
  push_cast
  ring

/-- In one binade the unit is the same. -/
theorem toUnits_le_toUnits (hmono : Monotone rnd) (hlog : Int.log 2 |x| = Int.log 2 |y|) (h : x ≤ y) :
    toUnits bits rnd x ≤ toUnits bits rnd y := by
  have hunit : unit bits x = unit bits y := by rw [unit, unit, hlog]
  rw [toUnits, toUnits, hunit]
  refine mul_le_mul_of_nonneg_right ?_ (unit_pos bits y).le
  exact_mod_cast hmono (div_le_div_of_nonneg_right h (unit_pos bits y).le)

section

variable (hmono : Monotone rnd) (hint : ∀ n : Int, rnd n = n)
include hmono hint

theorem toUnits_le {n : Int} (h : x ≤ n * unit bits x) : toUnits bits rnd x ≤ n * unit bits x := by
  have hle := hmono ((div_le_iff₀ (unit_pos bits x)).mpr h)
  rw [hint] at hle
  exact mul_le_mul_of_nonneg_right (by exact_mod_cast hle) (unit_pos bits x).le

theorem le_toUnits {n : Int} (h : n * unit bits x ≤ x) : n * unit bits x ≤ toUnits bits rnd x := by
  have hle := hmono ((le_div_iff₀ (unit_pos bits x)).mpr h)
  rw [hint] at hle
  exact mul_le_mul_of_nonneg_right (by exact_mod_cast hle) (unit_pos bits x).le

theorem toUnits_nonneg (hx : 0 ≤ x) : 0 ≤ toUnits bits rnd x := by
  have hle := le_toUnits bits hmono hint (x := x) (n := 0) (by simpa using hx)
  simpa using hle

theorem toUnits_nonpos (hx : x ≤ 0) : toUnits bits rnd x ≤ 0 := by
  have hle := toUnits_le bits hmono hint (x := x) (n := 0) (by simpa using hx)
  simpa using hle

theorem abs_toUnits_le (x : ℚ) : |toUnits bits rnd x| ≤ 2 ^ (Int.log 2 |x| + 1) := by
  have hlt : |x| < 2 ^ (Int.log 2 |x| + 1) := Int.lt_zpow_succ_log_self (by decide) |x|
  rw [← pow_mul_unit bits] at hlt ⊢
  obtain ⟨hlo, hhi⟩ := abs_lt.mp hlt
  have hle := toUnits_le bits hmono hint (x := x) (n := 2 ^ bits) (by push_cast; exact hhi.le)
  have hge := le_toUnits bits hmono hint (x := x) (n := -2 ^ bits) (by push_cast; linarith)
  push_cast at hle hge
  exact abs_le.mpr ⟨by linarith, hle⟩

theorem pow_le_toUnits (hbits : 1 ≤ bits) (hx : 0 < x) : 2 ^ Int.log 2 |x| ≤ toUnits bits rnd x := by
  have hlog : 2 ^ Int.log 2 |x| ≤ |x| := Int.zpow_log_le_self (b := 2) (by decide) (abs_pos.mpr hx.ne')
  rw [← half_pow_mul_unit bits hbits] at hlog ⊢
  have hge := le_toUnits bits hmono hint (x := x) (n := 2 ^ (bits - 1)) (by
    push_cast
    rwa [abs_of_pos hx] at hlog)
  push_cast at hge
  exact hge

theorem toUnits_le_neg_pow (hbits : 1 ≤ bits) (hx : x < 0) : toUnits bits rnd x ≤ -2 ^ Int.log 2 |x| := by
  have hlog : 2 ^ Int.log 2 |x| ≤ |x| := Int.zpow_log_le_self (b := 2) (by decide) (abs_pos.mpr hx.ne)
  rw [← half_pow_mul_unit bits hbits] at hlog ⊢
  have hle := toUnits_le bits hmono hint (x := x) (n := -2 ^ (bits - 1)) (by
    push_cast
    rw [abs_of_neg hx] at hlog
    linarith)
  push_cast at hle
  linarith

theorem monotone_toUnits (hbits : 1 ≤ bits) : Monotone (toUnits bits rnd) := by
  intro x y hxy
  -- in one binade the units are the same, and between two there is a power of two
  rcases lt_trichotomy 0 x with hx | rfl | hx
  · have hy : 0 < y := hx.trans_le hxy
    have habs : |x| ≤ |y| := by rwa [abs_of_pos hx, abs_of_pos hy]
    rcases (Int.log_mono_right (b := 2) (abs_pos.mpr hx.ne') habs).lt_or_eq with hlt | heq
    · calc toUnits bits rnd x ≤ 2 ^ (Int.log 2 |x| + 1) := le_of_abs_le (abs_toUnits_le bits hmono hint x)
        _ ≤ 2 ^ Int.log 2 |y| := zpow_le_zpow_right₀ (by norm_num) hlt
        _ ≤ toUnits bits rnd y := pow_le_toUnits bits hmono hint hbits hy
    · exact toUnits_le_toUnits bits hmono heq hxy
  · exact (toUnits_nonpos bits hmono hint le_rfl).trans (toUnits_nonneg bits hmono hint hxy)
  · rcases le_or_gt 0 y with hy | hy
    · exact (toUnits_nonpos bits hmono hint hx.le).trans (toUnits_nonneg bits hmono hint hy)
    · have habs : |y| ≤ |x| := by
        rw [abs_of_neg hx, abs_of_neg hy]
        linarith
      rcases (Int.log_mono_right (b := 2) (abs_pos.mpr hy.ne) habs).lt_or_eq with hlt | heq
      · calc toUnits bits rnd x ≤ -2 ^ Int.log 2 |x| := toUnits_le_neg_pow bits hmono hint hbits hx
          _ ≤ -2 ^ (Int.log 2 |y| + 1) := neg_le_neg (zpow_le_zpow_right₀ (by norm_num) hlt)
          _ ≤ toUnits bits rnd y := neg_le_of_abs_le (abs_toUnits_le bits hmono hint y)
      · exact toUnits_le_toUnits bits hmono heq.symm hxy

end

section

variable (hint : ∀ n : Int, rnd n = n)
include hint

theorem toUnits_of_eq {n : Int} (h : x = n * unit bits x) : toUnits bits rnd x = x := by
  have hdiv : x / unit bits x = n := (div_eq_iff (unit_pos bits x).ne').mpr h
  rw [toUnits, hdiv, hint, ← h]

/-- A number with no more than `bits` bits is a multiple of its unit. -/
theorem toUnits_exact {m k : Int} (hm : |m| < 2 ^ bits) : toUnits bits rnd (m * 2 ^ k) = m * 2 ^ k := by
  rcases eq_or_ne m 0 with rfl | hm0
  · exact toUnits_of_eq bits hint (n := 0) (by simp)
  · have hpow : (0 : ℚ) < 2 ^ k := zpow_pos (by norm_num) k
    have habs : |(m : ℚ) * 2 ^ k| = |(m : ℚ)| * 2 ^ k := by rw [abs_mul, abs_of_pos hpow]
    have hpos : 0 < |(m : ℚ) * 2 ^ k| := abs_pos.mpr (mul_ne_zero (by exact_mod_cast hm0) hpow.ne')
    have hlt : |(m : ℚ) * 2 ^ k| < 2 ^ (bits + k) := by
      rw [habs, zpow_add₀ (by norm_num), zpow_natCast]
      exact mul_lt_mul_of_pos_right (by exact_mod_cast hm) hpow
    have hlog : Int.log 2 |(m : ℚ) * 2 ^ k| < bits + k :=
      (Int.lt_zpow_iff_log_lt (by decide) hpos).mp (by exact_mod_cast hlt)
    -- the unit is `2 ^ j` with `j ≤ k`
    obtain ⟨d, hd⟩ := Int.eq_ofNat_of_zero_le
      (show 0 ≤ k - (Int.log 2 |(m : ℚ) * 2 ^ k| - (bits - 1)) by omega)
    refine toUnits_of_eq bits hint (n := m * 2 ^ d) ?_
    rw [unit, Int.cast_mul, mul_assoc, Int.cast_pow, Int.cast_ofNat, ← zpow_natCast, ← zpow_add₀ (by norm_num)]
    congr 2
    omega

theorem toUnits_idem (hmono : Monotone rnd) (hbits : 1 ≤ bits) (x : ℚ) :
    toUnits bits rnd (toUnits bits rnd x) = toUnits bits rnd x := by
  set n := rnd (x / unit bits x)
  have hx : toUnits bits rnd x = n * 2 ^ (Int.log 2 |x| - (bits - 1)) := rfl
  have hn : |n| ≤ 2 ^ bits := by
    have hle := abs_toUnits_le bits hmono hint x
    rw [← pow_mul_unit bits, toUnits, abs_mul, abs_of_pos (unit_pos bits x)] at hle
    exact_mod_cast le_of_mul_le_mul_right hle (unit_pos bits x)
  rcases hn.lt_or_eq with hlt | heq
  · rw [hx, toUnits_exact bits hint hlt]
  -- the number has been rounded up to the next power of two
  · have hone : (1 : Int) < 2 ^ bits := one_lt_pow₀ one_lt_two (by omega)
    obtain ⟨m, hm, hnm⟩ : ∃ m : Int, |m| = 1 ∧ n = m * 2 ^ bits := by
      rcases eq_or_eq_neg_of_abs_eq heq with h | h
      · exact ⟨1, rfl, by omega⟩
      · exact ⟨-1, rfl, by omega⟩
    have hpow : toUnits bits rnd x = m * 2 ^ (Int.log 2 |x| + 1) := by
      rw [← pow_mul_unit bits, ← mul_assoc]
      rw [hx, hnm]
      push_cast
      rfl
    rw [hpow, toUnits_exact bits hint (by omega)]

end

end OfInteger

/-- A rounding from a rounding to integers. The exponents have no bounds. -/
def ofInteger (bits : ℕ) (lo hi : Int) (rnd : ℚ → Int) (hbits : 1 ≤ bits) (hmono : Monotone rnd)
    (hint : ∀ n : Int, rnd n = n) : Rounding bits lo hi where
  round := toUnits bits rnd
  mono := monotone_toUnits bits hmono hint hbits
  exact _ _ hm _ _ := toUnits_exact bits hint hm
  idem := toUnits_idem bits hint hmono hbits

/-! ### To the nearest -/

/-- The nearest integer, of two the even one. -/
def nearestInteger (x : ℚ) : Int :=
  if x - ⌊x⌋ < 1 / 2 then ⌊x⌋
  else if 1 / 2 < x - ⌊x⌋ then ⌊x⌋ + 1
  else if ⌊x⌋ % 2 = 0 then ⌊x⌋ else ⌊x⌋ + 1

theorem nearestInteger_int (n : Int) : nearestInteger n = n := by
  simp [nearestInteger]

theorem nearestInteger_mem (x : ℚ) : ⌊x⌋ ≤ nearestInteger x ∧ nearestInteger x ≤ ⌊x⌋ + 1 := by
  unfold nearestInteger
  split_ifs <;> omega

theorem monotone_nearestInteger : Monotone nearestInteger := by
  intro x y hxy
  have hfloor := Int.floor_le_floor hxy
  obtain ⟨-, hx⟩ := nearestInteger_mem x
  obtain ⟨hy, -⟩ := nearestInteger_mem y
  rcases hfloor.lt_or_eq with hlt | heq
  · omega
  · unfold nearestInteger
    rw [heq]
    split_ifs <;> first
      | omega
      | linarith

/-- The usual rounding: to the nearest number of `bits` bits, and to the even one of two. -/
def nearestEven (bits : ℕ) (lo hi : Int) (hbits : 1 ≤ bits) : Rounding bits lo hi :=
  ofInteger bits lo hi nearestInteger hbits monotone_nearestInteger nearestInteger_int

end Rounding
