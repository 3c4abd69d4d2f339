import Hermes.Invasion.Attack
import Hermes.Invasion.Size

/-!
# Attacks in float arithmetic

An attack multiplies amounts with percentages as `float`s. However these are rounded, a percentage of the
tables takes away between nothing and all (`product_mem`), because it is well below one; so this arithmetic is
one the attacks are sound in (`sound_rounded`). With the modifier 1 of a country that is beyond hope, an amount
is taken away as it is rounded: what is rounded up leaves a negative amount (`reduceUrban_one_nonneg_iff`).
-/

namespace Hermes

open AlienInvasion

/-- Rounding to a `float`. -/
abbrev Single := Rounding 24 (-149) 104

/-- The arithmetic of an attack in `float`; the percentages are computed in `double`. -/
def FloatOps.rounded (d : Double) (s : Single) : FloatOps where
  percentage n := s.round (d.round (d.round (1 / 100) * n))
  product amount modifier := toLong (s.round (s.round amount * modifier))

variable (d : Double) (s : Single) {a : Amounts} {x aliens roll mod : Int} {modifier : ℚ} {urban : Bool}

namespace FloatOps

theorem toLong_nonneg {q : ℚ} (h : 0 ≤ q) : 0 ≤ toLong q := by
  have htruncate := Truncation.le_truncate (n := 0) le_rfl (by exact_mod_cast h)
  unfold toLong
  omega

theorem toLong_le {q : ℚ} (h0 : 0 ≤ q) (hx : 0 ≤ x) (h : x < 2 ^ 63 → q ≤ x) : toLong q ≤ x := by
  rcases lt_or_ge x (2 ^ 63) with hlt | hge
  · have htruncate : Truncation.truncate q ≤ x := by
      rw [Truncation.truncate_eq_floor h0]
      exact (Int.floor_le_floor (h hlt)).trans_eq (Int.floor_intCast x)
    unfold toLong
    omega
  · unfold toLong
    omega

theorem toLong_int (hx : 0 ≤ x) (h : x < 2 ^ 63) : toLong x = x := by
  have htruncate : Truncation.truncate (x : ℚ) = x := by
    rw [Truncation.truncate_eq_floor (by exact_mod_cast hx), Int.floor_intCast]
  unfold toLong
  omega

theorem product_nonneg (hx : 0 ≤ x) (h0 : 0 ≤ modifier) : 0 ≤ (rounded d s).product x modifier := by
  have hround := s.round_nonneg (by decide) (by decide) (by exact_mod_cast hx : (0 : ℚ) ≤ x)
  exact toLong_nonneg (s.round_nonneg (by decide) (by decide) (mul_nonneg hround h0))

/-- Up to two thirds are no more than there is. An amount is between two powers of two, in the lower half,
where it is rounded to three quarters of the upper one at most, or in the upper half. -/
theorem product_mem (hx : 0 ≤ x) (h0 : 0 ≤ modifier) (h : modifier ≤ 2 / 3) :
    0 ≤ (rounded d s).product x modifier ∧ (rounded d s).product x modifier ≤ x := by
  have hround := s.round_nonneg (by decide) (by decide) (by exact_mod_cast hx : (0 : ℚ) ≤ x)
  have hproduct := s.round_nonneg (by decide) (by decide) (mul_nonneg hround h0)
  refine ⟨product_nonneg d s hx h0, toLong_le hproduct hx fun hlt => ?_⟩
  rcases hx.eq_or_lt with rfl | hpos
  · simp [s.round_zero]
  obtain ⟨k, hk, hlow, hhigh⟩ := exists_pow (by omega : 1 ≤ x) hlt.le
  have hpow : (0 : ℚ) < 2 ^ k := by positivity
  have hlow' : (2 : ℚ) ^ k ≤ x := by exact_mod_cast hlow
  have hhigh' : (x : ℚ) < 2 ^ (k + 1) := by exact_mod_cast hhigh
  have hhalf : (3 : Int) * (2 : ℚ) ^ ((k : Int) - 1) = 3 / 2 * 2 ^ k := by
    rw [zpow_sub_one₀ (by norm_num), zpow_natCast]
    push_cast
    ring
  have hstep {q : ℚ} (hq : q ≤ 3 / 2 * 2 ^ k) : s.round q ≤ 3 / 2 * 2 ^ k := by
    rw [← hhalf] at hq ⊢
    exact s.round_le_of_le (by decide) (by omega) (by omega) hq
  rcases le_or_gt (3 / 2 * 2 ^ k) (x : ℚ) with hupper | hlower
  · have hx' : s.round x ≤ 2 ^ (k + 1) := s.round_le_pow (by decide) (by decide) (by omega) hhigh'.le
    rw [pow_succ] at hx'
    have hpart : s.round x * modifier ≤ 3 / 2 * 2 ^ k := by nlinarith
    exact (hstep hpart).trans hupper
  · have hx' := hstep hlower.le
    have hpart : s.round x * modifier ≤ 2 ^ k := by nlinarith
    exact (s.round_le_pow (by decide) (by decide) (by omega) hpart).trans hlow'

/-- The percentages of the tables, however they are rounded. -/
theorem percentage_rounded_mem {n : Int} (h : 0 ≤ n) (h' : n ≤ 54) :
    0 ≤ (rounded d s).percentage n ∧ (rounded d s).percentage n ≤ 11 / 1024 * n := by
  have h0 : (0 : ℚ) ≤ n := by exact_mod_cast h
  have hunit : (2 : ℚ) ^ (-10 : Int) = 1 / 1024 := by norm_num
  have hcent : 0 ≤ d.round (1 / 100) := d.round_nonneg (by decide) (by decide) (by norm_num)
  have hcent' : d.round (1 / 100) ≤ (11 : Int) * (2 : ℚ) ^ (-10 : Int) :=
    d.round_le_of_le (by decide) (by decide) (by decide) (by rw [hunit]; norm_num)
  have hmultiple : d.round (d.round (1 / 100) * n) ≤ (11 * n : Int) * (2 : ℚ) ^ (-10 : Int) := by
    refine d.round_le_of_le (abs_lt.mpr ⟨by omega, by omega⟩) (by decide) (by decide) ?_
    rw [hunit] at hcent' ⊢
    push_cast at hcent' ⊢
    nlinarith
  have hsingle : (rounded d s).percentage n ≤ (11 * n : Int) * (2 : ℚ) ^ (-10 : Int) :=
    s.round_le_of_le (abs_lt.mpr ⟨by omega, by omega⟩) (by decide) (by decide) hmultiple
  rw [hunit] at hsingle
  push_cast at hsingle
  refine ⟨?_, by linarith⟩
  exact s.round_nonneg (by decide) (by decide)
    (d.round_nonneg (by decide) (by decide) (mul_nonneg hcent h0))

/-- A percentage of a table is below two thirds. -/
theorem part_rounded {n : Int} (h : 0 ≤ n) (h' : n ≤ 54) : (rounded d s).Part ((rounded d s).percentage n) := by
  have h54 : (n : ℚ) ≤ 54 := by exact_mod_cast h'
  obtain ⟨h0, hle⟩ := percentage_rounded_mem d s h h'
  exact fun x hx => product_mem d s hx h0 (by linarith)

/-- Less than a whole one is rounded to less than a whole one. -/
theorem product_rounded_eq_zero {n : Int} (hx : 0 ≤ x) (h : 0 ≤ n) (h' : n ≤ 54) (hless : x * n ≤ 90) :
    (rounded d s).product x ((rounded d s).percentage n) = 0 := by
  obtain ⟨h0, hle⟩ := percentage_rounded_mem d s h h'
  have hunit : (2 : ℚ) ^ (-10 : Int) = 1 / 1024 := by norm_num
  have hx0 : (0 : ℚ) ≤ x := by exact_mod_cast hx
  have hround : s.round x * (rounded d s).percentage n ≤ (11 * (x * n) : Int) * (2 : ℚ) ^ (-10 : Int) := by
    rw [hunit]
    push_cast
    rcases h.eq_or_lt with rfl | hn
    · rw [le_antisymm (by simpa using hle) h0]
      simp
    · have hsmall : x ≤ 90 := by nlinarith
      rw [s.round_int (abs_lt.mpr ⟨by omega, by omega⟩) (by decide) (by decide)]
      nlinarith
  have hpos := s.round_nonneg (by decide) (by decide)
    (mul_nonneg (s.round_nonneg (by decide) (by decide) hx0) h0)
  have hbelow := s.round_le_of_le (abs_lt.mpr ⟨by nlinarith, by nlinarith⟩) (by decide) (by decide) hround
  have hone : (11 * (x * n) : Int) * (2 : ℚ) ^ (-10 : Int) < 1 := by
    have hcast : ((11 * (x * n) : Int) : ℚ) ≤ 990 := by exact_mod_cast (by omega : 11 * (x * n) ≤ 990)
    rw [hunit]
    linarith
  have htruncate := Truncation.truncate_eq_zero hpos (hbelow.trans_lt hone)
  simp only [rounded] at htruncate ⊢
  unfold toLong
  omega

/-- All of it is what is rounded. -/
theorem product_one (x : Int) : (rounded d s).product x 1 = toLong (s.round x) := by
  simp only [rounded, mul_one, s.idem]

/-- What is below `2 ^ 24` is not rounded. -/
theorem toLong_round_of_lt (hx : 0 ≤ x) (h : x < 2 ^ 24) : toLong (s.round x) = x := by
  rw [s.round_int (abs_lt.mpr ⟨by omega, h⟩) (by decide) (by decide), toLong_int hx (by omega)]

end FloatOps

namespace AlienInvasion

theorem sound_rounded : (FloatOps.rounded d s).Sound where
  part _ hn hn' := FloatOps.part_rounded d s hn hn'
  few x hx hless := (FloatOps.product_one d s x).trans (FloatOps.toLong_round_of_lt s hx (by omega))
  all_nonneg _ hx := FloatOps.product_nonneg d s hx zero_le_one
  less _ _ hx hn hn' hless := FloatOps.product_rounded_eq_zero d s hx hn hn' hless

/-- An amount that is rounded up becomes negative. -/
theorem reduceUrban_one_nonneg_iff (ha : a.Nonneg) (hfew : a.population < 100) :
    (Country.reduceUrban (.rounded d s) 1 a).Nonneg ↔
      toLong (s.round a.housing) ≤ a.housing ∧ toLong (s.round a.electronics) ≤ a.electronics := by
  rw [reduceUrban_one (sound_rounded d s) (ha .population) hfew, FloatOps.product_one, FloatOps.product_one]
  refine ⟨fun h => ⟨sub_nonneg.mp (h .housing), sub_nonneg.mp (h .electronics)⟩, ?_⟩
  rintro ⟨hhousing, helectronics⟩ p
  have hkept := ha p
  cases p
  case population => exact le_rfl
  case housing => exact sub_nonneg.mpr hhousing
  case electronics => exact sub_nonneg.mpr helectronics
  all_goals exact hkept

/-- **Attacks in float arithmetic.** However products and percentages are rounded, for every roll, every
modifier in the range that `CalculateModifier` checks and both types: the aliens stay between none and as many
as before, and no amount grows. An amount becomes negative exactly when the country is beyond hope and
housing or electronics are rounded up, which they are not below `2 ^ 24`. -/
theorem attack_rounded (ha : a.Nonneg) (haliens : 0 ≤ aliens) (hmod : -27 ≤ mod ∧ mod ≤ 27)
    (urban : Bool) (roll : Int) :
    (0 ≤ (executeAttack (.rounded d s) urban roll mod aliens a).1 ∧
        (executeAttack (.rounded d s) urban roll mod aliens a).1 ≤ aliens) ∧
      (∀ p, (executeAttack (.rounded d s) urban roll mod aliens a).2.get p ≤ a.get p) ∧
      ((executeAttack (.rounded d s) urban roll mod aliens a).2.Nonneg ↔
        (BeyondHope a aliens roll →
          toLong (s.round a.housing) ≤ a.housing ∧ toLong (s.round a.electronics) ≤ a.electronics)) ∧
      (a.housing < 2 ^ 24 → a.electronics < 2 ^ 24 →
        (executeAttack (.rounded d s) urban roll mod aliens a).2.Nonneg) := by
  obtain ⟨hdamaged, hleft, -⟩ := executeAttack_effects (sound_rounded d s) ha haliens hmod urban roll
  refine ⟨hleft, ?_⟩
  by_cases h : BeyondHope a aliens roll
  · rw [executeAttack_of_beyondHope _ h]
    have hiff := reduceUrban_one_nonneg_iff d s ha h.few
    refine ⟨reduceUrban_one_le (sound_rounded d s) ha h.few, ?_, fun hhousing helectronics => ?_⟩
    · rw [hiff]
      exact ⟨fun hle _ => hle, fun hle => hle h⟩
    · exact hiff.mpr ⟨(FloatOps.toLong_round_of_lt s (ha .housing) hhousing).le,
        (FloatOps.toLong_round_of_lt s (ha .electronics) helectronics).le⟩
  · exact ⟨fun p => ((hdamaged h).within p).2, iff_of_true (hdamaged h).nonneg fun hhope => absurd hhope h,
      fun _ _ => (hdamaged h).nonneg⟩

/-- The usual rounding, to the nearest. -/
def nearestDouble : Double := .nearestEven _ _ _ (by decide)

def nearestSingle : Single := .nearestEven _ _ _ (by decide)

/-- Five people with more houses than a `float` can count. -/
def crowded : Amounts := ⟨5, 0, 0, 0, 0, 5, 2 ^ 24 + 3, 0⟩

/-- `attack_rounded` for a hundred aliens there: one house less than none is left. -/
theorem attack_rounded_crowded :
    (executeAttack (.rounded nearestDouble nearestSingle) true 10 0 100 crowded).2.housing = -1 ∧
      ¬ (executeAttack (.rounded nearestDouble nearestSingle) true 10 0 100 crowded).2.Nonneg := by
  have hmod : -27 ≤ (0 : Int) ∧ (0 : Int) ≤ 27 := by decide
  have haliens : (0 : Int) ≤ 100 := by decide
  obtain ⟨-, -, hiff, -⟩ :=
    attack_rounded nearestDouble nearestSingle (a := crowded) (by decide) haliens hmod true 10
  refine ⟨by decide +kernel, hiff.not.mpr fun h => ?_⟩
  exact absurd (h (by decide)).1 (by decide +kernel)

end AlienInvasion

end Hermes
